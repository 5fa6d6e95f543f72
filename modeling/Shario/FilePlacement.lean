import Shario.CharacterTree

/-! Where `add_crdt` and `remove_crdt` of `tree.rs` put and take a character, on every
file whose rows hold known characters once each. -/
namespace FilePlacement

open CrdtTypes RowLayout FileTree FileSearch TreeOrder CharacterTree

/-- What every history of calls keeps, however the rows are shaped. -/
structure Sound (f : SharFile) : Prop where
  nonempty : f.projection ≠ []
  known : ∀ x ∈ f.projection.flatten, x ∈ f.characters
  nodup : f.projection.flatten.Nodup
  rooted : Rooted f.characters

/-- `a` is the nearest live ancestor above `x`, and `t` its child on the way to `x`. -/
inductive Anchor (m : Characters) : Identity → Identity → Identity → Prop where
  | live {x a} : parentOf m x = some a → Live m a → Anchor m x x a
  | tomb {x y t a} : parentOf m x = some y → Tomb m y → Anchor m y t a → Anchor m x t a

/-- The slot `find_tombstone` gives for the tombstone `x`: in row `A.length`, between
`pre` and `post`. Under the root it scans from the sentinel itself. -/
inductive Slot (f : SharFile) : Identity → List (List Identity) → List Identity →
    List Identity → List (List Identity) → Prop where
  | root {x line B} : parentOf f.characters x = some root → f.projection = line :: B →
      Slot f x [] (line.takeWhile (skips f.characters root x))
        (line.dropWhile (skips f.characters root x)) B
  | live {x a A u v B} : parentOf f.characters x = some a → a ≠ FileTree.root →
      Live f.characters a → f.projection = A ++ (u ++ a :: v) :: B →
      Slot f x A (u ++ a :: v.takeWhile (skips f.characters a x))
        (v.dropWhile (skips f.characters a x)) B
  | tomb {x y A pre post B} : parentOf f.characters x = some y → Tomb f.characters y →
      Slot f y A pre post B →
      Slot f x A (pre ++ post.takeWhile (skips f.characters y x))
        (post.dropWhile (skips f.characters y x)) B

theorem Slot.rows {f : SharFile} {x : Identity} {A B : List (List Identity)}
    {pre post : List Identity} (h : Slot f x A pre post B) :
    f.projection = A ++ (pre ++ post) :: B := by
  induction h with
  | root _ hp => rw [List.takeWhile_append_dropWhile, List.nil_append, hp]
  | live _ _ _ hp => rw [List.append_assoc, List.cons_append, List.takeWhile_append_dropWhile, hp]
  | tomb _ _ _ ih => rw [List.append_assoc, List.takeWhile_append_dropWhile, ih]

theorem mem_row_known {f : SharFile} (hf : Sound f) {A B : List (List Identity)}
    {row : List Identity} (h : f.projection = A ++ row :: B) {e : Identity} (he : e ∈ row) :
    e ∈ f.characters := by
  apply hf.known
  rw [h]
  exact List.mem_flatten.mpr ⟨row, by simp, he⟩

theorem tombstone_slot_eq {f : SharFile} (hf : Sound f) {A B : List (List Identity)}
    {pre post : List Identity} (hrows : f.projection = A ++ (pre ++ post) :: B)
    (x parent : Identity) {start offset : ℕ} (hstart : start + offset = pre.length) :
    tombstoneSlot f x parent (A.length, start) offset (start + post.length + 1) =
      some (.ok (A.length, (pre ++ post.takeWhile (skips f.characters parent x)).length)) := by
  have hline : f.projection[A.length]? = some (pre ++ post) := by rw [hrows]; simp
  have hloop := tie_break_eq f.characters parent x offset post pre (post.length + 1) start
    (fun e he => mem_row_known hf hrows (by simp [he])) hstart (by omega)
  have hcount : start + post.length + 1 - start = post.length + 1 := by omega
  simp only [tombstoneSlot, hline, hcount, hloop, Option.bind_eq_bind, Option.bind_some,
    List.length_append]

/-- `find_tombstone` ends; it fails only when the nearest live ancestor has no place. -/
theorem find_tombstone_spec {f : SharFile} (hf : Sound f) (lineNum : ℕ) :
    ∀ {x : Identity} {p : List Identity}, PathTo (parentOf f.characters) root x p → x ≠ root →
    ∀ fuel, p.length ≤ fuel →
    (∃ A pre post B, Slot f x A pre post B ∧
      findTombstone f lineNum fuel x = some (.ok (A.length, pre.length))) ∨
    (∃ t a e, Anchor f.characters x t a ∧ a ≠ root ∧ a ∉ f.projection.flatten ∧
      findTombstone f lineNum fuel x = some (.error e)) := by
  intro x p hp
  induction hp with
  | root => exact fun h => absurd rfl h
  | @step x y p hxy hp ih =>
    intro _ fuel hfuel
    obtain ⟨fuel, rfl⟩ : ∃ n, fuel = n + 1 := ⟨fuel - 1, by simp at hfuel; omega⟩
    obtain ⟨_, relation, hrel, rfl⟩ := parentOf_eq_some.mp hxy
    have hpm : relation.parent ∈ f.characters := hf.rooted.mem_of_path hp
    obtain ⟨parent, hpar⟩ := Finmap.mem_iff.mp hpm
    simp only [findTombstone, hrel, hpar]
    cases hd : parent.deleted with
    | true =>
      have htomb : Tomb f.characters relation.parent := ⟨parent, hpar, hd⟩
      rw [if_pos rfl]
      rcases ih (hf.rooted.tomb_ne_root htomb) fuel (by simp at hfuel; omega) with
        ⟨A, pre, post, B, hslot, he⟩ | ⟨t, a, e, ha, har, hnot, he⟩
      · have hrows := hslot.rows
        have hline : f.projection[A.length]? = some (pre ++ post) := by rw [hrows]; simp
        refine Or.inl ⟨A, _, _, B, .tomb hxy htomb hslot, ?_⟩
        have hlen : (pre ++ post).length + 1 = pre.length + post.length + 1 := by
          rw [List.length_append]
        simp only [he, hline, hlen, Option.bind_eq_bind, Option.bind_some]
        exact tombstone_slot_eq hf hrows x _ rfl
      · exact Or.inr ⟨t, a, e, .tomb hxy htomb ha, har, hnot, by
          simp only [he, Option.bind_eq_bind, Option.bind_some]⟩
    | false =>
      have hlive : Live f.characters relation.parent := ⟨parent, hpar, hd⟩
      rw [if_neg (by simp)]
      by_cases hroot : relation.parent = root
      · rw [if_pos hroot]
        obtain ⟨line, B, hrows⟩ := List.exists_cons_of_ne_nil hf.nonempty
        refine Or.inl ⟨[], _, _, B, .root (hroot ▸ hxy) hrows, ?_⟩
        have hcut : f.projection = [] ++ ([] ++ line) :: B := hrows
        have hstart : 0 + 0 = ([] : List Identity).length := rfl
        have h0 := tombstone_slot_eq hf hcut x relation.parent hstart
        simp only [hroot] at h0 ⊢
        simpa [hrows] using h0
      · rw [if_neg hroot]
        rcases find_spec lineNum hf.nonempty hroot with ⟨pos, hpos, he⟩ | ⟨hnot, he⟩
        · obtain ⟨A, u, v, B, hrows, rfl⟩ := hpos
          have hline : f.projection[A.length]? = some (u ++ relation.parent :: v) := by
            rw [hrows]; simp
          refine Or.inl ⟨A, _, _, B, .live hxy hroot hlive hrows, ?_⟩
          have hcut : f.projection = A ++ (u ++ [relation.parent] ++ v) :: B := by
            simpa using hrows
          have hstart : u.length + 1 = (u ++ [relation.parent]).length := by simp
          have h1 := tombstone_slot_eq hf hcut x relation.parent hstart
          have hlen : (u ++ relation.parent :: v).length = u.length + v.length + 1 := by
            simp; omega
          simp only [he, hline, hlen, Option.bind_eq_bind, Option.bind_some]
          rw [h1]
          simp
        · refine Or.inr ⟨_, _, .outOfBounds "parent cannot be found", .live hxy hlive, hroot, hnot, ?_⟩
          simp only [he, Option.bind_eq_bind, Option.bind_some]

/-- Where `add_crdt` starts to look for the place of a new child of `y`. -/
inductive Place (f : SharFile) : Identity → List (List Identity) → List Identity →
    List Identity → List (List Identity) → Prop where
  | root {line B} : f.projection = line :: B → Place f root [] (line.take 1) (line.drop 1) B
  | live {y A u v B} : y ≠ FileTree.root → Live f.characters y →
      f.projection = A ++ (u ++ y :: v) :: B → Place f y A (u ++ [y]) v B
  | tomb {y A pre post B} : Tomb f.characters y → Slot f y A pre post B → Place f y A pre post B

theorem Place.rows {f : SharFile} {y : Identity} {A B : List (List Identity)}
    {pre post : List Identity} (h : Place f y A pre post B) :
    f.projection = A ++ (pre ++ post) :: B := by
  cases h with
  | root hp => rw [List.take_append_drop, List.nil_append, hp]
  | live _ _ hp => rw [hp, List.append_assoc, List.singleton_append]
  | tomb _ hs => exact hs.rows

theorem Place.slot {f : SharFile} {y : Identity} {A B : List (List Identity)}
    {pre post : List Identity} (h : Place f y A pre post B) (hm : Rooted f.characters)
    (ht : Tomb f.characters y) : Slot f y A pre post B := by
  cases h with
  | root _ => exact absurd rfl (hm.tomb_ne_root ht)
  | live _ hl _ => exact absurd hl ht.not_live
  | tomb _ hs => exact hs

theorem Place.scan {f : SharFile} {y : Identity} {A B : List (List Identity)}
    {pre post : List Identity} (h : Place f y A pre post B) (k : Identity → Bool) :
    f.projection = A ++ (pre ++ post.takeWhile k ++ post.dropWhile k) :: B := by
  rw [h.rows, List.append_assoc, List.takeWhile_append_dropWhile]

def landed (f : SharFile) (c : CRDT) (p : Projection) : SharFile :=
  ⟨f.filePath, f.characters.insert c.identity c.relation, p⟩

def marked (f : SharFile) (x : Identity) (rel : CrdtRelation) (p : Projection) : SharFile :=
  ⟨f.filePath, mark f.characters x rel, p⟩

/-- The outcomes of `add_crdt`; none depends on the row hint. -/
inductive Added (f : SharFile) (c : CRDT) : Outcome → SharFile → Prop where
  | orphan : c.relation.parent ∉ f.characters →
      Added f c (.error (.generic "Parent does not exist")) f
  | duplicate : c.relation.parent ∈ f.characters → c.identity ∈ f.characters →
      Added f c (.ok none) f
  | unplaced {t a} : c.relation.parent ∈ f.characters → c.identity ∉ f.characters →
      (Live f.characters c.relation.parent ∧ a = c.relation.parent ∨
        Tomb f.characters c.relation.parent ∧ Anchor f.characters c.relation.parent t a) →
      a ≠ root → a ∉ f.projection.flatten →
      Added f c (.error (.outOfBounds "parent could not be found")) f
  | char {A pre post B} : c.identity ∉ f.characters → isLineBreak c.relation.value = false →
      Place f c.relation.parent A pre post B → (c.relation.parent = root → pre ≠ []) →
      Added f c (.ok (some (A.length,
          (pre ++ post.takeWhile (skips f.characters c.relation.parent c.identity)).length)))
        (landed f c (A ++ (pre ++ post.takeWhile (skips f.characters c.relation.parent c.identity) ++
          c.identity :: post.dropWhile (skips f.characters c.relation.parent c.identity)) :: B))
  | dropped {B} : c.identity ∉ f.characters → isLineBreak c.relation.value = false →
      c.relation.parent = root → f.projection = [] :: B →
      Added f c (.ok none) (landed f c f.projection)
  | line {A pre post B} : c.identity ∉ f.characters → isLineBreak c.relation.value = true →
      Live f.characters c.relation.parent → Place f c.relation.parent A pre post B →
      Added f c (.ok (some (A.length + 1, 0)))
        (landed f c (A ++ pre :: (c.identity :: post) :: B))
  -- a tombstoned parent: the new row goes above the old one
  | lineAbove {A pre post B} : c.identity ∉ f.characters → isLineBreak c.relation.value = true →
      Tomb f.characters c.relation.parent → Slot f c.relation.parent A pre post B →
      Added f c (.ok (some (A.length + 1, 0)))
        (landed f c (A ++ (c.identity :: post) :: pre :: B))

theorem add_line_eq {p : Projection} {A B : List (List Identity)} {pre post : List Identity}
    (hp : p = A ++ (pre ++ post) :: B) (id peer : ℕ) {col : ℕ} {real : Bool}
    (hcol : pre ++ post = [] ∨ col + (if real then 1 else 0) = pre.length) :
    addLineToProjection p (A.length, col) id peer real =
      some (if real then A ++ pre :: ((id, peer) :: post) :: B
        else A ++ ((id, peer) :: post) :: pre :: B) := by
  subst hp
  have hline : (A ++ (pre ++ post) :: B)[A.length]? = some (pre ++ post) := by simp
  have hnext := fun (r s : List Identity) =>
    insertAt_append (A ++ [r]) B s
  simp only [List.length_append, List.length_singleton, List.append_assoc,
    List.singleton_append] at hnext
  unfold addLineToProjection
  simp only [hline, Option.bind_eq_bind, Option.bind_some, set_middle]
  by_cases he : pre ++ post = []
  · obtain ⟨rfl, rfl⟩ := List.append_eq_nil_iff.mp he
    cases real with
    | true => simpa using hnext [] [(id, peer)]
    | false => simp
  · have hne : (pre ++ post).isEmpty = false := by
      rw [Bool.eq_false_iff, Ne, List.isEmpty_iff]
      exact he
    simp only [hne, hcol.resolve_left he, splitOff_append, Bool.false_eq_true, if_false,
      Option.bind_some]
    cases real with
    | true => simpa using hnext pre ((id, peer) :: post)
    | false => simp

section Insert

variable {f : SharFile} {c : CRDT} {A B : List (List Identity)} {pre post : List Identity}
  {start : ℕ} {real : Bool}

theorem insert_line_eq (hrows : f.projection = A ++ (pre ++ post) :: B)
    (hb : isLineBreak c.relation.value = true)
    (hcol : pre ++ post = [] ∨ start + (if real then 1 else 0) = pre.length) :
    insertCrdt f c (A.length, start) real =
      some (.ok (some (A.length + 1, 0)), landed f c (if real
        then A ++ pre :: (c.identity :: post) :: B
        else A ++ (c.identity :: post) :: pre :: B)) := by
  have hp := add_line_eq hrows c.id c.peer hcol
  simp only [insertCrdt, hb, if_true, hp, Option.bind_eq_bind, Option.bind_some]
  rfl

theorem skips_landed (hf : Sound f) (hrows : f.projection = A ++ (pre ++ post) :: B)
    (hc : c.identity ∉ f.characters) {e : Identity} (he : e ∈ post) :
    skips (f.characters.insert c.identity c.relation) c.relation.parent c.identity e =
      skips f.characters c.relation.parent c.identity e :=
  skips_insert fun h => hc (h ▸ mem_row_known hf hrows (by simp [he]))

theorem insert_char_eq (hf : Sound f) (hrows : f.projection = A ++ (pre ++ post) :: B)
    (hb : isLineBreak c.relation.value = false) (hc : c.identity ∉ f.characters)
    (hstart : start + (if real then 1 else 0) = pre.length) :
    insertCrdt f c (A.length, start) real =
      some (.ok (some (A.length,
          (pre ++ post.takeWhile (skips f.characters c.relation.parent c.identity)).length)),
        landed f c (A ++ (pre ++
          post.takeWhile (skips f.characters c.relation.parent c.identity) ++
          c.identity :: post.dropWhile (skips f.characters c.relation.parent c.identity)) :: B)) := by
  have hline : f.projection[A.length]? = some (pre ++ post) := by rw [hrows]; simp
  have hloop := tie_break_eq (f.characters.insert c.identity c.relation) c.relation.parent
    c.identity (if real then 1 else 0) post pre
    ((if real then (pre ++ post).length else (pre ++ post).length + 1) - start) start
    (fun e he => Finmap.mem_insert.mpr (Or.inr (mem_row_known hf hrows (by simp [he])))) hstart
    (by cases real <;> simp at hstart ⊢ <;> omega)
  rw [takeWhile_congr fun e he => skips_landed hf hrows hc he] at hloop
  have hsplit := List.takeWhile_append_dropWhile
    (p := skips f.characters c.relation.parent c.identity) (l := post)
  generalize htw : post.takeWhile (skips f.characters c.relation.parent c.identity) = tw at *
  generalize hdw : post.dropWhile (skips f.characters c.relation.parent c.identity) = dw at *
  subst hsplit
  have hlen : pre.length + tw.length = (pre ++ tw).length := by simp
  simp only [insertCrdt, hb, if_false, Bool.false_eq_true, hline, Option.bind_eq_bind,
    Option.bind_some]
  rw [show (c.id : ℕ) = c.identity.1 from rfl, show (c.peer : ℕ) = c.identity.2 from rfl, hloop]
  simp only [Option.bind_some, hlen, ← List.append_assoc]
  cases dw with
  | nil => simp [landed, hrows]
  | cons d dw =>
    have hat := insertAt_append (pre ++ tw) (d :: dw) c.identity
    rw [List.append_assoc, List.length_append] at hat
    simp [landed, hrows, hat]

theorem insert_dropped_eq (hrows : f.projection = [] :: B)
    (hb : isLineBreak c.relation.value = false) :
    insertCrdt f c (0, 0) true = some (.ok none, landed f c f.projection) := by
  simp [insertCrdt, hb, hrows, tieBreak, landed]

end Insert

theorem add_eq {f : SharFile} {c : CRDT} {lineNum : ℕ} {par : CrdtRelation}
    (hpar : f.characters.lookup c.relation.parent = some par) (hc : c.identity ∉ f.characters) :
    f.addCrdt lineNum c =
      (if !par.deleted then findCrdt f.projection lineNum c.relation.parent
        else findTombstone f lineNum f.characters.keys.card c.relation.parent).bind fun parent =>
      match parent with
      | .ok coordinates => insertCrdt f c coordinates !par.deleted
      | .error _ => some (.error (.outOfBounds "parent could not be found"), f) := by
  have hnone : f.characters.lookup c.identity = none := Finmap.lookup_eq_none.mpr hc
  simp only [SharFile.addCrdt, hpar, hnone, Option.isSome_none, Bool.false_eq_true, if_false]
  cases par.deleted <;> rfl

/-- `add_crdt` never panics, and its outcome is one of `Added`. -/
theorem add_cases {f : SharFile} (hf : Sound f) (c : CRDT) (lineNum : ℕ) :
    ∃ o f', f.addCrdt lineNum c = some (o, f') ∧ Added f c o f' := by
  by_cases hpm : c.relation.parent ∈ f.characters
  swap
  · have hnone : f.characters.lookup c.relation.parent = none := Finmap.lookup_eq_none.mpr hpm
    exact ⟨_, _, by simp [SharFile.addCrdt, hnone], .orphan hpm⟩
  obtain ⟨par, hpar⟩ := Finmap.mem_iff.mp hpm
  by_cases hc : c.identity ∈ f.characters
  · obtain ⟨rel, hrel⟩ := Finmap.mem_iff.mp hc
    exact ⟨_, _, by simp [SharFile.addCrdt, hpar, hrel], .duplicate hpm hc⟩
  rw [add_eq hpar hc]
  cases hd : par.deleted with
  | true =>
    have htomb : Tomb f.characters c.relation.parent := ⟨par, hpar, hd⟩
    obtain ⟨p, hp⟩ := hf.rooted.climbs _ hpm
    simp only [Bool.not_true, Bool.false_eq_true, if_false]
    rcases find_tombstone_spec hf lineNum hp (hf.rooted.tomb_ne_root htomb) _
      (hf.rooted.path_length hp).le with ⟨A, pre, post, B, hs, he⟩ | ⟨t, a, e, ha, har, hnot, he⟩
    · simp only [he, Option.bind_some]
      cases hb : isLineBreak c.relation.value with
      | true => exact ⟨_, _, insert_line_eq hs.rows hb (Or.inr rfl), .lineAbove hc hb htomb hs⟩
      | false =>
        refine ⟨_, _, insert_char_eq hf hs.rows hb hc rfl, .char hc hb (.tomb htomb hs) ?_⟩
        exact fun h => absurd h (hf.rooted.tomb_ne_root htomb)
    · simp only [he, Option.bind_some]
      exact ⟨_, _, rfl, .unplaced hpm hc (Or.inr ⟨htomb, ha⟩) har hnot⟩
  | false =>
    have hlive : Live f.characters c.relation.parent := ⟨par, hpar, hd⟩
    simp only [Bool.not_false, if_true]
    by_cases hroot : c.relation.parent = root
    · obtain ⟨line, B, hrows⟩ := List.exists_cons_of_ne_nil hf.nonempty
      have hplace : Place f c.relation.parent [] (line.take 1) (line.drop 1) B := by
        rw [hroot]
        exact .root hrows
      have hstart : line = [] ∨ 0 + 1 = (line.take 1).length := by
        cases line <;> simp
      simp only [hroot, find_root, Option.bind_some]
      cases hb : isLineBreak c.relation.value with
      | true =>
        refine ⟨_, _, insert_line_eq hplace.rows hb ?_, .line hc hb hlive hplace⟩
        rw [List.take_append_drop]
        exact hstart
      | false =>
        rcases hstart with rfl | hstart
        · exact ⟨_, _, insert_dropped_eq hrows hb, .dropped hc hb hroot hrows⟩
        · refine ⟨_, _, insert_char_eq hf hplace.rows hb hc hstart, .char hc hb hplace ?_⟩
          intro _ he
          rw [he] at hstart
          simp at hstart
    · rcases find_spec lineNum hf.nonempty hroot with ⟨pos, hpos, he⟩ | ⟨hnot, he⟩
      · obtain ⟨A, u, v, B, hrows, rfl⟩ := hpos
        have hplace : Place f c.relation.parent A (u ++ [c.relation.parent]) v B :=
          .live hroot hlive hrows
        simp only [he, Option.bind_some]
        cases hb : isLineBreak c.relation.value with
        | true =>
          exact ⟨_, _, insert_line_eq hplace.rows hb (Or.inr (by simp)), .line hc hb hlive hplace⟩
        | false =>
          exact ⟨_, _, insert_char_eq hf hplace.rows hb hc (by simp),
            .char hc hb hplace fun h => absurd h hroot⟩
      · simp only [he, Option.bind_some]
        exact ⟨_, _, rfl, .unplaced (t := root) hpm hc (Or.inl ⟨hlive, rfl⟩) hroot hnot⟩

/-- The outcomes of `remove_crdt` that are no panic. A late error keeps the mark. -/
inductive Removed (f : SharFile) (x : Identity) : Outcome → SharFile → Prop where
  | unknown : x ∉ f.characters → Removed f x (.error (.generic "crdt cannot be found")) f
  | again : Tomb f.characters x → Removed f x (.ok none) f
  | unplaced {rel} : f.characters.lookup x = some rel → rel.deleted = false →
      x ∉ f.projection.flatten →
      Removed f x (.error (.generic
        (if isLineBreak rel.value then "anchor not found" else "crdt not found")))
        (marked f x rel f.projection)
  | char {rel A u v B} : f.characters.lookup x = some rel → rel.deleted = false →
      isLineBreak rel.value = false → f.projection = A ++ (u ++ x :: v) :: B →
      Removed f x (.ok (some (A.length, u.length))) (marked f x rel (A ++ (u ++ v) :: B))
  -- the first element of the row goes, whatever it is
  | line {rel A r y w B} : f.characters.lookup x = some rel → rel.deleted = false →
      isLineBreak rel.value = true → f.projection = A ++ r :: (y :: w) :: B → x ∈ y :: w →
      Removed f x (.ok (some (A.length + 1, 0))) (marked f x rel (A ++ (r ++ w) :: B))

/-- A live line break in row 0. -/
def BreakInFirstRow (f : SharFile) (x : Identity) : Prop :=
  Live f.characters x ∧ Breaks f.characters x ∧ ∃ row ∈ f.projection.head?, x ∈ row

theorem remove_cases {f : SharFile} (hf : Sound f) {x : Identity} (hx : x ≠ root) (lineNum : ℕ) :
    (∃ o f', f.removeCrdt lineNum x = some (o, f') ∧ Removed f x o f' ∧ ¬ BreakInFirstRow f x) ∨
    (f.removeCrdt lineNum x = none ∧ BreakInFirstRow f x) := by
  cases hl : f.characters.lookup x with
  | none =>
    refine Or.inl ⟨_, _, by simp [SharFile.removeCrdt, hl],
      .unknown (Finmap.lookup_eq_none.mp hl), fun h => ?_⟩
    exact absurd h.1.mem (Finmap.lookup_eq_none.mp hl)
  | some rel =>
    cases hd : rel.deleted with
    | true =>
      exact Or.inl ⟨_, _, by simp [SharFile.removeCrdt, hl, hd], .again ⟨rel, hl, hd⟩,
        fun h => Tomb.not_live ⟨rel, hl, hd⟩ h.1⟩
    | false =>
      simp only [SharFile.removeCrdt, hl, hd, Bool.false_eq_true, if_false, Option.bind_eq_bind]
      rcases find_spec lineNum hf.nonempty hx with ⟨pos, hpos, he⟩ | ⟨hnot, he⟩
      swap
      · refine Or.inl ⟨_, _, ?_, .unplaced hl hd hnot, ?_⟩
        · cases hb : isLineBreak rel.value <;>
            simp only [he, Option.bind_some, if_true, if_false, Bool.false_eq_true] <;> rfl
        · rintro ⟨_, _, row, hrow, hin⟩
          exact hnot (List.mem_flatten.mpr ⟨row, List.mem_of_mem_head? hrow, hin⟩)
      obtain ⟨A, u, v, B, hrows, rfl⟩ := hpos
      have hline : f.projection[A.length]? = some (u ++ x :: v) := by rw [hrows]; simp
      cases hb : isLineBreak rel.value with
      | false =>
        refine Or.inl ⟨_, _, ?_, .char hl hd hb hrows, fun h => ?_⟩
        · simp only [he, hline, Bool.false_eq_true, if_false, Option.bind_some, removeAt_append]
          rw [hrows, set_middle]
          rfl
        · have hbreak := (breaks_iff hl).mp h.2.1
          rw [hb] at hbreak
          exact absurd hbreak (by simp)
      | true =>
        obtain ⟨y, w, hyw⟩ : ∃ y w, u ++ x :: v = y :: w := by cases u <;> simp
        have hremove : removeAt (u ++ x :: v) 0 = some w := by
          rw [hyw]
          exact removeAt_append [] w y
        simp only [he, hline, hremove, if_true, Option.bind_some]
        rcases List.eq_nil_or_concat A with rfl | ⟨A, r, rfl⟩
        · refine Or.inr ⟨by simp, ⟨rel, hl, hd⟩, (breaks_iff hl).mpr hb, u ++ x :: v, ?_, by simp⟩
          simp [hrows]
        · rw [List.concat_eq_append, List.append_assoc, List.singleton_append, hyw] at hrows
          have hin : x ∈ y :: w := by rw [← hyw]; simp
          refine Or.inl ⟨_, _, ?_, .line hl hd hb hrows hin, ?_⟩
          · have hlen : (A.concat r).length = A.length + 1 := by simp
            have hget : f.projection[A.length]? = some r := by rw [hrows]; simp
            simp only [hlen, Nat.add_sub_cancel, hget, Option.bind_some, Nat.add_one_ne_zero,
              if_false]
            rw [hrows, set_middle, removeAt_behind]
            rfl
          · rintro ⟨_, _, row, hrow, hrx⟩
            have hn := hf.nodup
            rw [hrows] at hn hrow
            cases A with
            | nil =>
              simp only [List.nil_append, List.head?_cons, Option.mem_some_iff] at hrow
              subst hrow
              rw [List.nil_append, List.flatten_cons] at hn
              apply List.disjoint_of_nodup_append hn hrx
              exact List.mem_flatten.mpr ⟨y :: w, by simp, hin⟩
            | cons s A =>
              simp only [List.cons_append, List.head?_cons, Option.mem_some_iff] at hrow
              subst hrow
              rw [List.cons_append, List.flatten_cons] at hn
              apply List.disjoint_of_nodup_append hn hrx
              exact List.mem_flatten.mpr ⟨y :: w, by simp, hin⟩

end FilePlacement
