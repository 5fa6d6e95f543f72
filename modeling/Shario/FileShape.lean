import Shario.FileSafety

/-! The shape of the projection: the root starts row 0, line breaks start the other
rows, and the rows hold exactly the live characters. -/
namespace FileShape

open CrdtTypes RowLayout FileTree FileSearch CharacterTree FilePlacement GuardedRuns FileSafety

structure Shape (f : SharFile) : Prop extends Sound f where
  headed : ∃ u B, f.projection = (root :: u) :: B
  layout : Layout (Breaks f.characters) f.projection
  live : ∀ x, Live f.characters x ↔ x ∈ f.projection.flatten

structure RowInvariant (f : SharFile) : Prop where
  first : ∃ u B, f.projection = (root :: u) :: B ∧ ∀ x ∈ u, x ≠ root ∧ ¬ Breaks f.characters x
  later : ∀ row ∈ f.projection.tail, ∃ b u, row = b :: u ∧ Live f.characters b ∧
    Breaks f.characters b ∧ ∀ x ∈ u, x ≠ root ∧ ¬ Breaks f.characters x
  live : ∀ x, Live f.characters x → f.projection.flatten.count x = 1
  tomb : ∀ x, Tomb f.characters x → x ∉ f.projection.flatten

section Rows

variable {f f' : SharFile} {c : CRDT} {x : Identity} {rel : CrdtRelation} {o : Outcome}
  {p A B : List (List Identity)} {pre post : List Identity}

theorem shape_rows (h : Shape f) : RowInvariant f := by
  obtain ⟨u, B, hrows⟩ := h.headed
  have hlay := h.layout
  have hn := h.nodup
  rw [hrows] at hlay hn
  simp only [List.flatten_cons, List.cons_append, List.nodup_cons, List.mem_append, not_or] at hn
  refine ⟨⟨u, B, hrows, fun x hx => ⟨?_, hlay.1 x (by simp [hx])⟩⟩, fun row hrow => ?_,
    fun x hx => ?_, fun x hx hin => hx.not_live ((h.live x).mpr hin)⟩
  · rintro rfl
    exact hn.1.1 hx
  · rw [hrows, List.tail_cons] at hrow
    obtain ⟨b, w, rfl, hb, hw⟩ := hlay.2 row hrow
    have hin : ∀ y ∈ b :: w, y ∈ B.flatten := fun y hy => List.mem_flatten.mpr ⟨_, hrow, hy⟩
    refine ⟨b, w, rfl, ?_, hb, fun x hx => ⟨?_, hw x hx⟩⟩
    · rw [h.live, hrows]
      simp [hin b (by simp)]
    · rintro rfl
      exact hn.1.2 (hin root (by simp [hx]))
  · exact List.count_eq_one_of_mem h.nodup ((h.live x).mp hx)

theorem live_landed (h : ∀ x, Live f.characters x ↔ x ∈ f.projection.flatten)
    (hd : c.relation.deleted = false)
    (hperm : p.flatten.Perm (c.identity :: f.projection.flatten)) :
    ∀ x, Live (landed f c p).characters x ↔ x ∈ (landed f c p).projection.flatten := by
  intro x
  change Live (f.characters.insert c.identity c.relation) x ↔ x ∈ p.flatten
  rw [hperm.mem_iff, List.mem_cons]
  by_cases hx : x = c.identity
  · subst hx
    simp [live_insert_self, hd]
  · rw [live_insert_ne hx, h]
    simp [hx]

theorem shape_landed (h : Shape f) (hc : c.identity ∉ f.characters)
    (hp : c.relation.parent ∈ f.characters) (hd : c.relation.deleted = false)
    (hperm : p.flatten.Perm (c.identity :: f.projection.flatten))
    (hhead : ∃ u B, p = (root :: u) :: B)
    (hlay : Layout (Breaks (f.characters.insert c.identity c.relation)) p) :
    Shape (landed f c p) where
  toSound := sound_landed h.toSound hc hp (by obtain ⟨u, B, rfl⟩ := hhead; simp) hperm
  headed := hhead
  layout := hlay
  live := live_landed h.live hd hperm

theorem layout_before (h : Shape f) (hc : c.identity ∉ f.characters) :
    Layout (Breaks (f.characters.insert c.identity c.relation)) f.projection := by
  refine layout_congr h.layout fun x hx => (breaks_insert_ne ?_).symm
  rintro rfl
  exact hc (h.known _ hx)

theorem headed_middle (h : Shape f) (hrows : f.projection = A ++ (pre ++ post) :: B)
    (hpre : pre ≠ []) : A = [] ∧ (∃ w, pre = root :: w) ∨ ∃ u C, A = (root :: u) :: C := by
  obtain ⟨u, C, he⟩ := h.headed
  rw [hrows] at he
  cases A with
  | nil =>
    cases pre with
    | nil => exact absurd rfl hpre
    | cons a pre =>
      simp only [List.nil_append, List.cons_append, List.cons.injEq] at he
      exact Or.inl ⟨rfl, pre, by rw [he.1.1]⟩
  | cons r A =>
    simp only [List.cons_append, List.cons.injEq] at he
    exact Or.inr ⟨u, A, by rw [he.1]⟩

theorem shape_char (h : Shape f) (hc : c.identity ∉ f.characters)
    (hp : c.relation.parent ∈ f.characters) (hd : c.relation.deleted = false)
    (hb : isLineBreak c.relation.value = false)
    (hrows : f.projection = A ++ (pre ++ post) :: B) (hpre : pre ≠ []) :
    Shape (landed f c (A ++ (pre ++ c.identity :: post) :: B)) := by
  refine shape_landed h hc hp hd ?_ ?_ (layout_insert (hrows ▸ layout_before h hc) ?_ hpre)
  · rw [hrows]
    exact insert_perm _ _ _ _ _
  · rcases headed_middle h hrows hpre with ⟨rfl, w, rfl⟩ | ⟨u, C, rfl⟩ <;> simp
  · rw [breaks_insert_self, hb]
    simp

theorem shape_line (h : Shape f) (hc : c.identity ∉ f.characters)
    (hp : c.relation.parent ∈ f.characters) (hd : c.relation.deleted = false)
    (hb : isLineBreak c.relation.value = true)
    (hrows : f.projection = A ++ (pre ++ post) :: B) (hpre : pre ≠ []) :
    Shape (landed f c (A ++ pre :: (c.identity :: post) :: B)) := by
  refine shape_landed h hc hp hd ?_ ?_
    (layout_split (hrows ▸ layout_before h hc) (breaks_insert_self.mpr hb) hpre)
  · rw [hrows]
    exact split_perm _ _ _ _ _
  · rcases headed_middle h hrows hpre with ⟨rfl, w, rfl⟩ | ⟨u, C, rfl⟩ <;> simp

theorem shape_lineAbove (h : Shape f) (hc : c.identity ∉ f.characters)
    (hp : c.relation.parent ∈ f.characters) (hd : c.relation.deleted = false)
    (hb : isLineBreak c.relation.value = true)
    (hrows : f.projection = A ++ (pre ++ post) :: B) (hpre : pre ≠ []) (hA : A ≠ []) :
    Shape (landed f c (A ++ (c.identity :: post) :: pre :: B)) := by
  refine shape_landed h hc hp hd ?_ ?_
    (layout_above (hrows ▸ layout_before h hc) (breaks_insert_self.mpr hb) hpre hA)
  · rw [hrows]
    exact above_perm _ _ _ _ _
  · rcases headed_middle h hrows hpre with ⟨rfl, _⟩ | ⟨u, C, rfl⟩
    · exact absurd rfl hA
    · simp

/-- The slot of a tombstone lies behind its anchor, unless the scan from the root
stops at the root itself. -/
theorem slot_anchor (h : Shape f) (hs : Slot f x A pre post B) :
    ∃ t a, Anchor f.characters x t a ∧ (a ≠ root ∨ t.1 = 0 → a ∈ pre) := by
  induction hs with
  | @root x line B hx hrows =>
    refine ⟨x, root, .live hx h.rooted.root_live, fun hid => ?_⟩
    obtain ⟨u, C, he⟩ := h.headed
    have hline : line = root :: u := by
      rw [hrows] at he
      exact (List.cons.inj he).1
    have hne := (parentOf_eq_some.mp hx).1
    have hskip : skips f.characters root x root = true := by
      have hx0 : x.1 = 0 := hid.resolve_left (not_not.mpr rfl)
      have hx2 : x.2 ≠ 0 := fun h2 => hne (Prod.ext hx0 h2)
      have hsib : sibling root x := Or.inr ⟨hx0, Nat.pos_of_ne_zero hx2⟩
      simp only [skips, h.rooted.root_entry, hsib, decide_true, Bool.and_true]
      rfl
    rw [hline, List.takeWhile_cons_of_pos hskip]
    simp
  | live hx _ hlive _ => exact ⟨_, _, .live hx hlive, fun _ => by simp⟩
  | tomb hx ht _ ih =>
    obtain ⟨t, a, ha, hin⟩ := ih
    exact ⟨t, a, .tomb hx ht ha, fun hid => List.mem_append_left _ (hin hid)⟩

end Rows

/-- The adds under a tombstone that keep the shape: the climb does not end at the root,
which the scan would pass only for a child with id 0, and a line break is not put into row 0. -/
def ShapeSafe (f : SharFile) (call : Call) : Prop :=
  ∀ c, call.2 = .add c → c.identity ∉ f.characters → Tomb f.characters c.relation.parent →
    ∀ t a, Anchor f.characters c.relation.parent t a → (a = root → t.1 = 0) ∧
      (isLineBreak c.relation.value = true → ∀ row ∈ f.projection.head?, a ∉ row)

theorem place_headed {f : SharFile} (h : Shape f) {y : Identity} {A B : List (List Identity)}
    {pre post : List Identity} (hl : Live f.characters y) (hplace : Place f y A pre post B) :
    pre ≠ [] := by
  cases hplace with
  | root hrows =>
    obtain ⟨u, C, he⟩ := h.headed
    rw [hrows, List.cons.injEq] at he
    rw [he.1]
    simp
  | live _ _ _ => simp
  | tomb ht _ => exact absurd hl ht.not_live

theorem shape_added {f f' : SharFile} {c : CRDT} {o : Outcome} (lineNum : ℕ) (h : Shape f)
    (hd : c.relation.deleted = false) (hsafe : ShapeSafe f (lineNum, .add c))
    (ha : Added f c o f') : Shape f' := by
  have hslot : ∀ {A B pre post}, c.identity ∉ f.characters →
      Slot f c.relation.parent A pre post B → Tomb f.characters c.relation.parent → pre ≠ [] := by
    intro A B pre post hc hs ht
    obtain ⟨t, a, hanchor, hin⟩ := slot_anchor h hs
    have hgood := (hsafe c rfl hc ht t a hanchor).1
    by_cases hroot : a = root
    · exact List.ne_nil_of_mem (hin (Or.inr (hgood hroot)))
    · exact List.ne_nil_of_mem (hin (Or.inl hroot))
  cases ha with
  | orphan _ => exact h
  | duplicate _ _ => exact h
  | unplaced _ _ _ _ _ => exact h
  | char hc hb hplace _ =>
    apply shape_char h hc (Place.parent_mem h.toSound hplace) hd hb (hplace.scan _)
    intro he
    have hpre := (List.append_eq_nil_iff.mp he).1
    rcases live_or_tomb (Place.parent_mem h.toSound hplace) with hl | ht
    · exact place_headed h hl hplace hpre
    · exact hslot hc (hplace.slot h.rooted ht) ht hpre
  | dropped _ _ _ hrows =>
    obtain ⟨u, B, he⟩ := h.headed
    rw [hrows] at he
    exact absurd he (by simp)
  | line hc hb hl hplace =>
    exact shape_line h hc hl.mem hd hb hplace.rows (place_headed h hl hplace)
  | lineAbove hc hb ht hs =>
    apply shape_lineAbove h hc ht.mem hd hb hs.rows (hslot hc hs ht)
    rintro rfl
    obtain ⟨t, a, hanchor, hin⟩ := slot_anchor h hs
    obtain ⟨hgood, hrow⟩ := hsafe c rfl hc ht t a hanchor
    have hpre : a ∈ _ := hin (by
      by_cases hroot : a = root
      · exact Or.inr (hgood hroot)
      · exact Or.inl hroot)
    exact hrow hb _ (by rw [hs.rows]; rfl) (List.mem_append_left _ hpre)

theorem live_marked {f : SharFile} {x : Identity} {rel : CrdtRelation} {p : Projection}
    (h : ∀ y, Live f.characters y ↔ y ∈ f.projection.flatten) (hn : f.projection.flatten.Nodup)
    (hperm : f.projection.flatten.Perm (x :: p.flatten)) :
    ∀ y, Live (marked f x rel p).characters y ↔ y ∈ (marked f x rel p).projection.flatten := by
  have hx : x ∉ p.flatten := (List.nodup_cons.mp (hperm.nodup_iff.mp hn)).1
  intro y
  change Live (mark f.characters x rel) y ↔ y ∈ p.flatten
  rw [live_mark, h, hperm.mem_iff, List.mem_cons]
  constructor
  · rintro ⟨hy | hy, hne⟩
    · exact absurd hy hne
    · exact hy
  · refine fun hy => ⟨Or.inr hy, ?_⟩
    rintro rfl
    exact hx hy

theorem shape_marked {f : SharFile} {x : Identity} {rel : CrdtRelation} {p : Projection}
    (h : Shape f) (hx : x ≠ root) (hl : f.characters.lookup x = some rel)
    (hhead : ∃ u B, p = (root :: u) :: B) (hlay : Layout (Breaks f.characters) p)
    (hperm : f.projection.flatten.Perm (x :: p.flatten)) : Shape (marked f x rel p) := by
  have hn := hperm.nodup_iff.mp h.nodup
  refine ⟨⟨?_, ?_, (List.nodup_cons.mp hn).2, h.rooted.mark hl hx⟩, hhead,
    layout_congr hlay fun y _ => (breaks_mark hl).symm, live_marked h.live h.nodup hperm⟩
  · obtain ⟨u, B, rfl⟩ := hhead
    simp [marked]
  · intro y hy
    exact (mem_mark hl).mpr (h.known y (hperm.mem_iff.mpr (List.mem_cons_of_mem _ hy)))

theorem shape_removed {f f' : SharFile} {x : Identity} {o : Outcome} (h : Shape f) (hx : x ≠ root)
    (hr : Removed f x o f') : Shape f' := by
  obtain ⟨w₀, B₀, hhead⟩ := h.headed
  cases hr with
  | unknown _ => exact h
  | again _ => exact h
  | unplaced hl hd hnot => exact absurd ((h.live x).mp ⟨_, hl, hd⟩) hnot
  | @char rel A u v B hl hd hb hrows =>
    have hlay := h.layout
    rw [hrows] at hlay hhead
    refine shape_marked h hx hl ?_ (layout_erase hlay (by rw [breaks_iff hl, hb]; simp)) ?_
    · cases A with
      | nil =>
        cases u with
        | nil => simp [hx] at hhead
        | cons a u =>
          simp only [List.nil_append, List.cons_append, List.cons.injEq] at hhead
          simp [hhead.1.1]
      | cons r A => simp_all
    · rw [hrows]
      exact insert_perm _ _ _ _ _
  | @line rel A r y w B hl hd hb hrows hin =>
    have hlay := h.layout
    rw [hrows] at hlay hhead
    obtain ⟨u, v, huv⟩ := List.append_of_mem hin
    have hstart : u = [] ∧ A ++ [r] ≠ [] := by
      refine break_starts_row (B := B) (v := v) (x := x) ?_ ((breaks_iff hl).mpr hb)
      rw [← huv, List.append_assoc]
      exact hlay
    rw [hstart.1, List.nil_append, List.cons.injEq] at huv
    rw [huv.1] at hlay hrows
    refine shape_marked h hx hl ?_ (layout_merge hlay) ?_
    · cases A with
      | nil =>
        simp only [List.nil_append, List.cons.injEq] at hhead
        simp [hhead.1]
      | cons s A => simp_all
    · rw [hrows]
      exact split_perm _ _ _ _ _

theorem shape_step {f f' : SharFile} {call : Call} (h : Shape f) (hi : Issued f call)
    (hsafe : ShapeSafe f call) (hs : Step f call f') : Shape f' := by
  obtain ⟨lineNum, op⟩ := call
  obtain ⟨o, he⟩ := hs
  cases op with
  | add c =>
    obtain ⟨o', g, he', hg⟩ := add_cases h.toSound c lineNum
    rw [FileOp.apply, he', Option.some.injEq, Prod.mk.injEq] at he
    exact he.2 ▸ shape_added lineNum h hi hsafe hg
  | remove x =>
    rcases remove_cases h.toSound hi lineNum with ⟨o', g, he', hg, _⟩ | ⟨he', _⟩
    · rw [FileOp.apply, he', Option.some.injEq, Prod.mk.injEq] at he
      exact he.2 ▸ shape_removed h hi hg
    · rw [FileOp.apply, he'] at he
      exact absurd he (by simp)

theorem emptyFile_shape (filePath : PathBuf) : Shape (emptyFile filePath) := by
  have hs := emptyFile_sound filePath
  refine ⟨hs, ⟨[], [], rfl⟩, ?_, fun x => ⟨fun hx => ?_, fun hx => ?_⟩⟩
  · refine ⟨fun x hx => ?_, by simp⟩
    rw [List.mem_singleton.mp hx]
    exact hs.rooted.root_not_breaks
  · rcases Finmap.mem_insert.mp hx.mem with rfl | hx
    · simp [emptyFile]
    · exact absurd hx Finmap.notMem_empty
  · have hroot : x = root := by simpa [emptyFile] using hx
    exact hroot ▸ hs.rooted.root_live

theorem emptyFile_tombless (filePath : PathBuf) (x : Identity) :
    ¬ Tomb (emptyFile filePath).characters x := by
  intro ht
  rcases Finmap.mem_insert.mp ht.mem with rfl | hx
  · exact ht.not_live (emptyFile_sound filePath).rooted.root_live
  · exact absurd hx Finmap.notMem_empty

theorem tombless_added {f f' : SharFile} {c : CRDT} {o : Outcome}
    (h : ∀ x, ¬ Tomb f.characters x) (hd : c.relation.deleted = false) (ha : Added f c o f') :
    ∀ x, ¬ Tomb f'.characters x := by
  intro x
  rcases added_characters ha with he | ⟨_, he⟩
  · rw [he]
    exact h x
  · rw [he]
    by_cases hx : x = c.identity
    · subst hx
      rw [tomb_iff (Finmap.lookup_insert _), hd]
      simp
    · exact fun ht => h x ((tomb_insert_ne hx).mp ht)

theorem loaded_shape {f : SharFile} (h : Loaded f) : Shape f ∧ ∀ x, ¬ Tomb f.characters x := by
  obtain ⟨filePath, contents, counter, n, he⟩ := h
  refine new_invariant (fun f _ => Shape f ∧ ∀ x, ¬ Tomb f.characters x) (fun _ _ h => h.1.toSound)
    ?_ ⟨emptyFile_shape filePath, emptyFile_tombless filePath⟩ he
  rintro f n ch prevId o g ⟨hf, ht⟩ ha
  exact ⟨shape_added 0 hf rfl (fun c hc _ htomb => absurd htomb (ht _)) ha, tombless_added ht rfl ha⟩

theorem run_shape {f₀ f : SharFile} {calls : List Call} (hl : Loaded f₀)
    (hrun : Run Step (fun f call => Issued f call ∧ ShapeSafe f call) f₀ calls f) : Shape f :=
  hrun.invariant (fun _ _ _ h hg hs => shape_step h hg.1 hg.2 hs) (loaded_shape hl).1

theorem none_is_duplicate {f f' : SharFile} (h : Shape f) {lineNum : ℕ} {c : CRDT}
    (he : f.addCrdt lineNum c = some (.ok none, f')) : c.identity ∈ f.characters ∧ f' = f := by
  obtain ⟨o, g, he', hg⟩ := add_cases h.toSound c lineNum
  rw [he', Option.some.injEq, Prod.mk.injEq] at he
  obtain ⟨rfl, rfl⟩ := he
  cases hg with
  | duplicate _ hc => exact ⟨hc, rfl⟩
  | dropped _ _ _ hrows =>
    obtain ⟨u, B, he⟩ := h.headed
    rw [hrows] at he
    exact absurd he (by simp)

theorem run_row_invariant {f₀ f : SharFile} {calls : List Call} (hl : Loaded f₀)
    (hrun : Run Step (fun f call => Issued f call ∧ ShapeSafe f call) f₀ calls f) :
    RowInvariant f ∧ ∀ lineNum c f', f.addCrdt lineNum c = some (.ok none, f') →
      c.identity ∈ f.characters ∧ f' = f :=
  ⟨shape_rows (run_shape hl hrun), fun _ _ _ => none_is_duplicate (run_shape hl hrun)⟩

/-- The file `ab` without its last character, and a new child of that character. -/
theorem run_row_invariant_under_tombstone :
    ∃ f, f.projection = [[(0, 0), (1, 0), (3, 1)]] ∧ RowInvariant f := by
  refine ⟨_, rfl, (run_row_invariant ⟨[], ['a', 'b'], 0, 2, rfl⟩
    (.cons (a := (0, .remove (2, 0))) ⟨?_, ?_⟩ ⟨_, rfl⟩
      (.cons (a := (5, .add ⟨3, 1, .new 'c' 2 0⟩)) ⟨?_, ?_⟩ ⟨_, rfl⟩ (.nil _)))).1⟩
  · exact fun h => absurd h (by decide)
  · exact fun c h => absurd h (by simp)
  · exact (rfl : (CrdtRelation.new 'c' 2 0).deleted = false)
  · intro c hc _ _ t a ha
    cases hc
    cases ha with
    | live hp _ =>
      have ha : some ((1, 0) : Identity) = some a := hp
      cases ha
      exact ⟨fun h => absurd h (by decide), fun h => absurd h (by decide)⟩
    | @tomb _ y _ _ hp ht _ =>
      have hy : some ((1, 0) : Identity) = some y := hp
      cases hy
      exact absurd ⟨_, rfl, rfl⟩ ht.not_live

/-- The file `a`, emptied, and a child of its deleted character: it lands before the root. -/
theorem child_before_root : ¬ ∀ f, Reachable f → RowInvariant f := by
  intro h
  obtain ⟨u, B, hrows, _⟩ := (h _ ⟨_, [(0, .remove (1, 0)), (0, .add ⟨2, 1, .new 'b' 1 0⟩)],
    ⟨[], ['a'], 0, 1, rfl⟩, .cons (fun h => absurd h (by decide)) ⟨_, rfl⟩
      (.cons rfl ⟨_, rfl⟩ (.nil _))⟩).first
  have hfirst : [[((2, 1) : Identity), (0, 0)]] = (root :: u) :: B := hrows
  exact absurd hfirst (by simp [root])

end FileShape
