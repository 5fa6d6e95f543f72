import Shario.SinglePlace

/-! A new child before and after the removal of its parent: when `find_tombstone` leads
back to the place that the parent had. -/
namespace TombstonePath

open CrdtTypes RowLayout FileTree FileSearch TreeOrder CharacterTree FilePlacement GuardedRuns
  FileSafety HintFreedom SinglePlace

def addThenRemove (f : SharFile) (hint hint' : ℕ) (c : CRDT) (P : Identity) : Option Projection := do
  let (_, f) ← f.addCrdt hint c
  let (_, f) ← f.removeCrdt hint' P
  some f.projection

def removeThenAdd (f : SharFile) (hint hint' : ℕ) (c : CRDT) (P : Identity) : Option Projection := do
  let (_, f) ← f.removeCrdt hint P
  let (_, f) ← f.addCrdt hint' c
  some f.projection

/-- The two orders, with any hints. -/
def Agree (f : SharFile) (c : CRDT) (P : Identity) (hint : Fin 4 → ℕ) : Prop :=
  ∃ p, addThenRemove f (hint 0) (hint 1) c P = some p ∧
    removeThenAdd f (hint 2) (hint 3) c P = some p

/-- What stands to the left of `P` and to its right: `l` and `r`, in the row below `A`. For a line
break that is the end of the row above and the rest of its own, since the two become one. -/
inductive Gap (f : SharFile) (P : Identity) : List (List Identity) → List Identity →
    List Identity → List (List Identity) → Prop where
  | char {A u v B} : ¬ Breaks f.characters P → f.projection = A ++ (u ++ P :: v) :: B →
      Gap f P A u v B
  | line {A r u v B} : Breaks f.characters P → f.projection = A ++ r :: (u ++ P :: v) :: B →
      Gap f P A (r ++ (u ++ [P]).tail) v B

/-- `a` is the nearest live ancestor of `x`, and `w` are siblings that outrank their own: those
of the child of `a` on the way to `x` first, those of `x` last. -/
inductive Beside (m : Characters) (a : Identity) : Identity → List Identity → Prop where
  | live {x w} : parentOf m x = some a → Live m a → (∀ z ∈ w, skips m a x z = true) → Beside m a x w
  | tomb {x y v w} : parentOf m x = some y → Tomb m y → Beside m a y v →
      (∀ z ∈ w, skips m y x z = true) → Beside m a x (v ++ w)

/-- `u` ends with `a`; the front of the file stands for the root. -/
inductive UpTo (a : Identity) : List (List Identity) → List Identity → Prop where
  | root : a = root → UpTo a [] []
  | behind {A u} : a ≠ root → UpTo a A (u ++ [a])

/-- Between `P` and its nearest live ancestor there are only the siblings of the deleted ones that
outrank them, and then children of `P` that outrank `x`. -/
def Adjoins (f : SharFile) (P x : Identity) : Prop :=
  ∃ A l r B a u w s, Gap f P A l r B ∧ l = u ++ w ++ s ∧ UpTo a A u ∧ Beside f.characters a P w ∧
    (∀ y ∈ s, skips f.characters P x y = true) ∧
    ∀ z ∈ (s ++ r).head?, ¬ Beside f.characters a P (w ++ [z])

/-- `P` ends its row, and its nearest live ancestor, with such siblings, the row below. -/
def EndsAbove (f : SharFile) (P : Identity) : Prop :=
  ∃ A l B a u w, Gap f P A l [] ((u ++ a :: w) :: B) ∧ a ≠ root ∧ Beside f.characters a P w

def BackInPlace (f : SharFile) (P : Identity) (c : CRDT) : Prop :=
  if isLineBreak c.relation.value then EndsAbove f P else Adjoins f P c.identity

/-- Neither `P` nor its nearest live ancestor stands in a row. -/
def Nowhere (f : SharFile) (P : Identity) : Prop :=
  P ∉ f.projection.flatten ∧
    ∃ t a, Anchor f.characters P t a ∧ a ≠ root ∧ a ∉ f.projection.flatten

def without (f : SharFile) (p : Projection) : SharFile := { f with projection := p }

section Rows

variable {f f' : SharFile} {P x y : Identity} {rel : CrdtRelation} {c : CRDT}
  {A B A' B' : List (List Identity)} {l r u v pre post : List Identity}

theorem skips_mark (hl : f.characters.lookup P = some rel) (y x : Identity) :
    skips (mark f.characters P rel) y x = skips f.characters y x := by
  funext e
  by_cases he : e = P
  · subst he
    simp [skips, mark, hl, CrdtRelation.parent]
  · simp [skips, mark, Finmap.lookup_insert_of_ne _ he]

theorem slot_congr {g h : SharFile} {U : Identity → Prop} (hrows : h.projection = g.projection)
    (hpar : parentOf h.characters = parentOf g.characters)
    (hskip : ∀ y x, skips h.characters y x = skips g.characters y x)
    (hup : ∀ x y, U x → parentOf g.characters x = some y → U y ∧
      (Live g.characters y → Live h.characters y) ∧ (Tomb g.characters y → Tomb h.characters y))
    (hx : U x) (hs : Slot g x A pre post B) : Slot h x A pre post B := by
  induction hs with
  | @root x line B hxy hline =>
    have hslot : Slot h x [] _ _ B := .root (hpar ▸ hxy) (hrows.trans hline)
    rw [hskip] at hslot
    exact hslot
  | @live x a A u v B hxy hne hl hline =>
    have hslot : Slot h x A (u ++ a :: _) _ B :=
      .live (hpar ▸ hxy) hne ((hup x a hx hxy).2.1 hl) (hrows.trans hline)
    rw [hskip] at hslot
    exact hslot
  | @tomb x y A pre post B hxy ht _ ih =>
    obtain ⟨hy, _, hty⟩ := hup x y hx hxy
    have hslot := Slot.tomb (hpar ▸ hxy) (hty ht) (ih hy)
    rw [hskip] at hslot
    exact hslot

theorem slot_marked (hm : Rooted f.characters) (hl : f.characters.lookup P = some rel)
    {p : Projection} : Slot (marked f P rel p) P A pre post B ↔ Slot (without f p) P A pre post B := by
  obtain ⟨q, hq⟩ := hm.climbs P (Finmap.mem_iff.mpr ⟨rel, hl⟩)
  have hpar : parentOf (mark f.characters P rel) = parentOf f.characters := parentOf_mark hl
  -- `P` is not its own ancestor
  have hup : ∀ x y, (∃ s, PathTo (parentOf f.characters) root x s ∧ s <+: q) →
      parentOf f.characters x = some y →
      (∃ s, PathTo (parentOf f.characters) root y s ∧ s <+: q) ∧ y ≠ P := by
    rintro x y ⟨s, hx, hs⟩ hxy
    cases hx with
    | root => exact absurd hxy (by simp)
    | @step _ z t hxz hz =>
      rw [hxy, Option.some.injEq] at hxz
      subst hxz
      refine ⟨⟨t, hz, (List.prefix_append t [x]).trans hs⟩, ?_⟩
      rintro rfl
      have hlen := hs.length_le
      rw [path_unique (parentOf_root _) hz hq, List.length_append, List.length_singleton] at hlen
      omega
  have hP : ∃ s, PathTo (parentOf f.characters) root P s ∧ s <+: q := ⟨q, hq, List.prefix_refl q⟩
  constructor
  · refine slot_congr (g := marked f P rel p) (h := without f p)
      (U := fun x => ∃ s, PathTo (parentOf f.characters) root x s ∧ s <+: q)
      rfl hpar.symm (fun y x => (skips_mark hl y x).symm) (fun x y hx hxy => ?_) hP
    obtain ⟨hy, hne⟩ := hup x y hx (hpar ▸ hxy)
    exact ⟨hy, fun h => (live_mark.mp h).1, fun h => (tomb_insert_ne hne).mp h⟩
  · refine slot_congr (g := without f p) (h := marked f P rel p)
      (U := fun x => ∃ s, PathTo (parentOf f.characters) root x s ∧ s <+: q)
      rfl hpar (skips_mark hl) (fun x y hx hxy => ?_) hP
    obtain ⟨hy, hne⟩ := hup x y hx hxy
    exact ⟨hy, fun h => live_mark.mpr ⟨h, hne⟩, fun h => (tomb_insert_ne hne).mpr h⟩

theorem gap_exists (hin : P ∈ f.projection.flatten) (hP : Live f.characters P) :
    (∃ A l r B, Gap f P A l r B) ∨ BreakInFirstRow f P := by
  obtain ⟨A, u, v, B, hrows⟩ := RowLayout.locate hin
  by_cases hb : Breaks f.characters P
  · rcases List.eq_nil_or_concat A with rfl | ⟨A, r, rfl⟩
    · refine Or.inr ⟨hP, hb, u ++ P :: v, by rw [hrows]; rfl, by simp⟩
    · rw [List.concat_eq_append, List.append_assoc, List.singleton_append] at hrows
      exact Or.inl ⟨_, _, _, _, .line hb hrows⟩
  · exact Or.inl ⟨_, _, _, _, .char hb hrows⟩

theorem Gap.mem (h : Gap f P A l r B) : P ∈ f.projection.flatten := by
  cases h with
  | char _ hrows => rw [hrows]; simp
  | line _ hrows => rw [hrows]; simp

theorem Gap.not_first (hf : Sound f) (h : Gap f P A l r B) : ¬ BreakInFirstRow f P := by
  rintro ⟨_, hb, row, hrow, hin⟩
  cases h with
  | char hnb _ => exact hnb hb
  | @line r u v B _ hrows =>
    have hn := hf.nodup
    rw [hrows] at hn hrow
    have hdis : ∀ {s : List Identity} {C : List (List Identity)}, (s :: C).flatten.Nodup →
        P ∈ s → P ∉ C.flatten := fun h hs => List.disjoint_of_nodup_append h hs
    cases A with
    | nil =>
      rw [List.nil_append, List.head?_cons, Option.mem_some_iff] at hrow
      subst hrow
      exact hdis hn hin (by simp)
    | cons s A =>
      rw [List.cons_append, List.head?_cons, Option.mem_some_iff] at hrow
      subst hrow
      exact hdis hn hin (by simp)

theorem tail_split (u v : List Identity) (P : Identity) {y : Identity} {w : List Identity}
    (h : u ++ P :: v = y :: w) : w = (u ++ [P]).tail ++ v := by
  cases u with
  | nil => simp_all
  | cons a u => simp_all

theorem removed_gap (hf : Sound f) (hP : Live f.characters P) (hne : P ≠ root)
    (h : Gap f P A l r B) (hint : ℕ) :
    ∃ rel pos, f.characters.lookup P = some rel ∧
      f.removeCrdt hint P = some (.ok (some pos), marked f P rel (A ++ (l ++ r) :: B)) := by
  rcases remove_cases hf hne hint with ⟨o, g, he, hr, _⟩ | ⟨_, hfirst⟩
  swap
  · exact absurd hfirst (h.not_first hf)
  have hn := hf.nodup
  cases hr with
  | unknown hm => exact absurd hP.mem hm
  | again ht => exact absurd hP ht.not_live
  | unplaced _ _ hnot => exact absurd h.mem hnot
  | @char rel A' u' v' B' hl _ hb hrows' =>
    cases h with
    | char _ hrows =>
      rw [hrows] at hn hrows'
      obtain ⟨rfl, rfl, rfl, rfl⟩ := place_unique hn hrows'
      exact ⟨rel, _, hl, he⟩
    | line hb' _ =>
      rw [breaks_iff hl, hb] at hb'
      exact absurd hb' (by simp)
  | @line rel A' r' y w B' hl _ hb hrows' hin =>
    cases h with
    | char hb' _ => exact absurd ((breaks_iff hl).mpr hb) hb'
    | @line s u _ _ _ hrows =>
      obtain ⟨u', v', huv⟩ := List.append_of_mem hin
      have hsplit : f.projection = (A ++ [s]) ++ (u ++ P :: r) :: B := by
        rw [hrows, List.append_assoc, List.singleton_append]
      have hsplit' : f.projection = (A' ++ [r']) ++ (u' ++ P :: v') :: B' := by
        rw [hrows', huv, List.append_assoc, List.singleton_append]
      rw [hsplit] at hn hsplit'
      obtain ⟨hA, rfl, rfl, rfl⟩ := place_unique hn hsplit'
      obtain ⟨rfl, hs⟩ := List.append_inj' hA rfl
      obtain rfl : s = r' := by simpa using hs
      obtain rfl := tail_split u r P huv.symm
      rw [← List.append_assoc s] at he
      exact ⟨rel, _, hl, he⟩

theorem gap_place (hP : Live f.characters P) (hne : P ≠ root) (h : Gap f P A l r B) :
    ∃ C u, Place f P C (u ++ [P]) r B ∧
      (∀ g : SharFile, ∀ s D, (Breaks g.characters P ↔ Breaks f.characters P) →
        g.projection = C ++ (u ++ P :: s) :: D → Gap g P A l s D) := by
  cases h with
  | @char u _ _ hb hrows =>
    refine ⟨A, l, .live hne hP hrows, fun g s D hg hp => .char (fun h => hb (hg.mp h)) hp⟩
  | @line s u _ _ hb hrows =>
    refine ⟨A ++ [s], u, .live hne hP (by simp [hrows]), fun g t D hg hp => ?_⟩
    exact .line (hg.mpr hb) (by simp [hp])

theorem sound_add {o : Outcome} (hf : Sound f) {hint : ℕ} (h : f.addCrdt hint c = some (o, f')) :
    Sound f' := by
  obtain ⟨o', g, he, hg⟩ := add_total hf c hint
  rw [h, Option.some.injEq, Prod.mk.injEq] at he
  exact he.2 ▸ hg

theorem live_first (hf : Sound f) (hP : Live f.characters P) (hne : P ≠ root)
    (hc : c.relation.parent = P) (hx : c.identity ∉ f.characters) (h : Gap f P A l r B)
    (hint hint' : ℕ) : addThenRemove f hint hint' c P = some
      (if isLineBreak c.relation.value then A ++ l :: (c.identity :: r) :: B
      else A ++ (l ++ (r.takeWhile (skips f.characters P c.identity) ++
        c.identity :: r.dropWhile (skips f.characters P c.identity))) :: B) := by
  obtain ⟨C, u, hplace, hgap⟩ := gap_place hP hne h
  have hPc : P ≠ c.identity := fun he => hx (he ▸ hP.mem)
  have hthen : ∀ o p s D, f.addCrdt hint c = some (o, landed f c p) →
      p = C ++ (u ++ P :: s) :: D →
      addThenRemove f hint hint' c P = some (A ++ (l ++ s) :: D) := by
    intro o p s D hadd hp
    have hgap' := hgap (landed f c p) s D (breaks_insert_ne hPc) hp
    obtain ⟨rel, pos, _, hrem⟩ := removed_gap (sound_add hf hadd) ((live_insert_ne hPc).mpr hP) hne
      hgap' hint'
    simp only [addThenRemove, hadd, hrem, Option.bind_eq_bind, Option.bind_some, marked]
  have hplace : Place f c.relation.parent C (u ++ [P]) r B := by
    rw [hc]
    exact hplace
  cases hb : isLineBreak c.relation.value with
  | true =>
    have hadd := add_line_at hf hplace (hc ▸ hP) hx hb hint
    rw [hthen _ _ [] ((c.identity :: r) :: B) hadd rfl, List.append_nil, if_pos rfl]
  | false =>
    have hadd := add_char_at hf hplace (fun hr => absurd (hc.symm.trans hr) hne) hx hb hint
    rw [hc] at hadd
    have hrow : u ++ [P] ++ r.takeWhile (skips f.characters P c.identity) ++
        c.identity :: r.dropWhile (skips f.characters P c.identity) =
        u ++ P :: (r.takeWhile (skips f.characters P c.identity) ++
          c.identity :: r.dropWhile (skips f.characters P c.identity)) := by simp
    rw [hthen _ _ _ B hadd (by rw [hrow]), if_neg (by simp)]

theorem slot_or_none (hf : Sound f) (hx : x ∈ f.characters) (hne : x ≠ root) :
    (∃ A pre post B, Slot f x A pre post B) ∨
    ∃ t a, Anchor f.characters x t a ∧ a ≠ root ∧ a ∉ f.projection.flatten := by
  obtain ⟨p, hp⟩ := hf.rooted.climbs x hx
  rcases find_tombstone_spec hf 0 hp hne _ le_rfl with ⟨A, pre, post, B, hs, _⟩ |
    ⟨t, a, _, ha, har, hnot, _⟩
  · exact Or.inl ⟨A, pre, post, B, hs⟩
  · exact Or.inr ⟨t, a, ha, har, hnot⟩

theorem sound_without {p : Projection} (hf : Sound f) (hl : f.characters.lookup P = some rel)
    (hg : Sound (marked f P rel p)) : Sound (without f p) :=
  ⟨hg.nonempty, fun y hy => (mem_mark hl).mp (hg.known y hy), hg.nodup, hf.rooted⟩

theorem removed_first {p : Projection} (hf : Sound f) (hP : Live f.characters P) (hne : P ≠ root)
    (hl : f.characters.lookup P = some rel) (hc : c.relation.parent = P)
    (hx : c.identity ∉ f.characters) {hint : ℕ} (hint' : ℕ) {o : Outcome}
    (hg : Sound (marked f P rel p))
    (hrem : f.removeCrdt hint P = some (o, marked f P rel p)) :
    (∃ A pre post B, Slot (without f p) P A pre post B ∧ removeThenAdd f hint hint' c P = some
      (if isLineBreak c.relation.value then A ++ (c.identity :: post) :: pre :: B
      else A ++ (pre ++ (post.takeWhile (skips f.characters P c.identity) ++
        c.identity :: post.dropWhile (skips f.characters P c.identity))) :: B)) ∨
    (∃ t a, Anchor f.characters P t a ∧ a ≠ root ∧ a ∉ p.flatten) ∧
      removeThenAdd f hint hint' c P = some p := by
  have ht : Tomb (marked f P rel p).characters P := ⟨_, Finmap.lookup_insert _, rfl⟩
  have hx' : c.identity ∉ (marked f P rel p).characters := fun hin => hx ((mem_mark hl).mp hin)
  have hskip := skips_mark hl P c.identity
  have hthen : ∀ o g, (marked f P rel p).addCrdt hint' c = some (o, g) →
      removeThenAdd f hint hint' c P = some g.projection := by
    intro o g hadd
    simp only [removeThenAdd, hrem, hadd, Option.bind_eq_bind, Option.bind_some]
  rcases place_or_none hg ht.mem with ⟨A, pre, post, B, hplace⟩ | ⟨t, a, ha, har, hnot⟩
  · have hs := hplace.slot hg.rooted ht
    refine Or.inl ⟨A, pre, post, B, (slot_marked hf.rooted hl).mp hs, ?_⟩
    subst hc
    cases hb : isLineBreak c.relation.value with
    | true => rw [hthen _ _ (add_above_at hg hs ht hx' hb hint'), if_pos rfl]; rfl
    | false =>
      rw [hthen _ _ (add_char_at hg hplace (fun hr => absurd hr hne) hx' hb hint'),
        if_neg (by simp), ← hskip, ← List.append_assoc]
      rfl
  · refine Or.inr ⟨?_, ?_⟩
    · refine (slot_or_none (sound_without hf hl hg) hP.mem hne).resolve_left ?_
      rintro ⟨A, pre, post, B, hs⟩
      have hs' := (slot_marked hf.rooted hl).mpr hs
      exact hnot (place_not_unplaced hg (.tomb ht hs') ha har)
    · subst hc
      rw [hthen _ _ (add_nowhere hg hx' ha har hnot hint')]
      rfl

theorem same_char {k : Identity → Bool} (hrows : A ++ (l ++ r) :: B = A' ++ (pre ++ post) :: B')
    (hn : (A ++ (l ++ r) :: B).flatten.Nodup) (hx : x ∉ (A ++ (l ++ r) :: B).flatten) :
    A ++ (l ++ (r.takeWhile k ++ x :: r.dropWhile k)) :: B =
        A' ++ (pre ++ (post.takeWhile k ++ x :: post.dropWhile k)) :: B' ↔
      A' = A ∧ ∃ s, (pre = l ++ s ∨ l = pre ++ s) ∧ ∀ y ∈ s, k y = true := by
  rw [← List.append_assoc, ← List.append_assoc pre]
  constructor
  · intro he
    have hn' : (A ++ (l ++ r.takeWhile k ++ x :: r.dropWhile k) :: B).flatten.Nodup := by
      refine (insert_perm _ _ _ _ _).nodup_iff.mpr (List.nodup_cons.mpr ?_)
      rw [List.append_assoc l, List.takeWhile_append_dropWhile]
      exact ⟨hx, hn⟩
    obtain ⟨rfl, htw, _, _⟩ := place_unique hn' he
    refine ⟨rfl, ?_⟩
    rcases List.append_eq_append_iff.mp htw with ⟨s, rfl, hs⟩ | ⟨s, rfl, hs⟩
    · refine ⟨s, Or.inl rfl, fun y hy => ?_⟩
      have hin : y ∈ r.takeWhile k := by rw [hs]; simp [hy]
      exact List.mem_takeWhile_imp hin
    · refine ⟨s, Or.inr rfl, fun y hy => ?_⟩
      have hin : y ∈ post.takeWhile k := by rw [hs]; simp [hy]
      exact List.mem_takeWhile_imp hin
  · rintro ⟨rfl, s, hs, hk⟩
    have hrest := List.append_cancel_left hrows
    rw [List.cons.injEq] at hrest
    obtain ⟨hrow, rfl⟩ := hrest
    rcases hs with rfl | rfl
    · rw [List.append_assoc] at hrow
      obtain rfl := List.append_cancel_left hrow
      rw [List.takeWhile_append_of_pos hk, List.dropWhile_append_of_pos hk]
      simp
    · rw [List.append_assoc] at hrow
      obtain rfl := List.append_cancel_left hrow
      rw [List.takeWhile_append_of_pos hk, List.dropWhile_append_of_pos hk]
      simp

theorem same_line (hrows : A ++ (l ++ r) :: B = A' ++ (pre ++ post) :: B')
    (hn : (A ++ (l ++ r) :: B).flatten.Nodup) (hx : x ∉ (A ++ (l ++ r) :: B).flatten) :
    A ++ l :: (x :: r) :: B = A' ++ (x :: post) :: pre :: B' ↔
      A' = A ++ [l] ∧ r = [] ∧ post = [] := by
  constructor
  · intro he
    have hn' : ((A ++ [l]) ++ ([] ++ x :: r) :: B).flatten.Nodup := by
      rw [List.append_assoc, List.singleton_append, List.nil_append]
      exact (split_perm _ _ _ _ _).nodup_iff.mpr (List.nodup_cons.mpr ⟨hx, hn⟩)
    have he' : (A ++ [l]) ++ ([] ++ x :: r) :: B = A' ++ ([] ++ x :: post) :: (pre :: B') := by
      rw [List.append_assoc, List.singleton_append]
      exact he
    obtain ⟨rfl, _, rfl, rfl⟩ := place_unique hn' he'
    rw [List.append_assoc, List.singleton_append] at hrows
    have hrest := List.append_cancel_left hrows
    rw [List.cons.injEq] at hrest
    have hr : r = [] := by simpa using hrest.1
    exact ⟨rfl, hr, hr⟩
  · rintro ⟨rfl, rfl, rfl⟩
    rw [List.append_assoc, List.singleton_append] at hrows ⊢
    have hrest := List.append_cancel_left hrows
    rw [List.cons.injEq, List.append_nil, List.append_nil] at hrest
    rw [hrest.2]

theorem gap_unique (hf : Sound f) (h : Gap f P A l r B) (h' : Gap f P A' pre post B') :
    A = A' ∧ l = pre ∧ r = post ∧ B = B' := by
  have hn := hf.nodup
  cases h with
  | char hb hrows =>
    cases h' with
    | char _ hrows' =>
      rw [hrows] at hn hrows'
      exact place_unique hn hrows'
    | line hb' _ => exact absurd hb' hb
  | @line s u _ _ hb hrows =>
    cases h' with
    | char hb' _ => exact absurd hb hb'
    | @line s' u' _ _ _ hrows' =>
      have hsplit : f.projection = (A ++ [s]) ++ (u ++ P :: r) :: B := by simp [hrows]
      have hsplit' : f.projection = (A' ++ [s']) ++ (u' ++ P :: post) :: B' := by simp [hrows']
      rw [hsplit] at hn hsplit'
      obtain ⟨hA, rfl, rfl, rfl⟩ := place_unique hn hsplit'
      obtain ⟨rfl, hs⟩ := List.append_inj' hA rfl
      obtain rfl : s = s' := by simpa using hs
      exact ⟨rfl, rfl, rfl, rfl⟩

theorem Beside.of_live (h : Beside f.characters a x w) (hx : parentOf f.characters x = some y)
    (hy : Live f.characters y) : a = y ∧ ∀ z ∈ w, skips f.characters y x z = true := by
  cases h with
  | live hx' _ hk =>
    obtain rfl := Option.some.inj (hx.symm.trans hx')
    exact ⟨rfl, hk⟩
  | tomb hx' ht _ _ =>
    obtain rfl := Option.some.inj (hx.symm.trans hx')
    exact absurd hy ht.not_live

theorem Beside.of_tomb (h : Beside f.characters a x w) (hx : parentOf f.characters x = some y)
    (hy : Tomb f.characters y) : ∃ u v, w = u ++ v ∧ Beside f.characters a y u ∧
      ∀ z ∈ v, skips f.characters y x z = true := by
  cases h with
  | live hx' hl _ =>
    obtain rfl := Option.some.inj (hx.symm.trans hx')
    exact absurd hl hy.not_live
  | tomb hx' _ hb hk =>
    obtain rfl := Option.some.inj (hx.symm.trans hx')
    exact ⟨_, _, rfl, hb, hk⟩

theorem Beside.of_prefix (h : Beside f.characters a x w) (hp : u <+: w) :
    Beside f.characters a x u := by
  induction h generalizing u with
  | live hx ha hk => exact .live hx ha fun z hz => hk z (hp.subset hz)
  | @tomb x y b w hx hy _ hk ih =>
    obtain ⟨v, hv⟩ := hp
    rcases List.append_eq_append_iff.mp hv with ⟨s, rfl, _⟩ | ⟨s, rfl, rfl⟩
    · rw [← List.append_nil u]
      exact .tomb hx hy (ih (List.prefix_append u s)) (by simp)
    · exact .tomb hx hy (ih (List.prefix_refl b)) fun z hz => hk z (List.mem_append_left v hz)

theorem Beside.anchored (h : Beside f.characters a x w) : ∃ t, Anchor f.characters x t a := by
  induction h with
  | live hx ha _ => exact ⟨_, .live hx ha⟩
  | tomb hx hy _ _ ih => exact ih.imp fun _ ht => .tomb hx hy ht

theorem skips_parent {z : Identity} (h : skips f.characters y x z = true) :
    (f.characters.lookup z).map CrdtRelation.parent = some y := by
  simp only [skips, Bool.and_eq_true, beq_iff_eq] at h
  exact h.1

theorem Beside.above {p : List Identity} (h : Beside f.characters a x w)
    (hp : PathTo (parentOf f.characters) root x p) :
    (∃ q, PathTo (parentOf f.characters) root a q ∧ q.length < p.length) ∧
      ∀ z ∈ w, ∃ y q, (f.characters.lookup z).map CrdtRelation.parent = some y ∧
        PathTo (parentOf f.characters) root y q ∧ q.length < p.length := by
  have hstep : ∀ {x y : Identity} {p : List Identity}, parentOf f.characters x = some y →
      PathTo (parentOf f.characters) root x p →
      ∃ q, PathTo (parentOf f.characters) root y q ∧ q.length < p.length := by
    intro x y p hx hp
    cases hp with
    | root => exact absurd hx (by simp)
    | step hxy hq =>
      obtain rfl := Option.some.inj (hx.symm.trans hxy)
      exact ⟨_, hq, by simp⟩
  induction h generalizing p with
  | live hx _ hk =>
    obtain ⟨q, hq, hlt⟩ := hstep hx hp
    exact ⟨⟨q, hq, hlt⟩, fun z hz => ⟨_, q, skips_parent (hk z hz), hq, hlt⟩⟩
  | tomb hx _ _ hk ih =>
    obtain ⟨q, hq, hlt⟩ := hstep hx hp
    obtain ⟨⟨q₁, hq₁, hlt₁⟩, hb⟩ := ih hq
    refine ⟨⟨q₁, hq₁, hlt₁.trans hlt⟩, fun z hz => ?_⟩
    rcases List.mem_append.mp hz with hz | hz
    · obtain ⟨y₂, q₂, hy₂, hq₂, hlt₂⟩ := hb z hz
      exact ⟨y₂, q₂, hy₂, hq₂, hlt₂.trans hlt⟩
    · exact ⟨_, q, skips_parent (hk z hz), hq, hlt⟩

/-- A slot stands behind the longest list of siblings of that kind. -/
theorem slot_beside (hm : Rooted f.characters) (h : Slot f x A pre post B) :
    ∃ a u w, pre = u ++ w ∧ UpTo a A u ∧ Beside f.characters a x w ∧
      ∀ z ∈ post.head?, ¬ Beside f.characters a x (w ++ [z]) := by
  have hstop : ∀ {y x z : Identity} {v : List Identity},
      z ∈ (v.dropWhile (skips f.characters y x)).head? → skips f.characters y x z = false := by
    intro y x z v hz
    have hnot := List.head?_dropWhile_not (skips f.characters y x) v
    rw [Option.mem_def.mp hz] at hnot
    exact hnot
  induction h with
  | @root x line B hx hrows =>
    refine ⟨root, [], _, rfl, .root rfl, .live hx hm.root_live fun z hz => List.mem_takeWhile_imp hz,
      fun z hz hb => ?_⟩
    have hk := (hb.of_live hx hm.root_live).2 z (by simp)
    exact absurd ((hstop hz).symm.trans hk) (by simp)
  | @live x a A u v B hx hne ha hrows =>
    refine ⟨a, u ++ [a], v.takeWhile (skips f.characters a x), by simp, .behind hne,
      .live hx ha fun z hz => List.mem_takeWhile_imp hz, fun z hz hb => ?_⟩
    have hk := (hb.of_live hx ha).2 z (by simp)
    exact absurd ((hstop hz).symm.trans hk) (by simp)
  | @tomb x y A pre post B hxy hy _ ih =>
    obtain ⟨a, u, w, rfl, hu, hw, hnext⟩ := ih
    refine ⟨a, u, _, List.append_assoc _ _ _, hu,
      .tomb hxy hy hw fun z hz => List.mem_takeWhile_imp hz, fun z hz hb => ?_⟩
    obtain ⟨w', v, hsplit, hw', hv⟩ := hb.of_tomb hxy hy
    -- `z` is no sibling of `x` that outranks it, so all of these belong to `y`
    obtain rfl : v = [] := by
      rcases List.eq_nil_or_concat v with rfl | ⟨v, e, rfl⟩
      · rfl
      · rw [List.concat_eq_append, ← List.append_assoc] at hsplit
        obtain ⟨_, he⟩ := List.append_inj' hsplit rfl
        rw [List.cons.injEq] at he
        have hk := hv z (by simp [he.1])
        exact absurd ((hstop hz).symm.trans hk) (by simp)
    rw [List.append_nil] at hsplit
    obtain ⟨d, hd⟩ := List.head?_eq_some_iff.mp hz
    have hall := List.takeWhile_append_dropWhile (p := skips f.characters y x) (l := post)
    rw [hd] at hall
    obtain ⟨e, he, hpre⟩ : ∃ e ∈ post.head?,
        [e] <+: post.takeWhile (skips f.characters y x) ++ [z] := by
      cases htw : post.takeWhile (skips f.characters y x) with
      | nil => exact ⟨z, by rw [← hall, htw]; simp, List.prefix_refl [z]⟩
      | cons e s => exact ⟨e, by rw [← hall, htw]; simp, s ++ [z], rfl⟩
    refine hnext e he (hw'.of_prefix ?_)
    rw [← hsplit, List.append_assoc]
    exact (List.prefix_append_right_inj w).mpr hpre

theorem beside_ends {s : List Identity} (h : Beside f.characters a x (w ++ s))
    (hn : ∀ z ∈ (s ++ v).head?, ¬ Beside f.characters a x (w ++ [z])) : s = [] := by
  cases s with
  | nil => rfl
  | cons e s => exact absurd (h.of_prefix ⟨s, by simp⟩) (hn e rfl)

theorem slot_at (hf : Sound f) (hrows : f.projection = A ++ (u ++ w ++ v) :: B) (hu : UpTo a A u)
    (hw : Beside f.characters a x w) (hv : ∀ z ∈ v.head?, ¬ Beside f.characters a x (w ++ [z]))
    (h : Slot f x A' pre post B') : A' = A ∧ pre = u ++ w ∧ post = v ∧ B' = B := by
  obtain ⟨a', u', w', rfl, hu', hw', hv'⟩ := slot_beside hf.rooted h
  obtain ⟨_, ht⟩ := hw.anchored
  obtain ⟨_, ht'⟩ := hw'.anchored
  obtain ⟨_, rfl⟩ := anchor_unique ht ht'
  have hsame : w ++ v = w' ++ post → w' = w ∧ post = v := by
    intro hrow
    rcases List.append_eq_append_iff.mp hrow with ⟨s, rfl, rfl⟩ | ⟨s, rfl, rfl⟩
    · obtain rfl := beside_ends hw' hv
      simp
    · obtain rfl := beside_ends hw hv'
      simp
  have hrows' := h.rows
  rw [hrows] at hrows'
  cases hu with
  | root hr =>
    cases hu' with
    | root _ =>
      simp only [List.nil_append, List.cons.injEq] at hrows'
      obtain ⟨rfl, rfl⟩ := hsame hrows'.1
      exact ⟨rfl, rfl, rfl, hrows'.2.symm⟩
    | behind hne => exact absurd hr hne
  | @behind _ u hne =>
    cases hu' with
    | root hr => exact absurd hr hne
    | @behind _ u' _ =>
      have hn := hf.nodup
      rw [hrows] at hn
      simp only [List.append_assoc, List.singleton_append] at hn hrows'
      obtain ⟨rfl, rfl, hrow, rfl⟩ := place_unique hn hrows'
      obtain ⟨rfl, rfl⟩ := hsame hrow
      exact ⟨rfl, rfl, rfl, rfl⟩

theorem child_not_last {e : Identity} {v : List Identity} (hm : Rooted f.characters)
    (hu : UpTo a A u) (hw : Beside f.characters a P w) (hP : P ∈ f.characters)
    (he : skips f.characters P x e = true) : u ++ w ≠ v ++ [e] := by
  intro heq
  obtain ⟨p, hp⟩ := hm.climbs P hP
  obtain ⟨⟨q, hq, hlt⟩, hbeside⟩ := hw.above hp
  rcases List.eq_nil_or_concat w with rfl | ⟨w, e', rfl⟩
  · rw [List.append_nil] at heq
    cases hu with
    | root _ => simp at heq
    | behind hne =>
      obtain ⟨_, ha⟩ := List.append_inj' heq rfl
      obtain rfl : a = e := by simpa using ha
      obtain ⟨rel, hrel, hpar⟩ := Option.map_eq_some_iff.mp (skips_parent he)
      have ha := PathTo.step (parentOf_eq_some.mpr ⟨hne, rel, hrel, hpar⟩) hp
      rw [path_unique (parentOf_root _) hq ha, List.length_append, List.length_singleton] at hlt
      omega
  · rw [List.concat_eq_append, ← List.append_assoc] at heq
    obtain ⟨_, hlast⟩ := List.append_inj' heq rfl
    obtain rfl : e' = e := by simpa using hlast
    obtain ⟨y, q, hy, hq, hlt⟩ := hbeside e' (by simp)
    obtain rfl := Option.some.inj (hy.symm.trans (skips_parent he))
    obtain rfl := path_unique (parentOf_root _) hq hp
    exact absurd hlt (lt_irrefl _)

theorem adjoins_iff (hf : Sound f) (hP : Live f.characters P) (h : Gap f P A l r B)
    (hg : Sound (without f (A ++ (l ++ r) :: B)))
    (hs : Slot (without f (A ++ (l ++ r) :: B)) P A' pre post B') :
    (A' = A ∧ ∃ s, (pre = l ++ s ∨ l = pre ++ s) ∧ ∀ y ∈ s, skips f.characters P x y = true) ↔
      Adjoins f P x := by
  constructor
  · rintro ⟨rfl, s, hsplit, hk⟩
    obtain ⟨a, u, w, rfl, hu, hw, hnext⟩ := slot_beside hg.rooted hs
    change Beside f.characters a P w at hw
    have hrow : l ++ r = u ++ w ++ post := by
      have hrows : A' ++ (l ++ r) :: B = A' ++ (u ++ w ++ post) :: B' := hs.rows
      exact (List.cons.inj (List.append_cancel_left hrows)).1
    rcases hsplit with hsplit | rfl
    · -- the last of them would be a child of `P` and an ancestor, or a sibling of one
      obtain rfl : s = [] := by
        rcases List.eq_nil_or_concat s with rfl | ⟨s, e, rfl⟩
        · rfl
        · rw [List.concat_eq_append, ← List.append_assoc] at hsplit
          exact absurd hsplit (child_not_last hf.rooted hu hw hP.mem (hk e (by simp)))
      rw [List.append_nil] at hsplit
      subst hsplit
      obtain rfl := List.append_cancel_left hrow
      exact ⟨A', _, r, B, a, u, w, [], h, (List.append_nil _).symm, hu, hw, by simp, hnext⟩
    · rw [List.append_assoc (u ++ w)] at hrow
      obtain rfl := List.append_cancel_left hrow
      exact ⟨A', _, r, B, a, u, w, s, h, rfl, hu, hw, hk, hnext⟩
  · rintro ⟨A₂, l₂, r₂, B₂, a, u, w, s, h₂, rfl, hu, hw, hk, hnext⟩
    obtain ⟨rfl, rfl, rfl, rfl⟩ := gap_unique hf h h₂
    have hrows : (without f (A ++ (u ++ w ++ s ++ r) :: B)).projection =
        A ++ (u ++ w ++ (s ++ r)) :: B := by simp [without]
    obtain ⟨rfl, rfl, _, _⟩ := slot_at hg hrows hu hw hnext hs
    exact ⟨rfl, s, Or.inr rfl, hk⟩

theorem ends_above_iff (hf : Sound f) (h : Gap f P A l r B)
    (hg : Sound (without f (A ++ (l ++ r) :: B)))
    (hs : Slot (without f (A ++ (l ++ r) :: B)) P A' pre post B') :
    A' = A ++ [l] ∧ r = [] ∧ post = [] ↔ EndsAbove f P := by
  constructor
  · rintro ⟨rfl, rfl, rfl⟩
    obtain ⟨a, u, w, rfl, hu, hw, _⟩ := slot_beside hg.rooted hs
    have hrows : A ++ (l ++ []) :: B = A ++ [l] ++ (u ++ w ++ []) :: B' := hs.rows
    rw [List.append_assoc, List.singleton_append] at hrows
    obtain ⟨_, rfl⟩ := List.cons.inj (List.append_cancel_left hrows)
    generalize hA : A ++ [l] = C at hu
    cases hu with
    | root _ => simp at hA
    | behind hne => exact ⟨A, l, B', a, _, w, by simpa using h, hne, hw⟩
  · rintro ⟨A₂, l₂, B₂, a, u, w, h₂, hne, hw⟩
    obtain ⟨rfl, rfl, rfl, rfl⟩ := gap_unique hf h h₂
    have hrows : (without f (A ++ (l ++ []) :: (u ++ a :: w) :: B₂)).projection =
        (A ++ [l]) ++ (u ++ [a] ++ w ++ []) :: B₂ := by simp [without]
    obtain ⟨rfl, _, rfl, _⟩ := slot_at hg hrows (.behind hne) hw (by simp) hs
    exact ⟨rfl, rfl, rfl⟩

theorem back_anchored {t a : Identity} (hf : Sound f) (h : Gap f P A l r B)
    (hb : BackInPlace f P c) (ht : Anchor f.characters P t a) (hne : a ≠ root) :
    a ∈ (A ++ (l ++ r) :: B).flatten := by
  unfold BackInPlace at hb
  split at hb
  · obtain ⟨A₂, l₂, B₂, a', u, w, h₂, _, hw⟩ := hb
    obtain ⟨_, ht'⟩ := hw.anchored
    obtain ⟨_, rfl⟩ := anchor_unique ht ht'
    obtain ⟨rfl, rfl, rfl, rfl⟩ := gap_unique hf h h₂
    simp
  · obtain ⟨A₂, l₂, r₂, B₂, a', u, w, s, h₂, rfl, hu, hw, _⟩ := hb
    obtain ⟨_, ht'⟩ := hw.anchored
    obtain ⟨_, rfl⟩ := anchor_unique ht ht'
    obtain ⟨rfl, rfl, rfl, rfl⟩ := gap_unique hf h h₂
    cases hu with
    | root hr => exact absurd hr hne
    | behind _ => simp

theorem agree_in_row (hf : Sound f) (hP : Live f.characters P) (hne : P ≠ root)
    (hc : c.relation.parent = P) (hx : c.identity ∉ f.characters) (hint : Fin 4 → ℕ)
    (h : Gap f P A l r B) : Agree f c P hint ↔ BackInPlace f P c := by
  have hlive := live_first hf hP hne hc hx h (hint 0) (hint 1)
  obtain ⟨rel, pos, hl, hrem⟩ := removed_gap hf hP hne h (hint 2)
  have hspared : SparesRoot f (hint 2, .remove P) := fun y hy => by cases hy; exact hne
  have hg : Sound (marked f P rel (A ++ (l ++ r) :: B)) := sound_spared hf hspared ⟨_, hrem⟩
  have hxp : c.identity ∉ (A ++ (l ++ r) :: B).flatten := fun hin =>
    hx ((mem_mark hl).mp (hg.known _ hin))
  have hn := hg.nodup
  rcases removed_first hf hP hne hl hc hx (hint 3) hg hrem with
    ⟨A', pre, post, B', hs, hrm⟩ | ⟨⟨t, a, ht, har, hnot⟩, hrm⟩
  · have hrows : A ++ (l ++ r) :: B = A' ++ (pre ++ post) :: B' := hs.rows
    have hg' := sound_without hf hl hg
    unfold Agree BackInPlace
    rw [hlive, hrm]
    simp only [Option.some.injEq, exists_eq_left']
    cases isLineBreak c.relation.value with
    | true => exact (eq_comm.trans (same_line hrows hn hxp)).trans (ends_above_iff hf h hg' hs)
    | false => exact (eq_comm.trans (same_char hrows hn hxp)).trans (adjoins_iff hf hP h hg' hs)
  · refine iff_of_false ?_ fun hb => hnot (back_anchored hf h hb ht har)
    -- the new character is in the one and not in the other
    rintro ⟨p, hp, hp'⟩
    rw [hrm, Option.some.injEq] at hp'
    rw [hlive, Option.some.injEq, ← hp'] at hp
    apply hxp
    rw [← hp]
    cases isLineBreak c.relation.value <;> simp

theorem agree_nowhere (hf : Sound f) (hP : Live f.characters P) (hne : P ≠ root)
    (hc : c.relation.parent = P) (hx : c.identity ∉ f.characters) (hint : Fin 4 → ℕ)
    (hnot : P ∉ f.projection.flatten) : Agree f c P hint ↔ Nowhere f P := by
  have hadd := add_nowhere (t := root) hf hx (Or.inl ⟨hc ▸ hP, rfl⟩) (hc ▸ hne) (hc ▸ hnot)
  have hremoved : ∀ hint, ∃ o rel, f.characters.lookup P = some rel ∧
      f.removeCrdt hint P = some (o, marked f P rel f.projection) := by
    intro hint
    rcases remove_cases hf hne hint with ⟨o, g, he, hr, _⟩ | ⟨_, _, _, row, hrow, hin⟩
    swap
    · exact absurd (List.mem_flatten.mpr ⟨row, List.mem_of_mem_head? hrow, hin⟩) hnot
    cases hr with
    | unknown hm => exact absurd hP.mem hm
    | again ht => exact absurd hP ht.not_live
    | unplaced hl _ _ => exact ⟨_, _, hl, he⟩
    | char _ _ _ hrows => exact absurd (by rw [hrows]; simp) hnot
    | line _ _ _ hrows hin =>
      refine absurd (List.mem_flatten.mpr ⟨_, ?_, hin⟩) hnot
      rw [hrows]
      simp
  have hlive : addThenRemove f (hint 0) (hint 1) c P = some f.projection := by
    obtain ⟨o, rel, _, hrem⟩ := hremoved (hint 1)
    simp only [addThenRemove, hadd (hint 0), hrem, Option.bind_eq_bind, Option.bind_some, marked]
  obtain ⟨o, rel, hl, hrem⟩ := hremoved (hint 2)
  have hspared : SparesRoot f (hint 2, .remove P) := fun y hy => by cases hy; exact hne
  have hg : Sound (marked f P rel f.projection) := sound_spared hf hspared ⟨_, hrem⟩
  have hxp : c.identity ∉ f.projection.flatten := fun hin => hx (hf.known _ hin)
  rcases removed_first hf hP hne hl hc hx (hint 3) hg hrem with
    ⟨A', pre, post, B', hs, hrm⟩ | ⟨hno, hrm⟩
  · refine iff_of_false ?_ ?_
    swap
    · rintro ⟨_, t, a, ht, har, hn⟩
      obtain ⟨_, _, ht', hin⟩ := slot_anchored hf hs
      obtain ⟨_, rfl⟩ := anchor_unique ht ht'
      exact hn (hin har)
    rintro ⟨p, hp, hp'⟩
    rw [hlive, Option.some.injEq] at hp
    rw [hrm, Option.some.injEq, ← hp] at hp'
    apply hxp
    rw [← hp']
    cases isLineBreak c.relation.value <;> simp
  · exact iff_of_true ⟨_, hlive, hrm⟩ ⟨hnot, hno⟩

theorem sound_agree_iff (hf : Sound f) (hP : Live f.characters P) (hne : P ≠ root)
    (hc : c.relation.parent = P) (hx : c.identity ∉ f.characters) (hint : Fin 4 → ℕ) :
    Agree f c P hint ↔ BackInPlace f P c ∨ Nowhere f P := by
  have hgap : BackInPlace f P c → ∃ A l r B, Gap f P A l r B := by
    intro hb
    unfold BackInPlace at hb
    split at hb
    · obtain ⟨_, _, _, _, _, _, hgap, _⟩ := hb
      exact ⟨_, _, _, _, hgap⟩
    · obtain ⟨_, _, _, _, _, _, _, _, hgap, _⟩ := hb
      exact ⟨_, _, _, _, hgap⟩
  by_cases hin : P ∈ f.projection.flatten
  swap
  · rw [agree_nowhere hf hP hne hc hx hint hin]
    refine ⟨Or.inr, fun h => h.resolve_left fun hb => ?_⟩
    obtain ⟨_, _, _, _, hg⟩ := hgap hb
    exact hin hg.mem
  have hnot : ¬ Nowhere f P := fun h => h.1 hin
  rw [or_iff_left hnot]
  rcases gap_exists hin hP with ⟨A, l, r, B, hg⟩ | hfirst
  · exact agree_in_row hf hP hne hc hx hint hg
  · -- the removal panics
    refine iff_of_false ?_ ?_
    · rintro ⟨p, _, hp⟩
      rcases remove_cases hf hne (hint 2) with ⟨_, _, _, _, hn⟩ | ⟨he, _⟩
      · exact hn hfirst
      · simp [removeThenAdd, he] at hp
    · intro hb
      obtain ⟨_, _, _, _, hg⟩ := hgap hb
      exact hg.not_first hf hfirst

theorem agree_iff (hf : Reached f) (hP : Live f.characters P) (hne : P ≠ root)
    (hc : c.relation.parent = P) (hx : c.identity ∉ f.characters) (hint : Fin 4 → ℕ) :
    Agree f c P hint ↔ BackInPlace f P c ∨ Nowhere f P :=
  sound_agree_iff (reached_sound hf) hP hne hc hx hint

/-- The ordinary case: `P` behind its live parent and the siblings that outrank it. -/
theorem back_behind {Q : Identity} {s : List Identity} (hQ : parentOf f.characters P = some Q)
    (hne : Q ≠ root) (hlive : Live f.characters Q) (hb : ¬ Breaks f.characters P)
    (hrows : f.projection = A ++ (u ++ Q :: (s ++ P :: v)) :: B)
    (hs : ∀ y ∈ s, skips f.characters Q P y = true)
    (hv : ∀ y ∈ v.head?, skips f.characters Q P y = false)
    (hc : isLineBreak c.relation.value = false) : BackInPlace f P c := by
  rw [BackInPlace, if_neg (by simp [hc])]
  refine ⟨A, u ++ [Q] ++ s, v, B, Q, u ++ [Q], s, [], .char hb (by simp [hrows]),
    (List.append_nil _).symm, .behind hne, .live hQ hlive hs, by simp, fun z hz hbeside => ?_⟩
  have hk := (hbeside.of_live hQ hlive).2 z (by simp)
  exact absurd ((hv z hz).symm.trans hk) (by simp)

end Rows

def fresh : CRDT := ⟨3, 1, .new 'c' 2 0⟩

theorem agree_iff_second : ∃ f, f.projection = [[root, (1, 0), (2, 0)]] ∧
    Agree f fresh (2, 0) (fun i => 5 * i) := by
  have hf : ∃ f, Reached f ∧ f.projection = [[root, (1, 0), (2, 0)]] ∧ fresh.identity ∉ f.characters ∧
      f.characters.lookup (2, 0) = some (.new 'b' 1 0) ∧ Live f.characters (1, 0) :=
    ⟨_, ⟨_, [], ⟨[], ['a', 'b'], 0, 2, rfl⟩, .nil _⟩, rfl, by decide, rfl, ⟨_, rfl, rfl⟩⟩
  obtain ⟨f, hf, hp, hx, hlook, hlive⟩ := hf
  have hl : Live f.characters (2, 0) := ⟨_, hlook, rfl⟩
  have hpar : parentOf f.characters (2, 0) = some (1, 0) := parentOf_of_lookup (by decide) hlook
  have hb : ¬ Breaks f.characters (2, 0) := fun h => absurd ((breaks_iff hlook).mp h) (by decide)
  have hback : BackInPlace f (2, 0) fresh := back_behind (A := []) (u := [root]) (s := []) (v := [])
    hpar (by decide) hlive hb hp (by simp) (by simp) (by decide)
  exact ⟨f, hp, (agree_iff hf hl (by decide) rfl hx _).mpr (Or.inl hback)⟩

/-- In the file `a`, a child of the deleted character lands before the root. -/
theorem first_child_moves : ¬ ∀ (f : SharFile) (P : Identity) (c : CRDT) (hint : Fin 4 → ℕ),
    Reached f → Live f.characters P → P ≠ root → c.relation.parent = P →
    c.identity ∉ f.characters → P.1 < c.id → Agree f c P hint := by
  intro h
  have hf : ∃ f, Reached f ∧ Live f.characters (1, 0) ∧ (2, 1) ∉ f.characters ∧
      addThenRemove f 0 0 ⟨2, 1, .new 'b' 1 0⟩ (1, 0) = some [[root, (2, 1)]] ∧
      removeThenAdd f 0 0 ⟨2, 1, .new 'b' 1 0⟩ (1, 0) = some [[(2, 1), root]] :=
    ⟨_, ⟨_, [], ⟨[], ['a'], 0, 1, rfl⟩, .nil _⟩, ⟨_, rfl, rfl⟩, by decide, rfl, rfl⟩
  obtain ⟨f, hf, hl, hx, h₁, h₂⟩ := hf
  obtain ⟨p, hp, hp'⟩ := h f (1, 0) ⟨2, 1, .new 'b' 1 0⟩ (fun _ => 0) hf hl (by decide) rfl hx
    (by decide)
  rw [h₁] at hp
  rw [h₂, ← hp] at hp'
  exact absurd hp' (by decide)

end TombstonePath
