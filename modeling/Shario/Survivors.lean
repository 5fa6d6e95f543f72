import Shario.FileShape

/-! Removal leaves the surviving text: the rows that are left are the old text without the
removed characters, cut at the line breaks that are left. -/
namespace Survivors

open CrdtTypes RowLayout FileTree CharacterTree FilePlacement GuardedRuns FileSafety FileShape

/-- Adds of live characters under live parents, and removes of any character but the root. -/
def UnderLive (f : SharFile) (call : Call) : Prop :=
  Issued f call ∧ ∀ c, call.2 = .add c → Live f.characters c.relation.parent

def removeAll : SharFile → List (ℕ × Identity) → Option (List Outcome × SharFile)
  | f, [] => some ([], f)
  | f, (hint, x) :: calls => do
    let (o, f) ← f.removeCrdt hint x
    let (os, f) ← removeAll f calls
    some (o :: os, f)

def startsRow (m : Characters) (x : Identity) : Bool :=
  ((m.lookup x).map fun rel => isLineBreak rel.value) == some true

def deleteIf (xs : List Identity) (x : Identity) (rel : CrdtRelation) : CrdtRelation :=
  if x ∈ xs then { rel with deleted := true } else rel

/-- `g` is `f` without the characters of `xs`. -/
structure Survives (f g : SharFile) (xs : List Identity) : Prop where
  characters : ∀ x, g.characters.lookup x = (f.characters.lookup x).map (deleteIf xs x)
  text : g.projection = cut (startsRow f.characters) (f.projection.flatten.filter (· ∉ xs))
  headed : ∃ u B, g.projection = (root :: u) :: B

/-- The first removal of a live character takes a place, every other one finds it gone. -/
def AnswersOnce (f : SharFile) (calls : List (ℕ × Identity)) (os : List Outcome) : Prop :=
  os.length = calls.length ∧ ∀ pre hint x post, calls = pre ++ (hint, x) :: post →
    ∃ o, os[pre.length]? = some (.ok o) ∧
      (o.isSome ↔ Live f.characters x ∧ x ∉ pre.map Prod.snd)

theorem starts_row_iff {m : Characters} {x : Identity} : startsRow m x = true ↔ Breaks m x := by
  unfold startsRow Breaks
  cases m.lookup x <;> simp

section Removal

variable {f g k : SharFile} {x y : Identity} {xs ys : List Identity} {rel : CrdtRelation}
  {o : Outcome}

theorem shape_cut (h : Shape f) : cut (startsRow f.characters) f.projection.flatten = f.projection :=
  layout_cut (layout_congr h.layout fun _ _ => starts_row_iff.symm)

theorem under_live_safe {call : Call} (h : UnderLive f call) : ShapeSafe f call :=
  fun c hc _ ht => absurd (h.2 c hc) ht.not_live

theorem run_under_live {f₀ : SharFile} {calls : List Call} (hl : Loaded f₀)
    (hrun : Run Step UnderLive f₀ calls f) : Shape f := by
  apply run_shape hl
  exact hrun.weaken fun _ _ h => ⟨h.1, under_live_safe h⟩

theorem marked_lookup (hl : f.characters.lookup x = some rel) (y : Identity) :
    (mark f.characters x rel).lookup y = (f.characters.lookup y).map (deleteIf [x] y) := by
  by_cases hy : y = x
  · subst hy
    simp [mark, hl, deleteIf]
  · have hsame : deleteIf [x] y = id := by
      funext rel
      simp [deleteIf, hy]
    simp [mark, Finmap.lookup_insert_of_ne _ hy, hsame]

theorem filter_ne_middle {u v : List Identity} (hn : (u ++ x :: v).Nodup) :
    (u ++ x :: v).filter (· ∉ [x]) = u ++ v := by
  have hmem := (List.nodup_cons.mp (List.perm_middle.nodup_iff.mp hn)).1
  rw [List.filter_append, List.filter_cons_of_neg (by simp), ← List.filter_append,
    List.filter_eq_self]
  intro y hy
  have hne : y ≠ x := fun he => hmem (he ▸ hy)
  simpa using hne

theorem removed_text (h : Shape f) (hr : Removed f x o g) (hx : Live f.characters x) :
    g.projection.flatten = f.projection.flatten.filter (· ∉ [x]) ∧
      (∃ pos, o = .ok (some pos)) ∧
      ∀ y, g.characters.lookup y = (f.characters.lookup y).map (deleteIf [x] y) := by
  have hn := h.nodup
  cases hr with
  | unknown hnot => exact absurd hx.mem hnot
  | again ht => exact absurd hx ht.not_live
  | unplaced _ _ hnot => exact absurd ((h.live x).mp hx) hnot
  | @char rel A u v B hl _ _ hrows =>
    rw [hrows, flatten_middle, List.cons_append] at hn ⊢
    rw [filter_ne_middle hn]
    exact ⟨flatten_middle A B u v, ⟨_, rfl⟩, marked_lookup hl⟩
  | @line rel A r y w B hl _ hb hrows hin =>
    -- a line break stands at the start of its row
    have hlay := h.layout
    obtain ⟨u, v, huv⟩ := List.append_of_mem hin
    have hsplit : f.projection = (A ++ [r]) ++ (u ++ x :: v) :: B := by
      rw [hrows, huv, List.append_assoc, List.singleton_append]
    have hstart := (break_starts_row (hsplit ▸ hlay) ((breaks_iff hl).mpr hb)).1
    rw [hstart, List.nil_append, List.cons.injEq] at huv
    rw [hrows, huv.1] at hn ⊢
    have hflat : (A ++ r :: (x :: w) :: B).flatten = (A.flatten ++ r) ++ x :: (w ++ B.flatten) := by
      simp
    rw [hflat] at hn ⊢
    rw [filter_ne_middle hn]
    exact ⟨flatten_middle A B r w, ⟨_, rfl⟩, marked_lookup hl⟩

theorem starts_row_deleted {m m' : Characters}
    (h : ∀ x, m'.lookup x = (m.lookup x).map (deleteIf xs x)) : startsRow m' = startsRow m := by
  funext x
  unfold startsRow
  rw [h x]
  cases m.lookup x with
  | none => rfl
  | some rel =>
    by_cases hx : x ∈ xs
    · simp [deleteIf, hx]
    · simp [deleteIf, hx]

theorem survives_of_gone (h : Shape f) (hx : ¬ Live f.characters x) : Survives f f [x] where
  characters := by
    intro y
    cases hl : f.characters.lookup y with
    | none => rfl
    | some rel =>
      rw [Option.map_some, Option.some.injEq]
      unfold deleteIf
      by_cases hy : y ∈ [x]
      · rw [List.mem_singleton] at hy
        subst hy
        have hd : rel.deleted = true := by
          rw [live_iff hl] at hx
          simpa using hx
        simp [← hd]
      · simp [hy]
  text := by
    have hkeep : f.projection.flatten.filter (· ∉ [x]) = f.projection.flatten := by
      apply List.filter_eq_self.mpr
      intro y hy
      have hne : y ≠ x := fun he => hx (he ▸ (h.live y).mpr hy)
      simpa using hne
    rw [hkeep, shape_cut h]
  headed := h.headed

theorem survives_nil (h : Shape f) : Survives f f [] where
  characters := by
    intro y
    have hsame : deleteIf [] y = id := by
      funext rel
      simp [deleteIf]
    simp [hsame]
  text := by
    have hkeep : f.projection.flatten.filter (· ∉ ([] : List Identity)) = f.projection.flatten := by
      apply List.filter_eq_self.mpr
      simp
    rw [hkeep, shape_cut h]
  headed := h.headed

theorem survives_trans (h : Survives f g xs) (h' : Survives g k ys) : Survives f k (xs ++ ys) where
  characters := by
    intro x
    rw [h'.characters x, h.characters x, Option.map_map]
    congr 1
    funext rel
    simp only [Function.comp_apply, deleteIf, List.mem_append]
    by_cases hx : x ∈ xs
    · by_cases hy : x ∈ ys
      · simp [hx, hy]
      · simp [hx, hy]
    · simp [hx]
  text := by
    have hg : g.projection.flatten = f.projection.flatten.filter (· ∉ xs) := by
      rw [h.text, cut_flatten]
    rw [h'.text, hg, starts_row_deleted h.characters, List.filter_filter]
    congr 2
    funext x
    rw [Bool.and_comm]
    simp [not_or]
  headed := h'.headed

theorem remove_step (h : Shape f) (hx : x ≠ root) (hm : x ∈ f.characters) (hint : ℕ) :
    ∃ o g, f.removeCrdt hint x = some (.ok o, g) ∧ (o.isSome ↔ Live f.characters x) ∧
      Shape g ∧ Survives f g [x] := by
  rcases remove_cases h.toSound hx hint with ⟨o, g, he, hr, _⟩ | ⟨_, hl, hb, row, hrow, hin⟩
  swap
  · -- no line break stands in row 0
    obtain ⟨u, B, hrows⟩ := h.headed
    have hlay := h.layout
    rw [hrows] at hlay hrow
    rw [List.head?_cons, Option.mem_some_iff] at hrow
    exact absurd hb (hlay.1 x (hrow ▸ hin))
  have hg := shape_removed h hx hr
  by_cases hl : Live f.characters x
  · obtain ⟨htext, ⟨pos, rfl⟩, hchars⟩ := removed_text h hr hl
    refine ⟨_, g, he, by simp [hl], hg, hchars, ?_, hg.headed⟩
    rw [← htext, ← starts_row_deleted hchars, shape_cut hg]
  · have hkeep : o = .ok none ∧ g = f := by
      cases hr with
      | unknown hnot => exact absurd hm hnot
      | again _ => exact ⟨rfl, rfl⟩
      | unplaced hl' hd _ => exact absurd ⟨_, hl', hd⟩ hl
      | char hl' hd _ _ => exact absurd ⟨_, hl', hd⟩ hl
      | line hl' hd _ _ _ => exact absurd ⟨_, hl', hd⟩ hl
    obtain ⟨rfl, rfl⟩ := hkeep
    exact ⟨_, g, he, by simp [hl], hg, survives_of_gone h hl⟩

theorem survives_live (h : Survives f g xs) :
    Live g.characters x ↔ Live f.characters x ∧ x ∉ xs := by
  unfold Live
  rw [h.characters x]
  cases f.characters.lookup x with
  | none => simp
  | some rel =>
    by_cases hx : x ∈ xs
    · simp [deleteIf, hx]
    · simp [deleteIf, hx]

theorem survives_mem (h : Survives f g xs) : x ∈ g.characters ↔ x ∈ f.characters := by
  rw [Finmap.mem_iff, Finmap.mem_iff, h.characters x]
  simp

theorem shape_removeAll {calls : List (ℕ × Identity)} (h : Shape f)
    (hx : ∀ call ∈ calls, call.2 ≠ root ∧ call.2 ∈ f.characters) :
    ∃ os g, removeAll f calls = some (os, g) ∧ AnswersOnce f calls os ∧
      Survives f g (calls.map Prod.snd) := by
  induction calls generalizing f with
  | nil =>
    refine ⟨[], f, rfl, ⟨rfl, fun pre hint x post he => ?_⟩, survives_nil h⟩
    exact absurd he (by simp)
  | cons call calls ih =>
    obtain ⟨hint, x⟩ := call
    obtain ⟨hroot, hm⟩ := hx (hint, x) (by simp)
    obtain ⟨o, g, he, ho, hg, hs⟩ := remove_step h hroot hm hint
    have hrest : ∀ call ∈ calls, call.2 ≠ root ∧ call.2 ∈ g.characters := by
      intro call hc
      rw [survives_mem hs]
      exact hx call (List.mem_cons_of_mem _ hc)
    obtain ⟨os, k, hos, ⟨hlen, hans⟩, hk⟩ := ih hg hrest
    refine ⟨.ok o :: os, k, by simp [removeAll, he, hos], ⟨by simp [hlen], ?_⟩, survives_trans hs hk⟩
    intro pre hint' y post heq
    cases pre with
    | nil =>
      rw [List.nil_append, List.cons.injEq, Prod.mk.injEq] at heq
      obtain ⟨⟨rfl, rfl⟩, rfl⟩ := heq
      exact ⟨o, rfl, by simp [ho]⟩
    | cons call pre =>
      rw [List.cons_append, List.cons.injEq] at heq
      obtain ⟨rfl, rfl⟩ := heq
      obtain ⟨o', ho', hiff⟩ := hans pre hint' y post rfl
      refine ⟨o', by simpa using ho', ?_⟩
      rw [hiff, survives_live hs]
      simp only [List.map_cons, List.mem_cons, not_or, List.not_mem_nil, not_false_eq_true,
        and_true]
      exact and_assoc

theorem removal_leaves_text {f₀ : SharFile} {history : List Call} (hl : Loaded f₀)
    (hrun : Run Step UnderLive f₀ history f) {calls : List (ℕ × Identity)}
    (hx : ∀ call ∈ calls, call.2 ≠ root ∧ call.2 ∈ f.characters) :
    ∃ os g, removeAll f calls = some (os, g) ∧ AnswersOnce f calls os ∧
      Survives f g (calls.map Prod.snd) :=
  shape_removeAll (run_under_live hl hrun) hx

end Removal

/-- The line break of `a\nb` and its neighbour, each removed more than once. -/
def twice : List (ℕ × Identity) := [(0, (2, 0)), (9, (1, 0)), (0, (2, 0)), (1, (1, 0))]

theorem removal_leaves_text_twice : ∃ f os g,
    f.projection = [[root, (1, 0)], [(2, 0), (4, 1), (3, 0)]] ∧
    removeAll f twice = some (os, g) ∧ AnswersOnce f twice os ∧
      Survives f g (twice.map Prod.snd) := by
  have hf : ∃ f₀ f, Loaded f₀ ∧ Run Step UnderLive f₀ [(7, .add ⟨4, 1, .new 'c' 2 0⟩)] f ∧
      f.projection = [[root, (1, 0)], [(2, 0), (4, 1), (3, 0)]] ∧
      ∀ call ∈ twice, call.2 ≠ root ∧ call.2 ∈ f.characters :=
    ⟨_, _, ⟨[], ['a', '\n', 'b'], 0, 3, rfl⟩,
      .cons ⟨rfl, fun c hc => by cases hc; exact ⟨_, rfl, rfl⟩⟩ ⟨_, rfl⟩ (.nil _), rfl, by decide⟩
  obtain ⟨f₀, f, hl, hrun, hp, hx⟩ := hf
  obtain ⟨os, g, he, hans, hs⟩ := removal_leaves_text hl hrun hx
  exact ⟨f, os, g, hp, he, hans, hs⟩

/-- Adds, with or without the deleted flag, that find their parent live, and any removes. -/
def FindsLive (f : SharFile) (call : Call) : Prop :=
  ∀ c, call.2 = .add c → Live f.characters c.relation.parent

def deletedFromTheStart : CRDT := ⟨2, 1, { CrdtRelation.new 'b' 1 0 with deleted := true }⟩

/-- A character that comes with the deleted flag stands in its row, and no removal takes it out. -/
theorem deleted_add_stays : ¬ ∀ (f₀ f : SharFile) (history : List Call)
    (calls : List (ℕ × Identity)), Loaded f₀ → Run Step FindsLive f₀ history f →
    (∀ call ∈ calls, call.2 ≠ root ∧ call.2 ∈ f.characters) →
    ∃ os g, removeAll f calls = some (os, g) ∧ AnswersOnce f calls os ∧
      Survives f g (calls.map Prod.snd) := by
  intro h
  have hf : ∃ f₀ f os g, Loaded f₀ ∧ Run Step FindsLive f₀ [(0, .add deletedFromTheStart)] f ∧
      (2, 1) ∈ f.characters ∧ removeAll f [(0, (2, 1))] = some (os, g) ∧
      f.projection = [[root, (1, 0), (2, 1)]] ∧ g.projection = [[root, (1, 0), (2, 1)]] :=
    ⟨_, _, _, _, ⟨[], ['a'], 0, 1, rfl⟩,
      .cons (fun c hc => by cases hc; exact ⟨_, rfl, rfl⟩) ⟨_, rfl⟩ (.nil _), by decide, rfl, rfl, rfl⟩
  obtain ⟨f₀, f, os, g, hl, hrun, hm, he, hp, hp'⟩ := hf
  obtain ⟨os', g', he', _, hs⟩ := h f₀ f _ [(0, (2, 1))] hl hrun fun call hc => by
    rw [List.mem_singleton.mp hc]
    exact ⟨by decide, hm⟩
  rw [he, Option.some.injEq, Prod.mk.injEq] at he'
  have htext := congrArg List.flatten hs.text
  rw [← he'.2, hp', cut_flatten, hp] at htext
  exact absurd htext (by decide)

end Survivors
