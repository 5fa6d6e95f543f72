import Shario.SinglePlace

/-! A line break and an ordinary character with the same identity and parent: when they
stand at the same point of the document. -/
namespace LineBreakOrder

open CrdtTypes FileTree FileSearch CharacterTree FilePlacement GuardedRuns FileSafety HintFreedom
  SinglePlace

def child (v : Char) (x P : Identity) : CRDT := ⟨x.1, x.2, .new v P.1 P.2⟩

@[simp] theorem child_identity (v : Char) (x P : Identity) : (child v x P).identity = x := rfl
@[simp] theorem child_parent (v : Char) (x P : Identity) : (child v x P).relation.parent = P := rfl
@[simp] theorem child_value (v : Char) (x P : Identity) : (child v x P).relation.value = v := rfl

/-- No sibling that outranks `x` stands right behind the place of `P` in its row; and row 0
is not empty, should `P` be the root. -/
def Undisputed (f : SharFile) (P x : Identity) : Prop :=
  ∀ A pre post B, Place f P A pre post B →
    pre ≠ [] ∧ ∀ y ∈ post.head?, skips f.characters P x y = false

section Order

variable {f f₁ f₂ : SharFile} {P x : Identity} {v w : Char} {hint hint' : ℕ} {o₁ o₂ : Outcome}

theorem scan_stays {k : Identity → Bool} {l r : List Identity} (hx : x ∉ l) :
    l.takeWhile k ++ x :: (l.dropWhile k ++ r) = x :: (l ++ r) ↔ ∀ y ∈ l.head?, k y = false := by
  cases l with
  | nil => simp
  | cons y l =>
    simp only [List.head?_cons, Option.mem_some_iff, forall_eq']
    cases hk : k y with
    | false => simp [List.takeWhile_cons_of_neg, List.dropWhile_cons_of_neg, hk]
    | true =>
      refine iff_of_false (fun he => ?_) (by simp)
      rw [List.takeWhile_cons_of_pos hk, List.cons_append, List.cons.injEq] at he
      exact hx (by simp [he.1])

theorem sound_same_order (hf : Sound f) (hP : Live f.characters P) (hx : x ∉ f.characters)
    (hv : isLineBreak v = false) (hw : isLineBreak w = true)
    (h₁ : f.addCrdt hint (child v x P) = some (o₁, f₁))
    (h₂ : f.addCrdt hint' (child w x P) = some (o₂, f₂)) :
    f₁.projection.flatten = f₂.projection.flatten ↔ Undisputed f P x := by
  rcases place_or_none hf hP.mem with ⟨A, pre, post, B, hplace⟩ | ⟨t, a, ha, hne, hnot⟩
  swap
  · -- neither is applied
    rw [add_nowhere (c := child v x P) hf hx ha hne hnot, Option.some.injEq, Prod.mk.injEq] at h₁
    rw [add_nowhere (c := child w x P) hf hx ha hne hnot, Option.some.injEq, Prod.mk.injEq] at h₂
    rw [← h₁.2, ← h₂.2]
    refine iff_of_true rfl fun A pre post B hplace => ?_
    exact absurd (place_not_unplaced hf hplace ha hne) hnot
  have hline := add_line_at (c := child w x P) hf hplace hP hx hw hint'
  rw [h₂, Option.some.injEq, Prod.mk.injEq] at hline
  have hund : Undisputed f P x ↔ pre ≠ [] ∧ ∀ y ∈ post.head?, skips f.characters P x y = false := by
    refine ⟨fun h => h A pre post B hplace, fun h A' pre' post' B' hplace' => ?_⟩
    obtain ⟨rfl, rfl, rfl, rfl⟩ := place_of_parent_unique hf hplace hplace'
    exact h
  rw [hund, hline.2]
  have hxpost : x ∉ post := fun hin => hx (mem_row_known hf hplace.rows (by simp [hin]))
  by_cases hpre : pre = []
  · -- only the root has an empty place, in an empty row 0
    have hdrop : f₁.projection = f.projection := by
      cases hplace with
      | @root line _ hrows =>
        obtain rfl : line = [] := by
          cases line with
          | nil => rfl
          | cons e line => exact absurd hpre (by simp)
        rw [add_dropped (c := child v x root) hf hrows rfl hx hv hint, Option.some.injEq,
          Prod.mk.injEq] at h₁
        rw [← h₁.2]
        rfl
      | live _ _ _ => exact absurd hpre (by simp)
      | tomb ht _ => exact absurd hP ht.not_live
    rw [hdrop]
    refine iff_of_false (fun he => hx (hf.known x ?_)) fun h => h.1 hpre
    rw [he]
    simp [landed]
  · have hchar := add_char_at (c := child v x P) hf hplace (fun _ => hpre) hx hv hint
    rw [h₁, Option.some.injEq, Prod.mk.injEq] at hchar
    rw [hchar.2]
    simp only [landed, List.flatten_append, List.flatten_cons, List.append_assoc,
      List.append_cancel_left_eq, List.cons_append, child_identity, child_parent]
    rw [scan_stays hxpost]
    exact ⟨fun h => ⟨hpre, h⟩, fun h => h.2⟩

theorem same_order_iff (hf : Reached f) (hP : Live f.characters P) (hx : x ∉ f.characters)
    (hv : isLineBreak v = false) (hw : isLineBreak w = true)
    (h₁ : f.addCrdt hint (child v x P) = some (o₁, f₁))
    (h₂ : f.addCrdt hint' (child w x P) = some (o₂, f₂)) :
    f₁.projection.flatten = f₂.projection.flatten ↔ Undisputed f P x :=
  sound_same_order (reached_sound hf) hP hx hv hw h₁ h₂

end Order

def oneChild : List Call := [(0, .add (child 's' (10, 1) root))]

theorem oneChild_reached : ∃ f, Reached f ∧ f.projection = [[root, (10, 1)]] ∧
    Live f.characters root ∧ (5, 2) ∉ f.characters ∧ (12, 2) ∉ f.characters ∧
    (∃ o₁ f₁ o₂ f₂, f.addCrdt 0 (child 'x' (12, 2) root) = some (o₁, f₁) ∧
      f.addCrdt 0 (child '\n' (12, 2) root) = some (o₂, f₂)) ∧
    (∃ o₁ f₁ o₂ f₂, f.addCrdt 0 (child 'x' (5, 2) root) = some (o₁, f₁) ∧
      f.addCrdt 0 (child '\n' (5, 2) root) = some (o₂, f₂) ∧
      f₁.projection.flatten = [root, (10, 1), (5, 2)] ∧
      f₂.projection.flatten = [root, (5, 2), (10, 1)]) :=
  ⟨_, ⟨_, oneChild, ⟨[], [], 0, 0, rfl⟩, .cons (by simp [SparesRoot]) ⟨_, rfl⟩ (.nil _)⟩, rfl,
    ⟨_, rfl, rfl⟩, by decide, by decide, ⟨_, _, _, _, rfl, rfl⟩, ⟨_, _, _, _, rfl, rfl, rfl, rfl⟩⟩

theorem same_order_iff_newest : ∃ f f₁ f₂ : SharFile, f.projection = [[root, (10, 1)]] ∧
    (f₁.projection.flatten = f₂.projection.flatten ↔ Undisputed f root (12, 2)) := by
  obtain ⟨f, hf, hp, hroot, _, hx, ⟨o₁, f₁, o₂, f₂, h₁, h₂⟩, _⟩ := oneChild_reached
  exact ⟨f, f₁, f₂, hp, same_order_iff hf hroot hx (by decide) (by decide) h₁ h₂⟩

/-- The line break goes in front of the sibling that the ordinary character goes behind. -/
theorem break_ignores_sibling : ¬ ∀ (f f₁ f₂ : SharFile) (P x : Identity) (v w : Char)
    (hint hint' : ℕ) (o₁ o₂ : Outcome), Reached f → Live f.characters P → x ∉ f.characters →
    isLineBreak v = false → isLineBreak w = true →
    f.addCrdt hint (child v x P) = some (o₁, f₁) → f.addCrdt hint' (child w x P) = some (o₂, f₂) →
    f₁.projection.flatten = f₂.projection.flatten := by
  intro h
  obtain ⟨f, hf, _, hroot, hx, _, _, o₁, f₁, o₂, f₂, h₁, h₂, hp₁, hp₂⟩ := oneChild_reached
  have he := h f f₁ f₂ root (5, 2) 'x' '\n' 0 0 o₁ o₂ hf hroot hx (by decide) (by decide) h₁ h₂
  rw [hp₁, hp₂] at he
  exact absurd he (by decide)

end LineBreakOrder
