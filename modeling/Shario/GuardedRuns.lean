import Mathlib.Data.List.Basic

/-! Runs of a step relation whose calls meet a guard, and the invariant rule for them. -/
namespace GuardedRuns

variable {σ α : Type*} {step : σ → α → σ → Prop} {G H : σ → α → Prop}

/-- Each call meets `G` in the state it finds. -/
inductive Run (step : σ → α → σ → Prop) (G : σ → α → Prop) : σ → List α → σ → Prop where
  | nil (s) : Run step G s [] s
  | cons {s t u a l} : G s a → step s a t → Run step G t l u → Run step G s (a :: l) u

theorem Run.invariant {J : σ → Prop} (hstep : ∀ s a t, J s → G s a → step s a t → J t)
    {s t : σ} {l : List α} (h : Run step G s l t) (hs : J s) : J t := by
  induction h with
  | nil => exact hs
  | cons hg ht _ ih => exact ih (hstep _ _ _ hs hg ht)

theorem Run.weaken (hg : ∀ s a, G s a → H s a) {s t : σ} {l : List α} (h : Run step G s l t) :
    Run step H s l t := by
  induction h with
  | nil => exact .nil _
  | cons h ht _ ih => exact .cons (hg _ _ h) ht ih

theorem Run.append {s t u : σ} {l m : List α} (h : Run step G s l t) (h' : Run step G t m u) :
    Run step G s (l ++ m) u := by
  induction h with
  | nil => exact h'
  | cons hg ht _ ih => exact .cons hg ht (ih h')

end GuardedRuns
