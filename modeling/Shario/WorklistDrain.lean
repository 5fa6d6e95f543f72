import Mathlib.Data.Finmap
import Mathlib.Algebra.BigOperators.Group.Multiset.Basic
import Mathlib.Data.Multiset.Bind
import Mathlib.Tactic.Ring

/-! Draining a worklist: a loop that pops an item and processes it until nothing is left,
and waiting lists keyed by what an item waits for. -/
namespace WorklistDrain

section Drain

variable {σ α : Type*} (pop : σ → Option (α × σ)) (process : σ → α → Option σ)

/-- `none` is a failed step, or fuel that ran out. -/
def drain : (fuel : ℕ) → σ → Option σ
  | 0, _ => none
  | fuel + 1, s =>
    match pop s with
    | none => some s
    | some (a, s) => (process s a).bind (drain fuel)

/-- The states the loop goes through. -/
inductive Draining : σ → σ → Prop where
  | refl (s) : Draining s s
  | step {s s' t u a} : pop s = some (a, s') → process s' a = some t → Draining t u → Draining s u

variable {pop process}

theorem Draining.after {s s' t u : σ} {a : α} (h : Draining pop process s u)
    (hp : pop s = some (a, s')) (ht : process s' a = some t) : u = s ∨ Draining pop process t u := by
  cases h with
  | refl => exact Or.inl rfl
  | step hp' ht' h =>
    rw [hp, Option.some.injEq, Prod.mk.injEq] at hp'
    obtain ⟨rfl, rfl⟩ := hp'
    obtain rfl := Option.some.inj (ht.symm.trans ht')
    exact Or.inr h

theorem Draining.stopped {s t : σ} (h : Draining pop process s t) (hp : pop s = none) : t = s := by
  cases h with
  | refl => rfl
  | step hp' _ _ =>
    rw [hp] at hp'
    exact absurd hp' (by simp)

theorem drain_draining {fuel : ℕ} {s t : σ} (h : drain pop process fuel s = some t) :
    Draining pop process s t ∧ pop t = none := by
  induction fuel generalizing s with
  | zero => simp [drain] at h
  | succ fuel ih =>
    rw [drain] at h
    cases hp : pop s with
    | none =>
      rw [hp, Option.some.injEq] at h
      subst h
      exact ⟨.refl s, hp⟩
    | some as =>
      obtain ⟨a, s'⟩ := as
      simp only [hp, Option.bind_eq_some_iff] at h
      obtain ⟨u, hu, h⟩ := h
      exact ⟨.step hp hu (ih h).1, (ih h).2⟩

/-- Steps that keep `J` and decrease `μ` drain the worklist. -/
theorem drain_total {J : σ → Prop} {μ : σ → ℕ}
    (hstep : ∀ s a s', J s → pop s = some (a, s') → ∃ t, process s' a = some t ∧ J t ∧ μ t < μ s)
    {fuel : ℕ} {s : σ} (hs : J s) (hf : μ s < fuel) :
    ∃ t, drain pop process fuel s = some t ∧ J t ∧ pop t = none := by
  induction fuel generalizing s with
  | zero => omega
  | succ fuel ih =>
    rw [drain]
    cases hp : pop s with
    | none => exact ⟨s, rfl, hs, hp⟩
    | some as =>
      obtain ⟨a, s'⟩ := as
      obtain ⟨t, ht, hj, hlt⟩ := hstep s a s' hs hp
      obtain ⟨u, hu, hju, hpu⟩ := ih hj (by omega)
      exact ⟨u, by simp [ht, hu], hju, hpu⟩

theorem Draining.invariant {J : σ → Prop}
    (hstep : ∀ s a s' t, J s → pop s = some (a, s') → process s' a = some t → J t)
    {s t : σ} (h : Draining pop process s t) (hs : J s) : J t := by
  induction h with
  | refl => exact hs
  | step hp ht _ ih => exact ih (hstep _ _ _ _ hs hp ht)

theorem Draining.trans {s t u : σ} (h : Draining pop process s t)
    (k : Draining pop process t u) : Draining pop process s u := by
  induction h with
  | refl => exact k
  | step hp ht _ ih => exact .step hp ht (ih k)

/-- Whether `ok` holds in every round. -/
def everyRound (pop : σ → Option (α × σ)) (process : σ → α → Option σ) (ok : σ → α → Bool) :
    (fuel : ℕ) → σ → Bool
  | 0, _ => false
  | fuel + 1, s =>
    match pop s with
    | none => true
    | some (a, s) => ok s a && (process s a).all (everyRound pop process ok fuel)

theorem everyRound_draining {ok : σ → α → Bool} {fuel : ℕ} {s t t' : σ} {a : α}
    (h : everyRound pop process ok fuel s = true) (hd : Draining pop process s t)
    (hp : pop t = some (a, t')) : ok t' a = true := by
  induction hd generalizing fuel with
  | refl s =>
    cases fuel with
    | zero => simp [everyRound] at h
    | succ fuel =>
      rw [everyRound, hp] at h
      exact (Bool.and_eq_true_iff.mp h).1
  | step hp' ht _ ih =>
    cases fuel with
    | zero => simp [everyRound] at h
    | succ fuel =>
      rw [everyRound, hp'] at h
      have hrest := (Bool.and_eq_true_iff.mp h).2
      rw [ht] at hrest
      exact ih hrest hp

/-- The loop to its end, with the state and the item of each round. -/
inductive Traced (pop : σ → Option (α × σ)) (process : σ → α → Option σ) :
    σ → List (σ × α) → σ → Prop where
  | done {s} : pop s = none → Traced pop process s [] s
  | round {s s' t u a log} : pop s = some (a, s') → process s' a = some t →
      Traced pop process t log u → Traced pop process s ((s', a) :: log) u

theorem drain_traced {fuel : ℕ} {s t : σ} (h : drain pop process fuel s = some t) :
    ∃ log, Traced pop process s log t := by
  induction fuel generalizing s with
  | zero => simp [drain] at h
  | succ fuel ih =>
    rw [drain] at h
    cases hp : pop s with
    | none =>
      rw [hp, Option.some.injEq] at h
      exact ⟨[], h ▸ .done hp⟩
    | some as =>
      obtain ⟨a, s'⟩ := as
      simp only [hp, Option.bind_eq_some_iff] at h
      obtain ⟨u, hu, h⟩ := h
      obtain ⟨log, hlog⟩ := ih h
      exact ⟨_, .round hp hu hlog⟩

theorem Traced.accounts {β : Type*} {R : β → β → Prop} [IsTrans β R] (hrefl : ∀ b, R b b)
    {J : σ → Prop} {pending : σ → Multiset β} {book : σ → α → Multiset β}
    (hround : ∀ s a s' t, J s → pop s = some (a, s') → process s' a = some t →
      J t ∧ Multiset.Rel R (pending s) (pending t + book s' a))
    {s t : σ} {log : List (σ × α)} (h : Traced pop process s log t) (hs : J s) :
    J t ∧ Multiset.Rel R (pending s) (pending t + (log.map fun e => book e.1 e.2).sum) := by
  have hsame : ∀ m : Multiset β, Multiset.Rel R m m :=
    fun m => Multiset.rel_refl_of_refl_on fun b _ => hrefl b
  induction h with
  | done _ => exact ⟨hs, by simpa using hsame _⟩
  | @round s s' u t a log hp hu _ ih =>
    obtain ⟨hJ, hrel⟩ := hround s a s' u hs hp hu
    obtain ⟨hJt, hrest⟩ := ih hJ
    refine ⟨hJt, hrel.trans R ?_⟩
    rw [List.map_cons, List.sum_cons, Multiset.add_comm (book s' a), ← Multiset.add_assoc]
    exact hrest.add (hsame (book s' a))

end Drain

section Waiting

variable {κ α : Type} [DecidableEq κ]

abbrev Backlog (κ α : Type) := Finmap (fun _ : κ => List α)

def push (m : Backlog κ α) (k : κ) (a : α) : Backlog κ α :=
  m.insert k ((m.lookup k).getD [] ++ [a])

def Waits (m : Backlog κ α) (k : κ) (a : α) : Prop := ∃ l, m.lookup k = some l ∧ a ∈ l

def Tight (m : Backlog κ α) : Prop := ∀ k l, m.lookup k = some l → l ≠ []

def size (m : Backlog κ α) : ℕ := (m.entries.map fun e => e.2.length).sum

def contents (m : Backlog κ α) : Multiset α := m.entries.bind fun e => (e.2 : Multiset α)

variable {m : Backlog κ α} {k j : κ} {a b : α} {l : List α}

theorem waits_push : Waits (push m k a) j b ↔ Waits m j b ∨ j = k ∧ b = a := by
  by_cases hj : j = k
  · subst hj
    cases hm : m.lookup j <;> simp [Waits, push, hm]
  · simp [Waits, push, Finmap.lookup_insert_of_ne _ hj, hj]

theorem waits_erase : Waits (m.erase k) j b ↔ Waits m j b ∧ j ≠ k := by
  by_cases hj : j = k
  · subst hj
    simp [Waits]
  · simp [Waits, Finmap.lookup_erase_ne hj, hj]

theorem tight_empty : Tight (∅ : Backlog κ α) := by simp [Tight]

theorem tight_push (h : Tight m) : Tight (push m k a) := by
  intro j l hl
  by_cases hj : j = k
  · subst hj
    simp only [push, Finmap.lookup_insert, Option.some.injEq] at hl
    subst hl
    simp
  · rw [push, Finmap.lookup_insert_of_ne _ hj] at hl
    exact h j l hl

theorem tight_erase (h : Tight m) : Tight (m.erase k) := by
  intro j l hl
  by_cases hj : j = k
  · subst hj
    simp at hl
  · rw [Finmap.lookup_erase_ne hj] at hl
    exact h j l hl

theorem empty_of_tight (h : Tight m) (hw : ∀ k a, ¬ Waits m k a) : m = ∅ := by
  refine Finmap.ext_lookup fun k => ?_
  cases hm : m.lookup k with
  | none => simp
  | some l =>
    cases l with
    | nil => exact absurd rfl (h k [] hm)
    | cons a l => exact absurd ⟨_, hm, by simp⟩ (hw k a)

omit [DecidableEq κ] in
theorem size_eq_card (m : Backlog κ α) : size m = (contents m).card := by
  simp [size, contents, Multiset.card_bind, Function.comp_def]

omit [DecidableEq κ] in
@[simp] theorem contents_empty : contents (∅ : Backlog κ α) = 0 := rfl

theorem contents_insert_new (hk : k ∉ m) : contents (m.insert k l) = l + contents m := by
  simp [contents, Finmap.entries_insert_of_notMem hk]

theorem contents_erase (h : m.lookup k = some l) : contents m = l + contents (m.erase k) := by
  have hm : m = (m.erase k).insert k l := by
    refine Finmap.ext_lookup fun j => ?_
    by_cases hj : j = k
    · subst hj
      simp [h]
    · rw [Finmap.lookup_insert_of_ne _ hj, Finmap.lookup_erase_ne hj]
  conv_lhs => rw [hm]
  exact contents_insert_new (by simp)

theorem contents_push : contents (push m k a) = a ::ₘ contents m := by
  have hp : push m k a = (m.erase k).insert k ((m.lookup k).getD [] ++ [a]) := by
    refine Finmap.ext_lookup fun j => ?_
    by_cases hj : j = k
    · subst hj
      simp [push]
    · rw [push, Finmap.lookup_insert_of_ne _ hj, Finmap.lookup_insert_of_ne _ hj,
        Finmap.lookup_erase_ne hj]
  rw [hp, contents_insert_new (by simp)]
  cases hm : m.lookup k with
  | none =>
    have he : m.erase k = m := by
      refine Finmap.ext_lookup fun j => ?_
      by_cases hj : j = k
      · subst hj
        simp [hm]
      · rw [Finmap.lookup_erase_ne hj]
    simp [he]
  | some l =>
    rw [contents_erase hm, Option.getD_some, ← Multiset.coe_add, Multiset.coe_singleton,
      Multiset.add_comm (l : Multiset α), Multiset.add_assoc, Multiset.singleton_add]

end Waiting

section Rounds

variable {α : Type*}

/-- A bound for the rounds that the worklist `l` and the waiting items `m` can take: each round
settles an item or takes one off the list for good, and only settling makes the list longer. -/
def roundBound (l : List α) (m : Multiset α) : ℕ :=
  (l.length + m.card) * (l.length + m.card + 1) + l.length

variable {a b : α} {l l' rest : List α} {m m' : Multiset α}

theorem rounds_settled (h : (l' : Multiset α) + m' = rest + m) :
    roundBound l' m' < roundBound (a :: rest) m := by
  have hc := congrArg Multiset.card h
  simp only [Multiset.card_add, Multiset.coe_card] at hc
  have hcard : rest.length + 1 + m.card = rest.length + m.card + 1 := by omega
  simp only [roundBound, List.length_cons, hc, hcard]
  generalize rest.length + m.card = n at hc
  have hexp : (n + 1) * (n + 1 + 1) = n * (n + 1) + 2 * (n + 1) := by ring
  omega

theorem rounds_deferred : roundBound rest (b ::ₘ m) < roundBound (a :: rest) m := by
  have hcard : rest.length + (m.card + 1) = rest.length + 1 + m.card := by omega
  simp only [roundBound, List.length_cons, Multiset.card_cons, hcard]
  omega

end Rounds

end WorklistDrain
