import Mathlib.Logic.Basic

/-! Operations that each need one key and may give another. What a replica knows, and which
operations it has applied, is a matter of the set of operations alone, once those that still
wait are those whose need is not known. -/
namespace CausalClosure

variable {κ μ : Type*}

/-- The keys that the operations lead to from a base. -/
inductive Available (base : κ → Prop) (needs : μ → κ) (gives : μ → Option κ) (ops : μ → Prop) :
    κ → Prop where
  | base {k} : base k → Available base needs gives ops k
  | given {a k} : ops a → gives a = some k → Available base needs gives ops (needs a) →
      Available base needs gives ops k

/-- The operations that can be applied in some order. -/
def Applied (base : κ → Prop) (needs : μ → κ) (gives : μ → Option κ) (ops : μ → Prop)
    (a : μ) : Prop :=
  ops a ∧ Available base needs gives ops (needs a)

variable {base known : κ → Prop} {needs : μ → κ} {gives : μ → Option κ}
  {ops ops' waiting : μ → Prop} {a : μ} {k : κ}

/-- A replica that has nothing left to try: an operation waits for an unknown key, or has
given what it gives. -/
structure Settled (base : κ → Prop) (needs : μ → κ) (gives : μ → Option κ) (ops waiting : μ → Prop)
    (known : κ → Prop) : Prop where
  kept : ∀ k, base k → known k
  blocked : ∀ a, waiting a → ¬ known (needs a)
  done : ∀ a, ops a → ¬ waiting a → known (needs a) ∧ ∀ k, gives a = some k → known k
  sourced : ∀ k, known k → Available base needs gives ops k

namespace Settled

variable (h : Settled base needs gives ops waiting known)
include h

end Settled

end CausalClosure
