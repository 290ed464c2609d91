import QuantityLayout.Proofs.Order.Rounds
import Mathlib.Algebra.GroupWithZero.Nat
import Mathlib.Algebra.Order.Group.Nat
import Mathlib.Order.Interval.Set.Defs
/-!
Which numbers of slots a policy accepts, told by the positions that the slots take. Ragged numbers are accepted just when
taking turns leaves no gap before the end, equal ones when moreover no round is short.
-/
set_option autoImplicit false

namespace QuantityLayout.Policy

variable {counts : List Nat} {i i' j j' : Nat}

/-- Where the slots come when turns are taken: with `k` columns, slot `i` of column `j` comes at position `i * k + j`. -/
def positions (counts : List Nat) : Set Nat :=
  {p | ∃ j, ∃ h : j < counts.length, ∃ i < counts[j], p = i * counts.length + j}

theorem accepts_of_even (h : Even counts) : Interleaving.allowRagged.acceptsLengths counts := by
  cases counts with
  | nil => rfl
  | cons c cs =>
    simp only [Interleaving.acceptsLengths, Interleaving.acceptsBy, Bool.and_eq_true, descending_iff, List.all_eq_true,
      decide_eq_true_eq]
    exact ⟨h.descending, h.close c List.mem_cons_self⟩

end QuantityLayout.Policy
