import QuantityLayout.Order.Basic
import QuantityLayout.Policy
import Mathlib.Algebra.GroupWithZero.Nat

set_option autoImplicit false

namespace QuantityLayout.Order

def countOf (counts : List (String × Nat)) (name : String) : Nat := (counts.lookup name).getD 0

/-- A name is one unit; a tuple has the slots of all its entries as units. -/
def Item.unitCount (counts : List (String × Nat)) : Item → Nat
  | .name _ => 1
  | .interleave ns => (ns.map (countOf counts)).sum

def unitCount (counts : List (String × Nat)) (o : Order) : Nat :=
  (o.items.map (Item.unitCount counts)).sum + (counts.filter fun e => e.1 ∉ o.names).length

def Item.tuple? : Item → Option (List String)
  | .name _ => none
  | .interleave ns => some ns

def tuples (o : Order) : List (List String) := o.items.filterMap Item.tuple?

structure Fits (policy : Policy) (counts : List (String × Nat)) (o : Order) : Prop where
  distinct : o.names.Nodup
  attached : ∀ n ∈ o.names, n ∈ counts.map Prod.fst
  accepted : ∀ ns ∈ o.tuples, policy.interleaving.acceptsLengths (ns.map (countOf counts))
  complete : policy.omission = .requireComplete → ∀ n ∈ counts.map Prod.fst, n ∈ o.names

instance (policy : Policy) (counts : List (String × Nat)) (o : Order) : Decidable (o.Fits policy counts) :=
  decidable_of_iff
    (o.names.Nodup ∧ (∀ n ∈ o.names, n ∈ counts.map Prod.fst) ∧
      (∀ ns ∈ o.tuples, policy.interleaving.acceptsLengths (ns.map (countOf counts))) ∧
      (policy.omission = .requireComplete → ∀ n ∈ counts.map Prod.fst, n ∈ o.names))
    ⟨fun ⟨hd, ha, ht, hc⟩ => ⟨hd, ha, ht, hc⟩, fun h => ⟨h.distinct, h.attached, h.accepted, h.complete⟩⟩

theorem mem_tuples {o : Order} {ns : List String} : ns ∈ o.tuples ↔ .interleave ns ∈ o.items := by
  unfold tuples
  rw [List.mem_filterMap]
  refine ⟨?_, fun h => ⟨_, h, rfl⟩⟩
  intro hx
  obtain ⟨i, hi, h⟩ := hx
  cases i with
  | name n => cases h
  | interleave ms =>
    cases h
    exact hi

end QuantityLayout.Order
