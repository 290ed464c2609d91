import QuantityLayout.Order.Fits
import QuantityLayout.Tree.Node

set_option autoImplicit false

namespace QuantityLayout

variable {α : Type}

namespace Node

mutual
/-- The number of slots a node falls apart into; a group has as many as its own order makes of its entries. -/
def slotCount : Node α → Nat
  | .leaf _ => 1
  | .list ns => ns.length
  | .group ⟨es, none⟩ => es.length
  | .group ⟨es, some o⟩ => o.unitCount (slotCounts es)

def slotCounts : List (String × Node α) → List (String × Nat)
  | [] => []
  | (s, n) :: es => (s, n.slotCount) :: slotCounts es
end

mutual
def groups : Node α → List (Group (Node α))
  | .leaf _ => []
  | .list ns => itemGroups ns
  | .group ⟨es, o⟩ => ⟨es, o⟩ :: entryGroups es

def itemGroups : List (Node α) → List (Group (Node α))
  | [] => []
  | n :: ns => n.groups ++ itemGroups ns

def entryGroups : List (String × Node α) → List (Group (Node α))
  | [] => []
  | (_, n) :: es => n.groups ++ entryGroups es
end

theorem slotCounts_eq (es : List (String × Node α)) : slotCounts es = es.map fun e => (e.1, e.2.slotCount) := by
  induction es with
  | nil => rfl
  | cons e es ih => rw [slotCounts, ih, List.map_cons]

theorem itemGroups_eq (ns : List (Node α)) : itemGroups ns = ns.flatMap groups := by
  induction ns with
  | nil => rfl
  | cons n ns ih => rw [itemGroups, ih, List.flatMap_cons]

theorem entryGroups_eq (es : List (String × Node α)) : entryGroups es = es.flatMap fun e => e.2.groups := by
  induction es with
  | nil => rfl
  | cons e es ih => rw [entryGroups, ih, List.flatMap_cons]

end Node

def Group.WellOrdered (policy : Policy) (g : Group (Node α)) : Prop :=
  match g.order with
  | none => True
  | some o => o.Fits policy (Node.slotCounts g.entries)

instance (policy : Policy) (g : Group (Node α)) : Decidable (g.WellOrdered policy) :=
  match g with
  | ⟨_, none⟩ => .isTrue trivial
  | ⟨es, some o⟩ => inferInstanceAs (Decidable (o.Fits policy (Node.slotCounts es)))

end QuantityLayout
