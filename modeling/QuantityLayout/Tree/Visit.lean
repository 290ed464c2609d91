import QuantityLayout.Order.Resolve
import QuantityLayout.Tree.Node
/-!
The sequence in which the leaves of a tree are visited. A node falls apart into slots: the items of a list, the
entries of a group as its order has them, the leaf itself; visiting the node is visiting its slots in turn.
-/
set_option autoImplicit false

namespace QuantityLayout

structure Visit (α : Type) where
  path : Path
  leaf : Leaf α

abbrev Visits (α : Type) := Except Order.Fault (List (Visit α))

variable {α : Type}

def Visit.under (s : Step) (v : Visit α) : Visit α := ⟨s :: v.path, v.leaf⟩

def Visits.under (s : Step) : Visits α → Visits α
  | .ok vs => .ok (vs.map (Visit.under s))
  | .error f => .error (f.under s)

def Visits.chain : List (Visits α) → Visits α
  | [] => .ok []
  | .ok first :: vs => (Visits.chain vs).map (first ++ ·)
  | .error f :: _ => .error f

/-- What a group's order needs to know of a node that is reached by a step. -/
def Visits.column (s : Step) : Except Order.Fault (List (Visits α)) → Order.Column (Visits α)
  | .ok slots => ⟨(Visits.chain slots).under s, .ok (slots.map (Visits.under s))⟩
  | .error f => ⟨.error (f.under s), .error (f.under s)⟩

namespace Node

mutual
def slots (policy : Policy) : Node α → Except Order.Fault (List (Visits α))
  | .leaf l => .ok [.ok [⟨[], l⟩]]
  | .list ns => .ok (itemVisits policy 0 ns)
  | .group ⟨es, o⟩ => Order.resolve? policy (columns policy es) o

def itemVisits (policy : Policy) (i : Nat) : List (Node α) → List (Visits α)
  | [] => []
  | n :: ns => (Visits.column (.index i) (n.slots policy)).whole :: itemVisits policy (i + 1) ns

def columns (policy : Policy) : List (String × Node α) → List (String × Order.Column (Visits α))
  | [] => []
  | (s, n) :: es => (s, Visits.column (.name s) (n.slots policy)) :: columns policy es
end

/-- Every leaf with its path, or the first fault that is met. -/
def visits (policy : Policy) (n : Node α) : Visits α :=
  match n.slots policy with
  | .ok vs => Visits.chain vs
  | .error f => .error f

theorem whole_column (policy : Policy) (s : Step) (n : Node α) :
    (Visits.column s (n.slots policy)).whole = (n.visits policy).under s := by
  unfold visits
  cases n.slots policy <;> rfl

theorem itemVisits_eq (policy : Policy) (i : Nat) (ns : List (Node α)) :
    itemVisits policy i ns = (ns.zipIdx i).map fun (n, j) => (n.visits policy).under (.index j) := by
  induction ns generalizing i with
  | nil => rfl
  | cons n ns ih => rw [itemVisits, ih, whole_column, List.zipIdx_cons, List.map_cons]

theorem columns_eq (policy : Policy) (es : List (String × Node α)) :
    columns policy es = es.map fun e => (e.1, Visits.column (.name e.1) (e.2.slots policy)) := by
  induction es with
  | nil => rfl
  | cons e es ih => rw [columns, ih, List.map_cons]

end Node
end QuantityLayout
