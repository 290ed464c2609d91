import QuantityLayout.Tree.Node

set_option autoImplicit false

namespace QuantityLayout

def Order.completed (o : Order) (names : List String) : Order :=
  ⟨o.items ++ (names.filter (· ∉ o.names)).map .name⟩

variable {α : Type}

namespace Node

mutual
def completed : Node α → Node α
  | .leaf l => .leaf l
  | .list ns => .list (completedItems ns)
  | .group ⟨es, o⟩ => .group ⟨completedEntries es, o.map (·.completed (es.map Prod.fst))⟩

def completedItems : List (Node α) → List (Node α)
  | [] => []
  | n :: ns => n.completed :: completedItems ns

def completedEntries : List (String × Node α) → List (String × Node α)
  | [] => []
  | (s, n) :: es => (s, n.completed) :: completedEntries es
end

theorem completedItems_eq (ns : List (Node α)) : completedItems ns = ns.map completed := by
  induction ns with
  | nil => rfl
  | cons n ns ih => rw [completedItems, ih, List.map_cons]

theorem completedEntries_eq (es : List (String × Node α)) : completedEntries es = es.map fun e => (e.1, e.2.completed) := by
  induction es with
  | nil => rfl
  | cons e es ih => rw [completedEntries, ih, List.map_cons]

theorem names_completedEntries (es : List (String × Node α)) : (completedEntries es).map Prod.fst = es.map Prod.fst := by
  rw [completedEntries_eq, List.map_map]
  rfl

end Node

def Group.completed (g : Group (Node α)) : Group (Node α) :=
  ⟨Node.completedEntries g.entries, g.order.map (·.completed g.names)⟩

theorem Node.completed_group (g : Group (Node α)) : (Node.group g).completed = .group g.completed := rfl

end QuantityLayout
