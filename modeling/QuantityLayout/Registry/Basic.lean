import QuantityLayout.Error.Basic
import QuantityLayout.Tree.Visit
/-!
Registries: a root group that grows by edits until it is frozen. Freezing fixes the layout, and from then on nothing
changes. An operation that fails yields no registry, so the old one stays.
-/
set_option autoImplicit false

namespace QuantityLayout

structure Registry (α : Type) where
  root : Group (Node α)
  policy : Policy
  layout? : Option Layout

namespace Registry

variable {α : Type}

def empty (policy : Policy) : Registry α := ⟨.empty, policy, none⟩

def isFrozen (r : Registry α) : Bool := r.layout?.isSome

/-- An edit of the root, which a frozen registry refuses before looking at it. -/
def edit (r : Registry α) (e : Edit) (change : Group (Node α) → Except Group.Fault (Group (Node α))) :
    Except Error (Registry α) :=
  if r.isFrozen then .error (.frozen e)
  else
    match change r.root with
    | .ok root => .ok { r with root }
    | .error f => .error (.group f)

def attach (r : Registry α) (name : String) (n : Node α) : Except Error (Registry α) :=
  r.edit (.attach name) (·.attach name n)

def rename (r : Registry α) (old new : String) : Except Error (Registry α) :=
  r.edit (.rename old) (·.rename old new)

def setOrder (r : Registry α) (o : Order) : Except Error (Registry α) :=
  r.edit .setOrder (·.setOrder o)

def resolve (policy : Policy) (root : Group (Node α)) : Except Error Layout :=
  match (Node.group root).visits policy with
  | .error f => .error (.order f)
  | .ok visits =>
    match Layout.ofLeaves (visits.map fun v => (v.path, v.leaf.shape)) with
    | .ok l => .ok l
    | .error c => .error (.layout c)

def freeze (r : Registry α) : Except Error (Registry α) :=
  if r.isFrozen then .error .alreadyFrozen
  else (resolve r.policy r.root).map fun l => { r with layout? := some l }

def layout (r : Registry α) : Except Error Layout :=
  match r.layout? with
  | some l => .ok l
  | none => .error .notFrozen

/-- A registry inside another one is a group that keeps its order. -/
def toNode (r : Registry α) : Node α := .group r.root

end Registry
end QuantityLayout
