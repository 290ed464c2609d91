import QuantityLayout.Order.Basic
import QuantityLayout.Text.Identifier

set_option autoImplicit false

namespace QuantityLayout

structure Group (ν : Type) where
  entries : List (String × ν)
  order : Option Order
  deriving DecidableEq, Repr

namespace Group

inductive Fault where
  | notIdentifier : (name : String) → Fault
  | taken : (name : String) → Fault
  | missing : (name : String) → Fault
  | ordered : Fault
  deriving DecidableEq, Repr

variable {ν : Type}

def empty : Group ν := ⟨[], none⟩

def names (g : Group ν) : List String := g.entries.map Prod.fst

def size (g : Group ν) : Nat := g.entries.length

def get? (g : Group ν) (name : String) : Option ν := g.entries.lookup name

def contains (g : Group ν) (name : String) : Bool := g.names.contains name

def checkName (g : Group ν) (name : String) : Except Fault Unit :=
  if !Text.isIdentifier name then .error (.notIdentifier name)
  else if g.contains name then .error (.taken name)
  else .ok ()

def attach (g : Group ν) (name : String) (x : ν) : Except Fault (Group ν) :=
  (g.checkName name).map fun _ => ⟨g.entries ++ [(name, x)], g.order⟩

/-- The entry keeps its place, and the order follows the new name. -/
def relabel (g : Group ν) (old new : String) : Group ν :=
  ⟨g.entries.map fun (n, x) => (if n = old then new else n, x), g.order.map (·.rename old new)⟩

def rename (g : Group ν) (old new : String) : Except Fault (Group ν) :=
  if !g.contains old then .error (.missing old)
  else if old = new then .ok g
  else (g.checkName new).map fun _ => g.relabel old new

def setOrder (g : Group ν) (o : Order) : Except Fault (Group ν) :=
  if g.order.isSome then .error .ordered else .ok ⟨g.entries, some o⟩

theorem checkName_eq_ok {g : Group ν} {name : String} :
    g.checkName name = .ok () ↔ Text.isIdentifier name ∧ name ∉ g.names := by
  unfold checkName contains
  split <;> simp_all

theorem attach_eq_ok {g g' : Group ν} {name : String} {x : ν} :
    g.attach name x = .ok g' ↔
      (Text.isIdentifier name ∧ name ∉ g.names) ∧ g' = ⟨g.entries ++ [(name, x)], g.order⟩ := by
  unfold attach
  rw [← checkName_eq_ok]
  cases g.checkName name <;> simp [Except.map, eq_comm]

theorem names_relabel (g : Group ν) (old new : String) :
    (g.relabel old new).names = g.names.map fun n => if n = old then new else n := by
  simp [names, relabel, Function.comp_def]

end Group
end QuantityLayout
