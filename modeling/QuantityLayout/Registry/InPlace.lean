import QuantityLayout.Registry.Run
import QuantityLayout.Tree.Indexed
/-!
A registry that is changed in place. Every operation works on the one registry there is; whatever it has written is
there afterwards, also when it fails.
-/
set_option autoImplicit false

namespace QuantityLayout.Registry

structure InPlace (α : Type) where
  root : Group.Indexed (Node α)
  policy : Policy
  layout? : Option Layout

namespace InPlace

variable {α : Type}

abbrev Program (α : Type) : Type → Type := EStateM Error (InPlace α)

def empty (policy : Policy) : InPlace α := ⟨.empty, policy, none⟩

def registry (s : InPlace α) : Registry α := ⟨s.root.group, s.policy, s.layout?⟩

def onRoot (p : Group.Indexed.Program (Node α) Unit) : Program α Unit := fun s =>
  match p.run s.root with
  | .ok () root => .ok () { s with root }
  | .error f root => .error (.group f) { s with root }

def edit (e : Edit) (p : Group.Indexed.Program (Node α) Unit) : Program α Unit := do
  if (← get).layout?.isSome then throw (.frozen e)
  onRoot p

def freeze : Program α Unit := do
  let s ← get
  if s.layout?.isSome then throw .alreadyFrozen
  match resolve s.policy s.root.group with
  | .error e => throw e
  | .ok l => modify fun s => { s with layout? := some l }

def perform : Action α → Program α Unit
  | .attach name n => edit (.attach name) (Group.Indexed.attach name n)
  | .rename old new => edit (.rename old) (Group.Indexed.rename old new)
  | .setOrder o => edit .setOrder (Group.Indexed.setOrder o)
  | .freeze => freeze

/-- The registry that is there after an operation, whether or not it failed. -/
def left : EStateM.Result Error (InPlace α) Unit → InPlace α
  | .ok () s => s
  | .error _ s => s

def answer : EStateM.Result Error (InPlace α) Unit → Except Error (Registry α)
  | .ok () s => .ok s.registry
  | .error e _ => .error e

def run (s : InPlace α) (as : List (Action α)) : InPlace α := as.foldl (fun s a => left ((perform a).run s)) s

def history (policy : Policy) (as : List (Action α)) : InPlace α := (empty policy).run as

end InPlace
end QuantityLayout.Registry
