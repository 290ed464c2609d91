import QuantityLayout.Registry.Basic
import QuantityLayout.Tree.WellFormed

set_option autoImplicit false

namespace QuantityLayout.Registry

variable {α : Type}

inductive Action (α : Type) where
  | attach : (name : String) → Node α → Action α
  | rename : (old new : String) → Action α
  | setOrder : Order → Action α
  | freeze : Action α

def act (r : Registry α) : Action α → Except Error (Registry α)
  | .attach name n => r.attach name n
  | .rename old new => r.rename old new
  | .setOrder o => r.setOrder o
  | .freeze => r.freeze

def after (r : Registry α) (a : Action α) : Registry α :=
  match r.act a with
  | .ok r' => r'
  | .error _ => r

def run (r : Registry α) (as : List (Action α)) : Registry α := as.foldl after r

def Action.WellFormed : Action α → Prop
  | .attach _ n => n.WellFormed
  | _ => True

/-- Operations on well formed nodes lead here from an empty registry, whichever of them fail. -/
def Reachable (r : Registry α) : Prop :=
  ∃ policy as, (∀ a ∈ as, Action.WellFormed a) ∧ (empty policy).run as = r

theorem run_append (r : Registry α) (as bs : List (Action α)) : r.run (as ++ bs) = (r.run as).run bs :=
  List.foldl_append

end QuantityLayout.Registry
