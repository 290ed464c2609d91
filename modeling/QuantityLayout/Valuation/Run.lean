import QuantityLayout.Valuation.Snapshot

set_option autoImplicit false

namespace QuantityLayout.Valuation

variable {α : Type}

inductive Write where
  | set : Path → Matrix Binary64 → Write
  | setColumns : Path → ColumnMatrix Binary64 → Write
  | setNonzeros : Path → List Binary64 → Write
  | setScalar : Path → Binary64 → Write
  | fill : Path → Binary64 → Write

def Write.path : Write → Path
  | .set p _ | .setColumns p _ | .setNonzeros p _ | .setScalar p _ | .fill p _ => p

def write (v : Valuation α) : Write → Except Error (Valuation α)
  | .set p m => v.set p m
  | .setColumns p m => v.setColumns p m
  | .setNonzeros p xs => v.setNonzeros p xs
  | .setScalar p x => v.setScalar p x
  | .fill p x => v.fill p x

/-- For the present cell of a leaf that comes at a place in their sequence, its entry in a matrix; for a cell, the first
entry. -/
def entryFor (r : Registry α) (p : Path) (value? : Nat → Nat → Option Binary64) (n : Nat) : Option Binary64 :=
  match r.locate p with
  | .ok (.leaf f) => f.shape.cells[n]?.bind fun c => value? c.row c.col
  | _ => value? 0 0

/-- The number that is meant for the present cell that comes at a place among those that the path covers. -/
def Write.supply (r : Registry α) : Write → Nat → Option Binary64
  | .set p m => entryFor r p m.value?
  | .setColumns p m => entryFor r p m.value?
  | .setNonzeros _ xs => (xs[·]?)
  | .setScalar _ x | .fill _ x => fun _ => some x

inductive Action where
  | write : Write → Action
  | loadNonzero : List Binary64 → Action
  | load : (text : String) → Action
  | reset : Action

def act (v : Valuation α) : Action → Except Failure (Valuation α)
  | .write w => (v.write w).mapError .error
  | .loadNonzero xs => (v.loadNonzero xs).mapError .error
  | .load text => v.load text
  | .reset => .ok v.reset

def after (v : Valuation α) (a : Action) : Valuation α :=
  match v.act a with
  | .ok v' => v'
  | .error _ => v

def run (v : Valuation α) (as : List Action) : Valuation α := as.foldl after v

/-- Operations lead here from the zeros on a registry, whichever of them fail. -/
def Reachable (r : Registry α) (v : Valuation α) : Prop := ∃ v₀ as, zeros r = .ok v₀ ∧ v₀.run as = v

end QuantityLayout.Valuation
