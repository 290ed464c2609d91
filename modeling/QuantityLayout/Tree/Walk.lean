import QuantityLayout.Path.Basic
import QuantityLayout.Tree.Node

set_option autoImplicit false

namespace QuantityLayout

/-- Where a path can lead. A cell lies within the extent of its leaf. -/
inductive Place (α : Type) where
  | group : Group (Node α) → Place α
  | list : List (Node α) → Place α
  | leaf : Leaf α → Place α
  | cell : Leaf α → Cell → Place α

inductive Walk.Reason where
  | noEntry : (name : String) → Walk.Reason
  | noItem : (index length : Nat) → Walk.Reason
  | noCell : Cell → Shape → Walk.Reason
  | noElement : (k : Nat) → Shape → Walk.Reason
  | groupByName : Walk.Reason
  | listByIndex : Walk.Reason
  | leafByCell : Walk.Reason
  | insideCell : Walk.Reason
  deriving DecidableEq

structure Walk.Fault where
  path : Path
  reason : Walk.Reason
  deriving DecidableEq

def Walk.Fault.under (s : Step) (f : Walk.Fault) : Walk.Fault := ⟨s :: f.path, f.reason⟩

variable {α : Type}

def Node.place : Node α → Place α
  | .leaf l => .leaf l
  | .list ns => .list ns
  | .group g => .group g

namespace Place

open Walk

def step : Place α → Step → Except Reason (Place α)
  | .group g, .name n =>
    match g.get? n with
    | some x => .ok x.place
    | none => .error (.noEntry n)
  | .list ns, .index i =>
    match ns[i]? with
    | some x => .ok x.place
    | none => .error (.noItem i ns.length)
  | .leaf l, .cell r c =>
    if r < l.shape.rows ∧ c < l.shape.cols then .ok (.cell l ⟨r, c⟩) else .error (.noCell ⟨r, c⟩ l.shape)
  | .leaf l, .element k =>
    match l.shape.cellAt k with
    | some c => .ok (.cell l c)
    | none => .error (.noElement k l.shape)
  | .group _, _ => .error .groupByName
  | .list _, _ => .error .listByIndex
  | .leaf _, _ => .error .leafByCell
  | .cell _ _, _ => .error .insideCell

def walk : Place α → Path → Except Fault (Place α)
  | x, [] => .ok x
  | x, s :: p =>
    match x.step s with
    | .ok y => (y.walk p).mapError (Fault.under s)
    | .error r => .error ⟨[s], r⟩

end Place

/-- What is found at a path: a cell is an element of its leaf or a structural zero. -/
inductive Found (α : Type) where
  | group : Group (Node α) → Found α
  | list : List (Node α) → Found α
  | leaf : Leaf α → Found α
  | element : α → Found α
  | structuralZero : Found α

def Place.found : Place α → Found α
  | .group g => .group g
  | .list ns => .list ns
  | .leaf l => .leaf l
  | .cell l c =>
    match l.element c with
    | some x => .element x
    | none => .structuralZero

/-- The one element that is meant; a leaf of a single present cell stands for its element. -/
def Found.asElement : Found α → Option α
  | .element x => some x
  | .leaf l => if l.isScalar then l.elements.head? else none
  | _ => none

end QuantityLayout
