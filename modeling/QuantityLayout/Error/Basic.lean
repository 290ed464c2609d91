import QuantityLayout.Layout.Basic
import QuantityLayout.Order.Resolve
import QuantityLayout.Tree.Walk

set_option autoImplicit false

namespace QuantityLayout

inductive Edit where
  | attach : (name : String) → Edit
  | rename : (old : String) → Edit
  | setOrder : Edit
  deriving DecidableEq, Repr

/-- Why a query finds nothing, beyond a path that leads nowhere. -/
inductive Absence where
  | notLeaf : Path → Absence
  | noLeaves : Path → Absence
  | unlisted : Path → Absence
  | nonzero : (k total : Nat) → Absence
  deriving DecidableEq, Repr

inductive Misfit where
  | extent : Shape → (rows cols : Nat) → Misfit
  | notZero : Cell → Misfit
  | single : (rows cols : Nat) → Misfit
  | absent : Cell → Misfit
  | subtree : Misfit
  | notLeaf : Misfit
  | notCell : Misfit
  | count : (expected given : Nat) → Misfit
  deriving DecidableEq

inductive Error where
  | path : Path.Fault → Error
  | shape : Shape.Fault → Error
  | leaf : Leaf.Fault → Error
  | group : Group.Fault → Error
  | order : Order.Fault → Error
  | layout : Layout.Conflict → Error
  | walk : Walk.Fault → Error
  | absent : Absence → Error
  | frozen : Edit → Error
  | alreadyFrozen : Error
  | notFrozen : Error
  | misfit : Path → Misfit → Error
  deriving DecidableEq

inductive Error.Kind where
  | invalidShape
  | duplicateName
  | immutableRegistry
  | orderAlreadySet
  | incompatibleInterleave
  | alreadyFrozen
  | pathNotFound
  | registryNotFrozen
  | shapeMismatch
  | incompleteOrder
  | invalidPath
  deriving DecidableEq, Repr

def Group.Fault.kind : Group.Fault → Error.Kind
  | .notIdentifier _ => .invalidPath
  | .taken _ => .duplicateName
  | .missing _ => .pathNotFound
  | .ordered => .orderAlreadySet

def Order.Defect.kind : Order.Defect → Error.Kind
  | .repeated _ => .duplicateName
  | .unattached _ => .pathNotFound
  | .uneven _ _ => .incompatibleInterleave
  | .omitted _ => .incompleteOrder

def Layout.Conflict.kind : Layout.Conflict → Error.Kind
  | .repeated _ => .duplicateName
  | .enclosed _ _ => .invalidPath

def Error.kind : Error → Error.Kind
  | .path _ => .invalidPath
  | .shape _ => .invalidShape
  | .leaf _ => .shapeMismatch
  | .group f => f.kind
  | .order f => f.defect.kind
  | .layout c => c.kind
  | .walk _ => .pathNotFound
  | .absent _ => .pathNotFound
  | .frozen _ => .immutableRegistry
  | .alreadyFrozen => .alreadyFrozen
  | .notFrozen => .registryNotFrozen
  | .misfit _ _ => .shapeMismatch

end QuantityLayout
