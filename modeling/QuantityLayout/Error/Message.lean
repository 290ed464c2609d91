import QuantityLayout.Error.Basic

set_option autoImplicit false

namespace QuantityLayout

namespace Wording

def invalidPath (input reason : String) : String := s!"Invalid path '{input}': {reason}"

def badName (name : String) : String := invalidPath name "entry names must be identifiers"

def invalidShape (reason : String) : String := s!"Invalid shape: {reason}"

def duplicate (name : String) : String := s!"Name '{name}' is already attached in this group"

def notFound (place reason : String) : String := s!"Path '{place}' not found: {reason}"

def mismatch (place reason : String) : String := s!"Shape mismatch at '{place}': {reason}"

def bracketed (texts : List String) : String := "[" ++ String.intercalate ", " texts ++ "]"

def quoted (texts : List String) : String := bracketed (texts.map fun t => "\"" ++ t ++ "\"")

end Wording

open Wording

def Path.Fault.message : Path.Fault → String
  | .trailing input rest => invalidPath input s!"unexpected trailing characters '{rest}'"
  | .notIdentifier name => badName name

def Shape.Fault.message : Shape.Fault → String
  | .empty rows cols => invalidShape s!"extent {rows}x{cols} must be at least 1x1"
  | .tooLarge rows cols => invalidShape s!"extent {rows}x{cols} overflows the cell count"
  | .outside c rows cols => invalidShape s!"cell ({c.row}, {c.col}) lies outside a {rows}x{cols} shape"

def Leaf.Fault.message : Leaf.Fault → String
  | .count name s given => mismatch name s!"{s.render} shape needs {s.nnz} elements, got {given}"

def Group.Fault.message : Group.Fault → String
  | .notIdentifier name => badName name
  | .taken name => duplicate name
  | .missing name => notFound name "no entry with this name"
  | .ordered => "An order has already been set for this registry"

def Order.Fault.place (f : Order.Fault) (name : String) : String := Path.render (f.group ++ [.name name])

def Order.Fault.message (f : Order.Fault) : String :=
  match f.defect with
  | .repeated name => duplicate (f.place name)
  | .unattached name => notFound (f.place name) "order names an entry that is not attached"
  | .uneven names counts =>
    let shown := bracketed (counts.map toString)
    s!"Cannot interleave {quoted (names.map f.place)}: slot counts {shown} are incompatible"
  | .omitted names => s!"Order does not mention {quoted (names.map f.place)}"

def Layout.Conflict.message : Layout.Conflict → String
  | .repeated p => duplicate p.render
  | .enclosed p q => invalidPath p.render s!"lies under the leaf at '{q.render}'"

def Walk.Reason.message : Walk.Reason → String
  | .noEntry name => s!"no entry named '{name}'"
  | .noItem index length => s!"index {index} out of range for a list of {length}"
  | .noCell c s => s!"cell ({c.row}, {c.col}) outside {s.render} leaf"
  | .noElement k s => s!"element {k} outside {s.render} leaf"
  | .groupByName => "groups are entered by name"
  | .listByIndex => "lists are entered by index"
  | .leafByCell => "leaves are entered by cell or element"
  | .insideCell => "cannot descend into a cell"

def Absence.message : Absence → String
  | .notLeaf p => notFound p.render "does not address a leaf"
  | .noLeaves p => notFound p.render "subtree has no leaves"
  | .unlisted p => notFound p.render "leaf missing from layout"
  | .nonzero k total => notFound s!"#{k}" s!"nonzero index out of range (total {total})"

def Edit.message : Edit → String
  | .attach name => s!"attach '{name}'"
  | .rename old => s!"rename '{old}'"
  | .setOrder => "set the order"

def Misfit.message : Misfit → String
  | .extent s rows cols => s!"expected a {s.rows}x{s.cols} matrix, got {rows}x{cols}"
  | .notZero c => s!"nonzero value at structural zero ({c.row}, {c.col})"
  | .single rows cols => s!"expected a 1x1 matrix for a cell, got {rows}x{cols}"
  | .absent c => s!"cell ({c.row}, {c.col}) is a structural zero"
  | .subtree => "path addresses a group or list, not a leaf or cell"
  | .notLeaf => "path does not address a leaf"
  | .notCell => "path does not address a single cell"
  | .count expected given => s!"expected {expected} nonzeros, got {given}"

def Error.message : Error → String
  | .path f => f.message
  | .shape f => f.message
  | .leaf f => f.message
  | .group f => f.message
  | .order f => f.message
  | .layout c => c.message
  | .walk f => notFound f.path.render f.reason.message
  | .absent a => a.message
  | .frozen e => s!"Registry is frozen; cannot {e.message}"
  | .alreadyFrozen => "Registry is already frozen"
  | .notFrozen => "Registry is not frozen"
  | .misfit p m => mismatch p.render m.message

end QuantityLayout
