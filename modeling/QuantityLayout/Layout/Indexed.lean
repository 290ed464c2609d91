import QuantityLayout.Layout.Json
import Std.Data.HashMap
/-!
Layouts as they are kept: beside the slots there is a table with the position of every path, and one with the leaf and
the position in it of every present cell. The tables grow leaf by leaf; reading a layout builds them anew.
-/
set_option autoImplicit false

namespace QuantityLayout

deriving instance Hashable for Step

structure Layout.Indexed where
  slots : List Layout.Slot
  positions : Std.HashMap Path Nat
  nonzeros : List (Nat × Nat)
  totalNumel : Nat
  totalNnz : Nat

namespace Layout.Indexed

open Json

def empty : Indexed := ⟨[], ∅, [], 0, 0⟩

def layout (x : Indexed) : Layout := ⟨x.slots, x.totalNumel, x.totalNnz⟩

/-- The leaf takes the next position. A path that has a position is refused. -/
def add (x : Indexed) (leaf : Path × Shape) : Except Conflict Indexed :=
  if x.positions.contains leaf.1 then .error (.repeated leaf.1)
  else
    .ok
      { slots := x.slots ++ [⟨leaf.1, leaf.2, x.totalNumel, x.totalNnz⟩]
        positions := x.positions.insert leaf.1 x.slots.length
        nonzeros := x.nonzeros ++ (List.range leaf.2.nnz).map fun j => (x.slots.length, j)
        totalNumel := word (x.totalNumel + leaf.2.numel)
        totalNnz := x.totalNnz + leaf.2.nnz }

/-- Looks for the initial parts of a path in the table, from one step on up to all steps but one. -/
def enclosing? (x : Indexed) (p : Path) : Option Path :=
  ((List.range' 1 (p.length - 1)).find? fun n => x.positions.contains (p.take n)).map (p.take ·)

def findEnclosed (x : Indexed) : List Slot → Option Conflict
  | [] => none
  | s :: rest =>
    match x.enclosing? s.path with
    | some q => some (.enclosed s.path q)
    | none => x.findEnclosed rest

def ofLeaves (leaves : List (Path × Shape)) : Except Conflict Indexed := do
  let x ← leaves.foldlM add empty
  match x.findEnclosed x.slots with
  | some c => .error c
  | none => .ok x

def check (read : Layout) : Except Complaint Indexed :=
  match ofLeaves read.leaves with
  | .error c => .error (.conflict c)
  | .ok x => if x.layout = read then .ok x else .error .offsets

def ofFields : Layout.Fields → Except Complaint Indexed
  | ⟨some totalNumel, some totalNnz, some slots⟩ => check ⟨slots, totalNumel, totalNnz⟩
  | _ => .error .form

def ofJson : Decoder Indexed := Decoder.record Fields.all ⟨none, none, none⟩ ofFields

def save (x : Indexed) : String := x.layout.save

def load (text : String) : Except Rejection Indexed := decode ofJson text

end Layout.Indexed
end QuantityLayout
