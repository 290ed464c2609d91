import QuantityLayout.Binary64.Basic
import QuantityLayout.Matrix
import QuantityLayout.Registry.Query
/-!
Numbers staged on a frozen registry: for each leaf of the layout a buffer with one number for each present cell. A write
that fails yields no valuation, so the old one stays.
-/
set_option autoImplicit false

namespace QuantityLayout

structure Valuation (α : Type) where
  registry : Registry α
  layout : Layout
  frozen : registry.layout? = some layout
  buffers : List (List Binary64)

namespace Valuation

variable {α : Type}

def zeros (r : Registry α) : Except Error (Valuation α) :=
  match h : r.layout? with
  | some l => .ok ⟨r, l, h, l.slots.map fun s => List.replicate s.shape.nnz .zero⟩
  | none => .error .notFrozen

/-- What a path means for the buffers. -/
inductive Target where
  | leaf : (i : Nat) → Layout.Slot → Target
  | cell : (i : Nat) → Layout.Slot → Cell → Target
  | subtree : Target

def leafSlot (v : Valuation α) (p : Path) : Except Error (Nat × Layout.Slot) :=
  match v.layout.indexOf p, v.layout.slot? p with
  | some i, some s => .ok (i, s)
  | _, _ => .error (.absent (.unlisted p))

def target (v : Valuation α) (p : Path) : Except Error Target := do
  match ← v.registry.locate p with
  | .leaf _ => do
    let (i, s) ← v.leafSlot p
    .ok (.leaf i s)
  | .cell _ c => do
    let (i, s) ← v.leafSlot p.dropLast
    .ok (.cell i s c)
  | .group _ | .list _ => .ok .subtree

def buffer (v : Valuation α) (i : Nat) : List Binary64 := v.buffers[i]?.getD []

def setBuffer (v : Valuation α) (i : Nat) (xs : List Binary64) : Valuation α :=
  { v with buffers := v.buffers.set i xs }

def mapBuffer (v : Valuation α) (i : Nat) (f : List Binary64 → List Binary64) : Valuation α :=
  { v with buffers := v.buffers.modify i f }

def fillBuffer (x : Binary64) (xs : List Binary64) : List Binary64 := List.replicate xs.length x

def cellValue (s : Shape) (xs : List Binary64) (c : Cell) : Binary64 :=
  ((s.nzIndex c).bind (xs[·]?)).getD .zero

def setCell (v : Valuation α) (p : Path) (i : Nat) (s : Layout.Slot) (c : Cell) (x : Binary64) :
    Except Error (Valuation α) :=
  match s.shape.nzIndex c with
  | some k => .ok (v.mapBuffer i (·.set k x))
  | none => .error (.misfit p (.absent c))

def matrixCells (m : Matrix Binary64) : List (Cell × Binary64) :=
  m.data.zipIdx.map fun (x, k) => (⟨k / m.cols, k % m.cols⟩, x)

def matrixValue (m : Matrix Binary64) (c : Cell) : Binary64 :=
  if h : c.row < m.rows ∧ c.col < m.cols then m.entry ⟨c.row, h.1⟩ ⟨c.col, h.2⟩ else .zero

/-- Writes a whole leaf from a matrix that is zero where no cell is present, or a cell from a matrix of one entry. -/
def set (v : Valuation α) (p : Path) (m : Matrix Binary64) : Except Error (Valuation α) := do
  match ← v.target p with
  | .leaf i s =>
    if ¬(m.rows = s.shape.rows ∧ m.cols = s.shape.cols) then .error (.misfit p (.extent s.shape m.rows m.cols))
    else
      match (matrixCells m).find? fun (c, x) => !x.isZero && !s.shape.contains c with
      | some (c, _) => .error (.misfit p (.notZero c))
      | none => .ok (v.setBuffer i (s.shape.cells.map (matrixValue m)))
  | .cell i s c =>
    if ¬(m.rows = 1 ∧ m.cols = 1) then .error (.misfit p (.single m.rows m.cols))
    else v.setCell p i s c (matrixValue m ⟨0, 0⟩)
  | .subtree => .error (.misfit p .subtree)

def setColumns (v : Valuation α) (p : Path) (m : ColumnMatrix Binary64) : Except Error (Valuation α) :=
  v.set p m.toRows

def checkCount (v : Valuation α) (p : Path) (count : Nat) : Except Error Nat := do
  match ← v.target p with
  | .leaf i s =>
    if count = s.shape.nnz then .ok i else .error (.misfit p (.count s.shape.nnz count))
  | _ => .error (.misfit p .notLeaf)

def setNonzeros (v : Valuation α) (p : Path) (xs : List Binary64) : Except Error (Valuation α) := do
  let i ← v.checkCount p xs.length
  .ok (v.setBuffer i xs)

/-- Writes a cell, or a leaf of a single cell. -/
def setScalar (v : Valuation α) (p : Path) (x : Binary64) : Except Error (Valuation α) := do
  match ← v.target p with
  | .cell i s c => v.setCell p i s c x
  | .leaf i s => if s.shape.numel = 1 then v.setCell p i s ⟨0, 0⟩ x else .error (.misfit p .notCell)
  | .subtree => .error (.misfit p .notCell)

def fill (v : Valuation α) (p : Path) (x : Binary64) : Except Error (Valuation α) := do
  match ← v.target p with
  | .leaf i _ => .ok (v.mapBuffer i (fillBuffer x))
  | .cell i s c => v.setCell p i s c x
  | .subtree => .ok ((v.layout.leavesUnder p).foldl (fun v (i, _) => v.mapBuffer i (fillBuffer x)) v)

def leafMatrix (s : Shape) (xs : List Binary64) : Matrix Binary64 :=
  ⟨s.rows, s.cols, scatter (s.rows * s.cols) .zero (List.zipWith (fun c x => (c.row * s.cols + c.col, x)) s.cells xs),
    length_scatter ..⟩

def get (v : Valuation α) (p : Path) : Except Error (Matrix Binary64) := do
  match ← v.target p with
  | .leaf i s => .ok (leafMatrix s.shape (v.buffer i))
  | .cell i s c => .ok (.ofFn 1 1 fun _ _ => cellValue s.shape (v.buffer i) c)
  | .subtree => .error (.misfit p .subtree)

def getColumns (v : Valuation α) (p : Path) : Except Error (ColumnMatrix Binary64) := (v.get p).map Matrix.toColumns

def nonzeros (v : Valuation α) (p : Path) : Except Error (List Binary64) := do
  match ← v.target p with
  | .leaf i _ => .ok (v.buffer i)
  | _ => .error (.misfit p .notLeaf)

/-- The present cells of a leaf with their places among all cells of the layout. -/
def densePlaces (s : Layout.Slot) (xs : List Binary64) : List (Nat × Binary64) :=
  List.zipWith (fun c x => (word (s.numelOffset + s.shape.linearIndex c), x)) s.shape.cells xs

/-- Every cell in layout order. There is no result if a place lies beyond the last cell. -/
def flattenDense (v : Valuation α) : Option (List Binary64) :=
  scatter? v.layout.totalNumel .zero (List.zipWith densePlaces v.layout.slots v.buffers).flatten

def flattenNonzero (v : Valuation α) : List Binary64 := v.buffers.flatten

def loadNonzero (v : Valuation α) (xs : List Binary64) : Except Error (Valuation α) :=
  if xs.length = v.layout.totalNnz then
    .ok { v with buffers := v.layout.slots.map fun s => (xs.drop s.nnzOffset).take s.shape.nnz }
  else .error (.misfit [] (.count v.layout.totalNnz xs.length))

def reset (v : Valuation α) : Valuation α := { v with buffers := v.buffers.map (fillBuffer .zero) }

end Valuation
end QuantityLayout
