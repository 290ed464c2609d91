import QuantityLayout.Scatter
import QuantityLayout.Shape.Cell
import QuantityLayout.Text.Numeral
/-!
Shapes: the extent of a matrix and the cells that are present in it, with the two numberings of the cells: all of them in
column-major order, and the present ones among them. Present cells are found by halving, too, as they are sorted.
-/
set_option autoImplicit false

namespace QuantityLayout

/-- At least one row and one column, and the number of cells is a count. -/
def IsExtent (rows cols : Nat) : Prop := 0 < rows ∧ 0 < cols ∧ rows * cols < countBound

instance (rows cols : Nat) : Decidable (IsExtent rows cols) := inferInstanceAs (Decidable (_ ∧ _ ∧ _))

/-- The cells that are present, in column-major order without repeats. -/
structure Shape where
  rows : Nat
  cols : Nat
  cells : List Cell
  extent : IsExtent rows cols
  inside : ∀ c ∈ cells, c.row < rows ∧ c.col < cols
  sorted : cells.Pairwise Cell.Before
  deriving DecidableEq

namespace Shape

inductive Fault where
  | empty : (rows cols : Nat) → Fault
  | tooLarge : (rows cols : Nat) → Fault
  | outside : (c : Cell) → (rows cols : Nat) → Fault
  deriving DecidableEq, Repr

def withExtent {α : Type} (rows cols : Nat) (make : IsExtent rows cols → Except Fault α) : Except Fault α :=
  if h : IsExtent rows cols then make h
  else if rows = 0 ∨ cols = 0 then .error (.empty rows cols)
  else .error (.tooLarge rows cols)

def dense (rows cols : Nat) : Except Fault Shape :=
  withExtent rows cols fun h =>
    .ok ⟨rows, cols, Cell.all rows cols, h, fun _ hc => Cell.mem_all.mp hc, Cell.pairwise_all rows cols⟩

/-- Cells in any order, with repeats; the first one that lies outside is the complaint. -/
def ofCells (rows cols : Nat) (cells : List Cell) : Except Fault Shape :=
  withExtent rows cols fun h =>
    match hf : cells.find? fun c => !(c.row < rows && c.col < cols) with
    | some c => .error (.outside c rows cols)
    | none =>
      have hin : ∀ c ∈ Cell.arrange cells, c.row < rows ∧ c.col < cols := fun c hc => by
        simpa using List.find?_eq_none.mp hf c (Cell.mem_arrange.mp hc)
      .ok ⟨rows, cols, Cell.arrange cells, h, hin, Cell.pairwise_arrange cells⟩

def scalar : Shape := ⟨1, 1, [⟨0, 0⟩], by decide, by decide, by decide⟩

def column (n : Nat) : Except Fault Shape := dense n 1

def diagonal (n : Nat) : Except Fault Shape :=
  withExtent n n fun _ => ofCells n n ((List.range n).map fun i => ⟨i, i⟩)

def lowerTriangular (n : Nat) : Except Fault Shape :=
  withExtent n n fun _ =>
    ofCells n n ((List.range n).flatMap fun c => (List.range' c (n - c)).map fun r => ⟨r, c⟩)

def numel (s : Shape) : Nat := s.rows * s.cols

def nnz (s : Shape) : Nat := s.cells.length

def isDense (s : Shape) : Bool := s.nnz == s.numel

def render (s : Shape) : String :=
  if s.isDense then s!"{s.rows}x{s.cols}" else s!"{s.rows}x{s.cols} ({s.nnz} nz)"

def nzIndex (s : Shape) (c : Cell) : Option Nat := s.cells.idxOf? c

def contains (s : Shape) (c : Cell) : Bool := s.cells.contains c

theorem contains_iff (s : Shape) (c : Cell) : s.contains c ↔ c ∈ s.cells := by simp [contains]

/-- The number of present cells before a cell, present or not. -/
def rank (s : Shape) (c : Cell) : Nat := s.cells.countP fun d => d.Before c

def linearIndex (s : Shape) (c : Cell) : Nat := c.col * s.rows + c.row

def cellAt (s : Shape) (k : Nat) : Option Cell :=
  if k < s.numel then some ⟨k % s.rows, k / s.rows⟩ else none

def denseToNz (s : Shape) : List (Option Nat) :=
  scatter s.numel none (s.cells.zipIdx.map fun (c, k) => (s.linearIndex c, some k))

theorem length_denseToNz (s : Shape) : s.denseToNz.length = s.numel := length_scatter ..

end Shape

/-- Where a test that holds at first and fails from some position on begins to fail, among `size` positions from `lo` on. -/
def halve (test : Nat → Bool) (lo size : Nat) : Nat :=
  if size = 0 then lo
  else
    let mid := lo + size / 2
    if test mid then halve test (mid + 1) (size - size / 2 - 1) else halve test lo (size / 2)
  termination_by size

namespace Shape

def beforeAt (s : Shape) (c : Cell) (k : Nat) : Bool := s.cells[k]?.any fun d => d.Before c

def partitionPoint (s : Shape) (c : Cell) : Nat := halve (s.beforeAt c) 0 s.nnz

def search (s : Shape) (c : Cell) : Option Nat :=
  let k := s.partitionPoint c
  if s.cells[k]? = some c then some k else none

end Shape
end QuantityLayout
