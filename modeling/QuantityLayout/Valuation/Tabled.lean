import QuantityLayout.Registry.Tabled
/-!
Numbers on a registry whose layout is kept with tables. A path leads to the position of a leaf, and both the slot of the
leaf and its buffer are taken at this position without a test; so are the entries of matrices. What is written in place
is written as before.
-/
set_option autoImplicit false

namespace QuantityLayout.Valuation

open Valuation.InPlace (Program)

variable {α : Type}

/-- The questions about numbers that look for a leaf in the layout or for a buffer. -/
inductive Query where
  | get : Path → Query
  | getColumns : Path → Query
  | nonzeros : Path → Query

inductive Reply where
  | matrix : Matrix Binary64 → Reply
  | columns : ColumnMatrix Binary64 → Reply
  | numbers : List Binary64 → Reply

def answer (v : Valuation α) : Query → Except Error Reply
  | .get p => (v.get p).map .matrix
  | .getColumns p => (v.getColumns p).map .columns
  | .nonzeros p => (v.nonzeros p).map .numbers

namespace Tabled

def position (x : Layout.Indexed) (p : Path) : Access Nat :=
  match x.positions[p]? with
  | some i => .ok i
  | none => Access.refuse (.absent (.unlisted p))

def target (x : Layout.Indexed) (p : Path) (v : Valuation α) : Access Target := do
  match ← Registry.Tabled.locate v.registry p with
  | .leaf _ =>
    let i ← position x p
    let s ← Access.read x.slots i
    .ok (.leaf i s)
  | .cell _ c =>
    let q ← Access.owner p
    let i ← position x q
    let s ← Access.read x.slots i
    .ok (.cell i s c)
  | .group _ | .list _ => .ok .subtree

def cellValue (s : Shape) (xs : List Binary64) (c : Cell) : Access Binary64 :=
  match s.nzIndex c with
  | some k => Access.read xs k
  | none => .ok .zero

/-- The cells of the leaf are written one by one into a matrix of its extent. -/
def leafMatrix (s : Shape) (xs : List Binary64) : Access (Matrix Binary64) := do
  Access.within s.rows s.cols s.cells
  .ok (Valuation.leafMatrix s xs)

def get (x : Layout.Indexed) (p : Path) (v : Valuation α) : Access (Matrix Binary64) := do
  match ← target x p v with
  | .leaf i s =>
    let xs ← Access.read v.buffers i
    leafMatrix s.shape xs
  | .cell i s c =>
    let xs ← Access.read v.buffers i
    let y ← cellValue s.shape xs c
    .ok (.ofFn 1 1 fun _ _ => y)
  | .subtree => Access.refuse (.misfit p .subtree)

def nonzeros (x : Layout.Indexed) (p : Path) (v : Valuation α) : Access (List Binary64) := do
  match ← target x p v with
  | .leaf i _ => Access.read v.buffers i
  | _ => Access.refuse (.misfit p .notLeaf)

def flattenDense (x : Layout.Indexed) (v : Valuation α) : Access (List Binary64) :=
  Access.scatter x.totalNumel .zero (List.zipWith densePlaces x.slots v.buffers).flatten

def answer (x : Layout.Indexed) (v : Valuation α) : Query → Access Reply
  | .get p => (get x p v).map .matrix
  | .getColumns p => (get x p v).map fun m => .columns m.toColumns
  | .nonzeros p => (nonzeros x p v).map .numbers

def look {β : Type} (access : Valuation α → Access β) : Program α β := do
  match access (← getThe (Valuation α)) with
  | .ok b => pure b
  | .error stop => throw stop

def set (x : Layout.Indexed) (p : Path) (m : Matrix Binary64) : Program α Unit := do
  match ← look (target x p) with
  | .leaf i s =>
    if ¬(m.rows = s.shape.rows ∧ m.cols = s.shape.cols) then
      InPlace.refuse (.misfit p (.extent s.shape m.rows m.cols))
    else
      match (matrixCells m).find? fun (c, y) => !y.isZero && !s.shape.contains c with
      | some (c, _) => InPlace.refuse (.misfit p (.notZero c))
      | none => do
        look fun _ => Access.within m.rows m.cols s.shape.cells
        InPlace.put i (s.shape.cells.map (matrixValue m))
  | .cell i s c =>
    if ¬(m.rows = 1 ∧ m.cols = 1) then InPlace.refuse (.misfit p (.single m.rows m.cols))
    else do
      look fun _ => Access.within m.rows m.cols [⟨0, 0⟩]
      InPlace.setCell p i s c (matrixValue m ⟨0, 0⟩)
  | .subtree => InPlace.refuse (.misfit p .subtree)

def checkCount (x : Layout.Indexed) (p : Path) (count : Nat) (v : Valuation α) : Access Nat := do
  match ← target x p v with
  | .leaf i s => if count = s.shape.nnz then .ok i else Access.refuse (.misfit p (.count s.shape.nnz count))
  | _ => Access.refuse (.misfit p .notLeaf)

def setNonzeros (x : Layout.Indexed) (p : Path) (xs : List Binary64) : Program α Unit := do
  let i ← look (checkCount x p xs.length)
  InPlace.copy i xs

def setScalar (x : Layout.Indexed) (p : Path) (y : Binary64) : Program α Unit := do
  match ← look (target x p) with
  | .cell i s c => InPlace.setCell p i s c y
  | .leaf i s => if s.shape.numel = 1 then InPlace.setCell p i s ⟨0, 0⟩ y else InPlace.refuse (.misfit p .notCell)
  | .subtree => InPlace.refuse (.misfit p .notCell)

def fill (x : Layout.Indexed) (p : Path) (y : Binary64) : Program α Unit := do
  match ← look (target x p) with
  | .leaf i _ => InPlace.fillAt y i
  | .cell i s c => InPlace.setCell p i s c y
  | .subtree => (x.layout.leavesUnder p).forM fun e => InPlace.fillAt y e.1

def loadNonzero (x : Layout.Indexed) (xs : List Binary64) : Program α Unit := do
  let v ← getThe (Valuation α)
  if xs.length = x.totalNnz then
    (x.slots.zip v.buffers).zipIdx.forM fun e => InPlace.copySlice xs e.2 e.1.1
  else InPlace.refuse (.misfit [] (.count x.totalNnz xs.length))

def stage (x : Layout.Indexed) : Snapshot → Program α (List (Nat × List Binary64))
  | [] => pure []
  | e :: es => do
    let i ← look (checkCount x e.path e.values.length)
    let rest ← stage x es
    pure ((i, e.values) :: rest)

def load (x : Layout.Indexed) (text : String) : Program α Unit :=
  match Json.decode Snapshot.ofJson text with
  | .error f => throw (.refused (.json f))
  | .ok s => do
    let writes ← stage x s
    writes.forM fun w => InPlace.put w.1 w.2

def perform (x : Layout.Indexed) : Action → Program α Unit
  | .write (.set p m) => set x p m
  | .write (.setColumns p m) => set x p m.toRows
  | .write (.setNonzeros p xs) => setNonzeros x p xs
  | .write (.setScalar p y) => setScalar x p y
  | .write (.fill p y) => fill x p y
  | .loadNonzero xs => loadNonzero x xs
  | .load text => load x text
  | .reset => InPlace.reset

/-- Calls one after the other. What a failing call has written stays. -/
def run (x : Layout.Indexed) (v : Valuation α) (calls : List Action) : Valuation α :=
  calls.foldl (fun v a => InPlace.left ((perform x a).run v)) v

end Tabled
end QuantityLayout.Valuation
