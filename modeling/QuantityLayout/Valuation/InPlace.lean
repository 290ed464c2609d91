import QuantityLayout.Valuation.Run
/-!
Numbers that are changed in place. Every operation works on the one list of buffers there is and writes them one after
the other; whatever it has written is there afterwards, also when it fails.
-/
set_option autoImplicit false

namespace QuantityLayout.Valuation.InPlace

open Json

variable {α : Type}

/-- Why a program ends early. It may refuse what it is asked for; or an index is out of range, or a buffer does not have
the length of what is copied to it. -/
inductive Stop where
  | refused : Failure → Stop
  | outside : Stop

abbrev Program (α : Type) : Type → Type := EStateM Stop (Valuation α)

def refuse {β : Type} (e : Error) : Program α β := throw (.refused (.error e))

def ask {β : Type} (look : Valuation α → Except Error β) : Program α β := do
  match look (← getThe (Valuation α)) with
  | .ok b => pure b
  | .error e => refuse e

def bufferAt (i : Nat) : Program α (List Binary64) := do
  match (← getThe (Valuation α)).buffers[i]? with
  | some xs => pure xs
  | none => throw .outside

def put (i : Nat) (xs : List Binary64) : Program α Unit := do
  let _ ← bufferAt i
  modify (·.setBuffer i xs)

def putNumber (i k : Nat) (x : Binary64) : Program α Unit := do
  let xs ← bufferAt i
  if k < xs.length then put i (xs.set k x) else throw .outside

def copy (i : Nat) (xs : List Binary64) : Program α Unit := do
  let ys ← bufferAt i
  if ys.length = xs.length then put i xs else throw .outside

def fillAt (x : Binary64) (i : Nat) : Program α Unit := do
  let xs ← bufferAt i
  put i (fillBuffer x xs)

def slice (xs : List Binary64) (start count : Nat) : Program α (List Binary64) :=
  if start + count ≤ xs.length then pure ((xs.drop start).take count) else throw .outside

def copySlice (xs : List Binary64) (i : Nat) (s : Layout.Slot) : Program α Unit := do
  let ys ← slice xs s.nnzOffset s.shape.nnz
  copy i ys

def setCell (p : Path) (i : Nat) (s : Layout.Slot) (c : Cell) (x : Binary64) : Program α Unit :=
  match s.shape.nzIndex c with
  | some k => putNumber i k x
  | none => refuse (.misfit p (.absent c))

def set (p : Path) (m : Matrix Binary64) : Program α Unit := do
  match ← ask (·.target p) with
  | .leaf i s =>
    if ¬(m.rows = s.shape.rows ∧ m.cols = s.shape.cols) then refuse (.misfit p (.extent s.shape m.rows m.cols))
    else
      match (matrixCells m).find? fun (c, x) => !x.isZero && !s.shape.contains c with
      | some (c, _) => refuse (.misfit p (.notZero c))
      | none => put i (s.shape.cells.map (matrixValue m))
  | .cell i s c =>
    if ¬(m.rows = 1 ∧ m.cols = 1) then refuse (.misfit p (.single m.rows m.cols))
    else setCell p i s c (matrixValue m ⟨0, 0⟩)
  | .subtree => refuse (.misfit p .subtree)

def setColumns (p : Path) (m : ColumnMatrix Binary64) : Program α Unit := set p m.toRows

def setNonzeros (p : Path) (xs : List Binary64) : Program α Unit := do
  let i ← ask (·.checkCount p xs.length)
  copy i xs

def setScalar (p : Path) (x : Binary64) : Program α Unit := do
  match ← ask (·.target p) with
  | .cell i s c => setCell p i s c x
  | .leaf i s => if s.shape.numel = 1 then setCell p i s ⟨0, 0⟩ x else refuse (.misfit p .notCell)
  | .subtree => refuse (.misfit p .notCell)

def fill (p : Path) (x : Binary64) : Program α Unit := do
  match ← ask (·.target p) with
  | .leaf i _ => fillAt x i
  | .cell i s c => setCell p i s c x
  | .subtree => do
    let v ← getThe (Valuation α)
    (v.layout.leavesUnder p).forM fun e => fillAt x e.1

def loadNonzero (xs : List Binary64) : Program α Unit := do
  let v ← getThe (Valuation α)
  if xs.length = v.layout.totalNnz then
    (v.layout.slots.zip v.buffers).zipIdx.forM fun e => copySlice xs e.2 e.1.1
  else refuse (.misfit [] (.count v.layout.totalNnz xs.length))

def stage : Snapshot → Program α (List (Nat × List Binary64))
  | [] => pure []
  | e :: es => do
    let i ← ask (·.checkCount e.path e.values.length)
    let rest ← stage es
    pure ((i, e.values) :: rest)

/-- All entries are looked up before the first buffer is written. -/
def load (text : String) : Program α Unit :=
  match decode Snapshot.ofJson text with
  | .error f => throw (.refused (.json f))
  | .ok s => do
    let writes ← stage s
    writes.forM fun w => put w.1 w.2

def reset : Program α Unit := do
  let v ← getThe (Valuation α)
  v.buffers.zipIdx.forM fun e => put e.2 (fillBuffer .zero e.1)

def perform : Action → Program α Unit
  | .write (.set p m) => set p m
  | .write (.setColumns p m) => setColumns p m
  | .write (.setNonzeros p xs) => setNonzeros p xs
  | .write (.setScalar p x) => setScalar p x
  | .write (.fill p x) => fill p x
  | .loadNonzero xs => loadNonzero xs
  | .load text => load text
  | .reset => reset

def left : EStateM.Result Stop (Valuation α) Unit → Valuation α
  | .ok () v => v
  | .error _ v => v

def run (v : Valuation α) (as : List Action) : Valuation α := as.foldl (fun v a => left ((perform a).run v)) v

end QuantityLayout.Valuation.InPlace
