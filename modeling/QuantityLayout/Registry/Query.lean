import QuantityLayout.Registry.Basic

set_option autoImplicit false

namespace QuantityLayout.Registry

variable {α : Type}

def locate (r : Registry α) (p : Path) : Except Error (Place α) := ((Place.group r.root).walk p).mapError .walk

def lookup (r : Registry α) (p : Path) : Except Error (Found α) := (r.locate p).map Place.found

def leafAt (r : Registry α) (p : Path) : Except Error (Leaf α) := do
  match ← r.locate p with
  | .leaf l => .ok l
  | _ => .error (.absent (.notLeaf p))

def slotAt (l : Layout) (p : Path) : Except Error Layout.Slot :=
  match l.slot? p with
  | some s => .ok s
  | none => .error (.absent (.unlisted p))

/-- The path of a present cell, given by its number. A leaf of a single cell is named itself. -/
def reverseLookup (r : Registry α) (k : Nat) : Except Error Path := do
  let l ← r.layout
  let missing : Error := .absent (.nonzero k l.totalNnz)
  match l.nonzeroAt k with
  | none => .error missing
  | some (i, j) =>
    match l.slots[i]? with
    | none => .error missing
    | some s =>
      if s.shape.numel = 1 then .ok s.path
      else
        match s.shape.cells[j]? with
        | some c => .ok (s.path ++ [.cell c.row c.col])
        | none => .error missing

def denseElements (l : Leaf α) : List (Option α) := l.shape.denseToNz.map (·.bind (l.elements[·]?))

def gather {β : Type} (r : Registry α) (f : Leaf α → List β) : List Layout.Slot → Except Error (List β)
  | [] => .ok []
  | s :: rest => do
    let l ← r.leafAt s.path
    let bs ← r.gather f rest
    .ok (f l ++ bs)

/-- Every cell in layout order; structural zeros have no element. -/
def flattenDense (r : Registry α) : Except Error (List (Option α)) := do
  r.gather denseElements (← r.layout).slots

def flattenNonzero (r : Registry α) : Except Error (List α) := do
  r.gather Leaf.elements (← r.layout).slots

/-- By the first component, then by the second. -/
def firstOffset : List (Nat × Nat) → Option (Nat × Nat)
  | [] => none
  | a :: rest =>
    match firstOffset rest with
    | none => some a
    | some b => if b.1 < a.1 ∨ b.1 = a.1 ∧ b.2 < a.2 then some b else some a

/-- Where a leaf, a cell or a subtree begins among all cells and among the present ones. A cell that is not present
begins where it would stand. -/
def offsetOf (r : Registry α) (p : Path) : Except Error (Nat × Nat) := do
  let l ← r.layout
  match ← r.locate p with
  | .leaf _ =>
    let s ← slotAt l p
    .ok (s.numelOffset, s.nnzOffset)
  | .cell _ c =>
    let s ← slotAt l p.dropLast
    .ok (word (s.numelOffset + s.shape.linearIndex c), s.nnzOffset + s.shape.rank c)
  | .group _ | .list _ =>
    match firstOffset ((l.leavesUnder p).map fun (_, s) => (s.numelOffset, s.nnzOffset)) with
    | some o => .ok o
    | none => .error (.absent (.noLeaves p))

def leafIndex (r : Registry α) (p : Path) : Except Error Nat := do
  let l ← r.layout
  let _ ← r.leafAt p
  match l.indexOf p with
  | some i => .ok i
  | none => .error (.absent (.unlisted p))

def nonzeroIndices (r : Registry α) (p : Path) : Except Error (List Nat) := do
  let l ← r.layout
  match ← r.locate p with
  | .cell f c =>
    let s ← slotAt l p.dropLast
    .ok ((f.shape.nzIndex c).map (s.nnzOffset + ·)).toList
  | _ => .ok ((l.leavesUnder p).flatMap fun (_, s) => List.range' s.nnzOffset s.shape.nnz)

def indexMatrix (r : Registry α) (p : Path) : Except Error (List (List (Option Nat))) := do
  let l ← r.layout
  let _ ← r.leafAt p
  let s ← slotAt l p
  .ok ((List.range s.shape.rows).map fun i =>
    (List.range s.shape.cols).map fun j => (s.shape.nzIndex ⟨i, j⟩).map (s.nnzOffset + ·))

end QuantityLayout.Registry
