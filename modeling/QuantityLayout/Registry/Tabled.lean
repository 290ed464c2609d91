import QuantityLayout.Access
import QuantityLayout.Layout.Indexed
/-!
Questions to a frozen registry as they are answered with the tables its layout is kept with. A table gives a position,
and what stands there is read without a test.
-/
set_option autoImplicit false

namespace QuantityLayout.Registry

variable {α ν : Type}

/-- The questions that look for a leaf in the layout, or take a position from somewhere else. -/
inductive Query where
  | lookup : Path → Query
  | slot : Path → Query
  | reverseLookup : Nat → Query
  | flattenDense : Query
  | flattenNonzero : Query
  | offsetOf : Path → Query
  | leafIndex : Path → Query
  | nonzeroIndices : Path → Query
  | indexMatrix : Path → Query

inductive Reply (α : Type) where
  | found : Found α → Reply α
  | slot : Option Layout.Slot → Reply α
  | path : Path → Reply α
  | cells : List (Option α) → Reply α
  | elements : List α → Reply α
  | offsets : Nat × Nat → Reply α
  | index : Nat → Reply α
  | indices : List Nat → Reply α
  | matrix : List (List (Option Nat)) → Reply α

def answer (r : Registry α) : Query → Except Error (Reply α)
  | .lookup p => (r.lookup p).map .found
  | .slot p => r.layout.map fun l => .slot (l.slot? p)
  | .reverseLookup k => (r.reverseLookup k).map .path
  | .flattenDense => r.flattenDense.map .cells
  | .flattenNonzero => r.flattenNonzero.map .elements
  | .offsetOf p => (r.offsetOf p).map .offsets
  | .leafIndex p => (r.leafIndex p).map .index
  | .nonzeroIndices p => (r.nonzeroIndices p).map .indices
  | .indexMatrix p => (r.indexMatrix p).map .matrix

namespace Tabled

def entry (g : Group ν) (name : String) : Access (Option ν) :=
  match g.names.idxOf? name with
  | none => .ok none
  | some i => do
    let e ← Access.read g.entries i
    .ok (some e.2)

def step : Place α → Step → Access (Except Walk.Reason (Place α))
  | .group g, .name n => do
    match ← entry g n with
    | some x => .ok (.ok x.place)
    | none => .ok (.error (.noEntry n))
  | x, s => .ok (x.step s)

def walk : Place α → Path → Access (Except Walk.Fault (Place α))
  | x, [] => .ok (.ok x)
  | x, s :: p => do
    match ← step x s with
    | .ok y => do
      let z ← walk y p
      .ok (z.mapError (Walk.Fault.under s))
    | .error reason => .ok (.error ⟨[s], reason⟩)

def locate (r : Registry α) (p : Path) : Access (Place α) := do
  let x ← walk (.group r.root) p
  Access.ofAnswer (x.mapError .walk)

def element (f : Leaf α) (c : Cell) : Access (Option α) :=
  match f.shape.nzIndex c with
  | none => .ok none
  | some k => do
    let x ← Access.read f.elements k
    .ok (some x)

def found : Place α → Access (Found α)
  | .cell f c => do
    match ← element f c with
    | some x => .ok (.element x)
    | none => .ok .structuralZero
  | x => .ok x.found

def lookup (r : Registry α) (p : Path) : Access (Found α) := do
  let x ← locate r p
  found x

def leafAt (r : Registry α) (p : Path) : Access (Leaf α) := do
  match ← locate r p with
  | .leaf f => .ok f
  | _ => Access.refuse (.absent (.notLeaf p))

def slot? (x : Layout.Indexed) (p : Path) : Access (Option Layout.Slot) :=
  match x.positions[p]? with
  | none => .ok none
  | some i => do
    let s ← Access.read x.slots i
    .ok (some s)

def slotAt (x : Layout.Indexed) (p : Path) : Access Layout.Slot := do
  match ← slot? x p with
  | some s => .ok s
  | none => Access.refuse (.absent (.unlisted p))

def reverseLookup (x : Layout.Indexed) (k : Nat) : Access Path :=
  match x.nonzeros[k]? with
  | none => Access.refuse (.absent (.nonzero k x.totalNnz))
  | some (i, j) => do
    let s ← Access.read x.slots i
    if s.shape.numel = 1 then .ok s.path
    else
      let c ← Access.read s.shape.cells j
      .ok (s.path ++ [.cell c.row c.col])

def denseToNz (s : Shape) : Access (List (Option Nat)) :=
  Access.scatter s.numel none (s.cells.zipIdx.map fun (c, k) => (s.linearIndex c, some k))

def denseElement (f : Leaf α) : Option Nat → Access (Option α)
  | none => .ok none
  | some k => do
    let x ← Access.read f.elements k
    .ok (some x)

/-- The cells follow the shape that the layout has for the leaf. -/
def denseElements (f : Leaf α) (s : Layout.Slot) : Access (List (Option α)) := do
  let ks ← denseToNz s.shape
  Access.forEach (denseElement f) ks

def gather {β : Type} (r : Registry α) (f : Leaf α → Layout.Slot → Access (List β)) :
    List Layout.Slot → Access (List β)
  | [] => .ok []
  | s :: rest => do
    let l ← leafAt r s.path
    let bs ← f l s
    let more ← gather r f rest
    .ok (bs ++ more)

def flattenDense (r : Registry α) (x : Layout.Indexed) : Access (List (Option α)) := gather r denseElements x.slots

def flattenNonzero (r : Registry α) (x : Layout.Indexed) : Access (List α) :=
  gather r (fun f _ => .ok f.elements) x.slots

def offsetOf (r : Registry α) (x : Layout.Indexed) (p : Path) : Access (Nat × Nat) := do
  match ← locate r p with
  | .leaf _ =>
    let s ← slotAt x p
    .ok (s.numelOffset, s.nnzOffset)
  | .cell _ c =>
    let q ← Access.owner p
    let s ← slotAt x q
    .ok (word (s.numelOffset + s.shape.linearIndex c), s.nnzOffset + s.shape.rank c)
  | .group _ | .list _ =>
    match firstOffset ((x.layout.leavesUnder p).map fun (_, s) => (s.numelOffset, s.nnzOffset)) with
    | some o => .ok o
    | none => Access.refuse (.absent (.noLeaves p))

def leafIndex (r : Registry α) (x : Layout.Indexed) (p : Path) : Access Nat := do
  let _ ← leafAt r p
  match x.positions[p]? with
  | some i => .ok i
  | none => Access.refuse (.absent (.unlisted p))

def nonzeroIndices (r : Registry α) (x : Layout.Indexed) (p : Path) : Access (List Nat) := do
  match ← locate r p with
  | .cell f c =>
    let q ← Access.owner p
    let s ← slotAt x q
    .ok ((f.shape.nzIndex c).map (s.nnzOffset + ·)).toList
  | _ => .ok ((x.layout.leavesUnder p).flatMap fun (_, s) => List.range' s.nnzOffset s.shape.nnz)

def indexMatrix (r : Registry α) (x : Layout.Indexed) (p : Path) : Access (List (List (Option Nat))) := do
  let _ ← leafAt r p
  let s ← slotAt x p
  .ok ((List.range s.shape.rows).map fun i =>
    (List.range s.shape.cols).map fun j => (s.shape.nzIndex ⟨i, j⟩).map (s.nnzOffset + ·))

def answer (r : Registry α) (x : Layout.Indexed) : Query → Access (Reply α)
  | .lookup p => (lookup r p).map .found
  | .slot p => (slot? x p).map .slot
  | .reverseLookup k => (reverseLookup x k).map .path
  | .flattenDense => (flattenDense r x).map .cells
  | .flattenNonzero => (flattenNonzero r x).map .elements
  | .offsetOf p => (offsetOf r x p).map .offsets
  | .leafIndex p => (leafIndex r x p).map .index
  | .nonzeroIndices p => (nonzeroIndices r x p).map .indices
  | .indexMatrix p => (indexMatrix r x p).map .matrix

end Tabled
end QuantityLayout.Registry
