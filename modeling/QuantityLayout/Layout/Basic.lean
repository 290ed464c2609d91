import QuantityLayout.Path.Basic
import QuantityLayout.Repeats
import QuantityLayout.Shape.Basic
/-!
Layouts: the leaves of a registry in the sequence in which they are visited, each with the place where it begins among
all cells and among the present ones.

All cells are counted in 64 bits. Each shape has fewer than `countBound` cells, but nothing bounds what several shapes
have together, so offsets and totals wrap around; a build with overflow checks stops there. As long as all cells can be
counted (`InRange`), sums are exact and the two builds agree, and what holds only there says so. Present cells are all
stored, so there are never too many of them, and their sums need no bound.
-/
set_option autoImplicit false

namespace QuantityLayout

structure Layout.Slot where
  path : Path
  shape : Shape
  numelOffset : Nat
  nnzOffset : Nat
  deriving DecidableEq

structure Layout where
  slots : List Layout.Slot
  totalNumel : Nat
  totalNnz : Nat
  deriving DecidableEq

namespace Layout

inductive Conflict where
  | repeated : Path → Conflict
  | enclosed : (path enclosing : Path) → Conflict
  deriving DecidableEq, Repr

/-- Slots from the given offsets on, each beginning where the one before it ends. -/
def place (numel nnz : Nat) : List (Path × Shape) → List Slot
  | [] => []
  | (p, s) :: rest => ⟨p, s, numel, nnz⟩ :: place (word (numel + s.numel)) (nnz + s.nnz) rest

/-- The cells of all leaves can be counted. -/
def InRange (l : Layout) : Prop := (l.slots.map fun s => s.shape.numel).foldr (· + ·) 0 < countBound

instance (l : Layout) : Decidable l.InRange := inferInstanceAs (Decidable (_ < _))

/-- The leaf at `q` would hold what stands at `p`. The empty path is not asked about. -/
def encloses (q p : Path) : Bool := !q.isEmpty && q.length < p.length && q.isPrefixOf p

theorem encloses_iff {q p : Path} : encloses q p ↔ q ≠ [] ∧ q.length < p.length ∧ q <+: p := by
  simp [encloses, and_assoc]

def shortest : List Path → Option Path
  | [] => none
  | p :: ps =>
    match shortest ps with
    | some q => if q.length < p.length then some q else some p
    | none => some p

theorem shortest_eq_none {ps : List Path} : shortest ps = none ↔ ps = [] := by
  cases ps with
  | nil => simp [shortest]
  | cons p ps =>
    unfold shortest
    split
    · split <;> simp
    · simp

theorem shortest_mem {ps : List Path} {q : Path} (h : shortest ps = some q) : q ∈ ps := by
  induction ps generalizing q with
  | nil => simp [shortest] at h
  | cons p ps ih =>
    unfold shortest at h
    split at h
    · next r hr =>
      split at h
      · cases h; exact List.mem_cons_of_mem p (ih hr)
      · cases h; exact List.mem_cons_self
    · cases h; exact List.mem_cons_self

def enclosing? (paths : List Path) (p : Path) : Option Path := shortest (paths.filter (encloses · p))

theorem enclosing?_eq_none {paths : List Path} {p : Path} :
    enclosing? paths p = none ↔ ∀ q ∈ paths, ¬ encloses q p := by
  simp [enclosing?, shortest_eq_none]

def findEnclosed (paths : List Path) : List Path → Option Conflict
  | [] => none
  | p :: ps =>
    match enclosing? paths p with
    | some q => some (.enclosed p q)
    | none => findEnclosed paths ps

def conflict? (paths : List Path) : Option Conflict :=
  match firstRepeat paths with
  | some p => some (.repeated p)
  | none => findEnclosed paths paths

def ofLeaves (leaves : List (Path × Shape)) : Except Conflict Layout :=
  match conflict? (leaves.map Prod.fst) with
  | some c => .error c
  | none =>
    .ok ⟨place 0 0 leaves, word ((leaves.map (·.2.numel)).foldr (· + ·) 0), (leaves.map (·.2.nnz)).foldr (· + ·) 0⟩

def leaves (l : Layout) : List (Path × Shape) := l.slots.map fun s => (s.path, s.shape)

def indexOf (l : Layout) (p : Path) : Option Nat := l.slots.findIdx? (·.path == p)

def slot? (l : Layout) (p : Path) : Option Slot := l.slots.find? (·.path == p)

/-- Finds the leaf that holds a present cell, given by its number from the first of the slots on. -/
def findNonzero (index : Nat) : List Slot → Nat → Option (Nat × Nat)
  | [], _ => none
  | s :: rest, k =>
    if k < s.shape.nnz then some (index, k) else findNonzero (index + 1) rest (k - s.shape.nnz)

def nonzeroAt (l : Layout) (k : Nat) : Option (Nat × Nat) := findNonzero 0 l.slots k

def leavesUnder (l : Layout) (p : Path) : List (Nat × Slot) :=
  (l.slots.zipIdx.filter fun (s, _) => p.isPrefixOf s.path).map fun (s, i) => (i, s)

theorem leaves_place (numel nnz : Nat) (ls : List (Path × Shape)) :
    (place numel nnz ls).map (fun s => (s.path, s.shape)) = ls := by
  induction ls generalizing numel nnz with
  | nil => rfl
  | cons e ls ih => obtain ⟨p, s⟩ := e; simp [place, ih]

theorem leaves_ofLeaves {ls : List (Path × Shape)} {l : Layout} (h : ofLeaves ls = .ok l) : l.leaves = ls := by
  unfold ofLeaves at h
  split at h
  · simp at h
  · cases h; exact leaves_place 0 0 ls

end Layout
end QuantityLayout
