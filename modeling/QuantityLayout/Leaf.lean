import QuantityLayout.Shape.Basic

set_option autoImplicit false

namespace QuantityLayout

structure Symbol where
  name : String
  deriving DecidableEq, Repr

def Symbol.sort (ss : List Symbol) : List Symbol := ss.mergeSort fun a b => a.name ≤ b.name

/-- The elements follow the present cells in column-major order. -/
structure Leaf (α : Type) where
  name : String
  shape : Shape
  elements : List α
  fits : elements.length = shape.nnz
  deriving DecidableEq

namespace Leaf

inductive Fault where
  | count : (name : String) → (shape : Shape) → (given : Nat) → Fault
  deriving DecidableEq

variable {α : Type}

def ofElements (name : String) (shape : Shape) (elements : List α) : Except Fault (Leaf α) :=
  if h : elements.length = shape.nnz then .ok ⟨name, shape, elements, h⟩
  else .error (.count name shape elements.length)

def ofFn (name : String) (shape : Shape) (f : Cell → α) : Leaf α :=
  ⟨name, shape, shape.cells.map f, List.length_map f⟩

def element (l : Leaf α) (c : Cell) : Option α := (l.shape.nzIndex c).bind (l.elements[·]?)

def isScalar (l : Leaf α) : Bool := l.shape.numel == 1 && l.shape.nnz == 1

/-- A leaf of a single cell names it like itself; otherwise cells are told apart by their column-major number. -/
def symbolic (name : String) (shape : Shape) : Leaf Symbol :=
  if shape.numel = 1 then ofFn name shape fun _ => ⟨name⟩
  else ofFn name shape fun c => ⟨s!"{name}_{shape.linearIndex c}"⟩

def scalar (name : String) : Leaf Symbol := symbolic name .scalar

section Calls

variable {σ : Type} (f : Cell → σ → α × σ)

/-- What a callback answers to one cell after the other. A call may leave something in the memory for the next one. -/
def answers : List Cell → σ → List α
  | [], _ => []
  | c :: cs, m => (f c m).1 :: answers cs (f c m).2

def memory (cs : List Cell) (m : σ) : σ := cs.foldl (fun m c => (f c m).2) m

theorem length_answers (cs : List Cell) (m : σ) : (answers f cs m).length = cs.length := by
  induction cs generalizing m with
  | nil => rfl
  | cons c cs ih => simp [answers, ih]

theorem getElem?_answers (cs : List Cell) (m : σ) (k : Nat) :
    (answers f cs m)[k]? = cs[k]?.map fun c => (f c (memory f (cs.take k) m)).1 := by
  induction cs generalizing m k with
  | nil => rfl
  | cons c cs ih =>
    cases k with
    | zero => rfl
    | succ k => simp [answers, memory, ih]

/-- The present cells are asked for in their sequence, each once. -/
def ofCalls (name : String) (shape : Shape) (m : σ) : Leaf α :=
  ⟨name, shape, answers f shape.cells m, length_answers f shape.cells m⟩

end Calls

theorem answers_pure {σ : Type} (f : Cell → α) (cs : List Cell) (m : σ) :
    answers (fun c m => (f c, m)) cs m = cs.map f := by
  induction cs with
  | nil => rfl
  | cons c cs ih => simp [answers, ih]

theorem ofCalls_pure {σ : Type} (f : Cell → α) (name : String) (shape : Shape) (m : σ) :
    ofCalls (fun c m => (f c, m)) name shape m = ofFn name shape f := by
  simp [ofCalls, ofFn, answers_pure]

end Leaf
end QuantityLayout
