import QuantityLayout.Text.Identifier
import QuantityLayout.Text.Numeral
/-!
Paths: descents from the root of a tree, one step at a time, with their order and their text. In the text names are
joined by `.`, list positions stand in `[ ]`, cells and elements in `( )`.
-/
set_option autoImplicit false

namespace QuantityLayout

/-- A step enters a group by name, a list by position, or a leaf by cell or by column-major number of a cell. -/
inductive Step where
  | name : String → Step
  | index : Nat → Step
  | cell : (row col : Nat) → Step
  | element : Nat → Step
  deriving DecidableEq, Repr

abbrev Path := List Step

def Step.rank : Step → Nat
  | .name _ => 0
  | .index _ => 1
  | .cell _ _ => 2
  | .element _ => 3

def Step.order : Step → Step → Ordering
  | .name a, .name b => compare a b
  | .index i, .index j => compare i j
  | .cell r c, .cell r' c' => (compare r r').then (compare c c')
  | .element k, .element k' => compare k k'
  | a, b => compare a.rank b.rank

namespace Path

/-- Step by step from the front; a path comes after its proper initial parts. -/
def order : Path → Path → Ordering
  | [], [] => .eq
  | [], _ :: _ => .lt
  | _ :: _, [] => .gt
  | a :: p, b :: q => (a.order b).then (order p q)

def sort (ps : List Path) : List Path := ps.mergeSort fun p q => order p q != .gt

inductive Fault where
  | trailing : (input rest : String) → Fault
  | notIdentifier : (name : String) → Fault
  deriving DecidableEq, Repr

def ofNames : List String → Except Fault Path
  | [] => .ok []
  | n :: ns => if Text.isIdentifier n then (ofNames ns).map (.name n :: ·) else .error (.notIdentifier n)

theorem ofNames_eq_ok {ns : List String} {p : Path} (h : ofNames ns = .ok p) :
    p = ns.map .name ∧ ∀ n ∈ ns, Text.isIdentifier n := by
  induction ns generalizing p with
  | nil => cases h; simp
  | cons n ns ih =>
    by_cases hn : Text.isIdentifier n
    · cases hr : ofNames ns with
      | error e => simp [ofNames, hn, hr, Except.map] at h
      | ok q =>
        simp only [ofNames, hn, if_true, hr, Except.map, Except.ok.injEq] at h
        obtain ⟨rfl, hq⟩ := ih hr
        simp [← h, hn]; exact hq
    · simp [ofNames, hn] at h

end Path

open Text (numeral)

def Step.chars : Step → List Char
  | .name n => '.' :: n.toList
  | .index i => '[' :: numeral i ++ [']']
  | .cell r c => '(' :: numeral r ++ ',' :: numeral c ++ [')']
  | .element k => '(' :: numeral k ++ [')']

namespace Path

/-- A name at the front has no point before it. -/
def chars : Path → List Char
  | [] => []
  | .name n :: p => n.toList ++ p.flatMap Step.chars
  | s :: p => s.chars ++ p.flatMap Step.chars

def render (p : Path) : String := String.ofList p.chars

theorem toList_render (p : Path) : p.render.toList = p.chars := String.toList_ofList

end Path
end QuantityLayout
