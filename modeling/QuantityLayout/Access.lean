import QuantityLayout.Valuation.InPlace
/-!
Lists that are read and written at positions nobody has tested. A position may be out of range, and then there is no
answer; besides, an answer can be refused.
-/
set_option autoImplicit false

namespace QuantityLayout

open Valuation.InPlace (Stop)

abbrev Access (β : Type) := Except Stop β

namespace Access

variable {β : Type}

def refuse (e : Error) : Access β := .error (.refused (.error e))

def ofAnswer (answer : Except Error β) : Access β := answer.mapError fun e => .refused (.error e)

def orOutside : Option β → Access β
  | some b => .ok b
  | none => .error .outside

def read (xs : List β) (i : Nat) : Access β := orOutside xs[i]?

def scatter (size : Nat) (default : β) (entries : List (Nat × β)) : Access (List β) :=
  orOutside (scatter? size default entries)

def within (rows cols : Nat) (cells : List Cell) : Access Unit :=
  if ∀ c ∈ cells, c.row < rows ∧ c.col < cols then .ok () else .error .outside

/-- The path without its last step; the empty path has none. -/
def owner (p : Path) : Access Path := if p.isEmpty then .error .outside else .ok p.dropLast

def forEach {γ : Type} (f : γ → Access β) : List γ → Access (List β)
  | [] => .ok []
  | c :: cs => do
    let b ← f c
    let bs ← forEach f cs
    .ok (b :: bs)

end Access

end QuantityLayout
