import QuantityLayout.Tree.Group
import Mathlib.Logic.Basic
/-!
Groups as they are kept: beside the entries there is a table with the position of every name. Here an edit is a sequence
of single writes, each seen by the next one, and nothing takes back what was written before a failure.
-/
set_option autoImplicit false

namespace QuantityLayout.Group

structure Indexed (ν : Type) where
  entries : List (String × ν)
  positions : Std.HashMap String Nat
  order : Option Order

namespace Indexed

variable {ν : Type}

abbrev Program (ν : Type) : Type → Type := EStateM Fault (Indexed ν)

def empty : Indexed ν := ⟨[], ∅, none⟩

def group (g : Indexed ν) : Group ν := ⟨g.entries, g.order⟩

def position? (g : Indexed ν) (name : String) : Option Nat := g.positions[name]?

def get? (g : Indexed ν) (name : String) : Option ν := do
  let i ← g.position? name
  let e ← g.entries[i]?
  e.2

def contains (g : Indexed ν) (name : String) : Bool := (g.position? name).isSome

instance [BEq ν] : BEq (Indexed ν) :=
  ⟨fun g h => g.entries == h.entries && g.positions == h.positions && g.order == h.order⟩

def checkName (name : String) : Program ν Unit := do
  if !Text.isIdentifier name then throw (.notIdentifier name)
  if ((← get).position? name).isSome then throw (.taken name)

/-- The position is written first; it is the length of the entries that are there before. -/
def attach (name : String) (x : ν) : Program ν Unit := do
  checkName name
  modify fun g => { g with positions := g.positions.insert name g.entries.length }
  modify fun g => { g with entries := g.entries ++ [(name, x)] }

def rename (old new : String) : Program ν Unit := do
  match (← get).position? old with
  | none => throw (.missing old)
  | some i =>
    if old ≠ new then
      checkName new
      modify fun g => { g with positions := g.positions.erase old }
      modify fun g => { g with positions := g.positions.insert new i }
      modify fun g => { g with entries := g.entries.modify i fun e => (new, e.2) }
      modify fun g => { g with order := g.order.map (·.rename old new) }

def setOrder (o : Order) : Program ν Unit := do
  if (← get).order.isSome then throw .ordered
  modify fun g => { g with order := some o }

end Indexed
end QuantityLayout.Group
