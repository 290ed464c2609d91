import QuantityLayout.Order.Basic
import QuantityLayout.Path.Basic
import QuantityLayout.Policy
import QuantityLayout.Repeats
/-!
Putting the entries of one group in order. An entry is visited whole or taken apart into slots; both come with it, and
what they are is left open. A defect of an order is found with the path of the group that has it.
-/
set_option autoImplicit false

namespace QuantityLayout

namespace RoundRobin

variable {β : Type}

def longest (columns : List (List β)) : Nat := columns.foldr (fun c m => max c.length m) 0

def rounds : Nat → List (List β) → List β
  | 0, _ => []
  | n + 1, columns => columns.filterMap List.head? ++ rounds n (columns.map List.tail)

/-- The first elements of all columns, then the second ones, until every column is used up. -/
def merge (columns : List (List β)) : List β := rounds (longest columns) columns

end RoundRobin

inductive Order.Defect where
  | repeated : (name : String) → Order.Defect
  | unattached : (name : String) → Order.Defect
  | uneven : (names : List String) → (counts : List Nat) → Order.Defect
  | omitted : (names : List String) → Order.Defect
  deriving DecidableEq, Repr

structure Order.Fault where
  group : Path
  defect : Order.Defect
  deriving DecidableEq, Repr

namespace Order

def Fault.under (s : Step) (f : Fault) : Fault := ⟨s :: f.group, f.defect⟩

/-- An entry as an order sees it: in one piece, or slot by slot. -/
structure Column (β : Type) where
  whole : β
  slots : Except Fault (List β)

variable {β : Type}

def column (entries : List (String × Column β)) (name : String) : Except Fault (Column β) :=
  match entries.lookup name with
  | some c => .ok c
  | none => .error ⟨[], .unattached name⟩

def tuple (entries : List (String × Column β)) : List String → Except Fault (List (List β))
  | [] => .ok []
  | n :: ns => do
    let slots ← (← column entries n).slots
    let rest ← tuple entries ns
    .ok (slots :: rest)

def Item.resolve (policy : Policy) (entries : List (String × Column β)) : Item → Except Fault (List β)
  | .name n => do .ok [(← column entries n).whole]
  | .interleave ns => do
    let columns ← tuple entries ns
    let counts := columns.map List.length
    if policy.interleaving.acceptsLengths counts then .ok (RoundRobin.merge columns)
    else .error ⟨[], .uneven ns counts⟩

def resolveItems (policy : Policy) (entries : List (String × Column β)) : List Item → Except Fault (List β)
  | [] => .ok []
  | i :: is => do
    let units ← i.resolve policy entries
    let rest ← resolveItems policy entries is
    .ok (units ++ rest)

def omitted (o : Order) (entries : List (String × Column β)) : List (String × Column β) :=
  entries.filter fun e => e.1 ∉ o.names

/-- A name said twice is found first, then the items are followed, then the entries left out are dealt with. -/
def resolve (policy : Policy) (entries : List (String × Column β)) (o : Order) : Except Fault (List β) :=
  match firstRepeat o.names with
  | some n => .error ⟨[], .repeated n⟩
  | none => do
    let units ← resolveItems policy entries o.items
    match policy.omission, o.omitted entries with
    | .requireComplete, e :: es => .error ⟨[], .omitted ((e :: es).map Prod.fst)⟩
    | _, rest => .ok (units ++ rest.map fun e => e.2.whole)

def resolve? (policy : Policy) (entries : List (String × Column β)) : Option Order → Except Fault (List β)
  | none => .ok (entries.map fun e => e.2.whole)
  | some o => o.resolve policy entries

end Order
end QuantityLayout
