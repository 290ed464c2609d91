import QuantityLayout.Json.Decode
import QuantityLayout.Json.Printer
import QuantityLayout.Order.Basic
import QuantityLayout.Policy
import QuantityLayout.Leaf

set_option autoImplicit false

namespace QuantityLayout

open Json

namespace Json.Value

def ofText (s : String) : Value := .text (some s)

def ofCount (n : Nat) : Value := .number (Number.ofCount n)

/-- Numbers that are not finite are written as null. -/
def ofBinary64 (x : Binary64) : Value :=
  match Number.ofBinary64? x with
  | some n => .number n
  | none => .null

def ofFields (fields : List (String × Value)) : Value := .record (fields.map fun (k, v) => (some k, v))

end Json.Value

namespace Path

def toJson (p : Path) : Value := .ofText p.render

def ofJson : Decoder Path := fun v => do
  match Path.parse (← Decoder.text v) with
  | .ok p => .ok p
  | .error f => .error (.path f)

end Path

namespace Cell

def toJson (c : Cell) : Value := .list [.ofCount c.row, .ofCount c.col]

def ofJson : Decoder Cell := fun v => do
  let (r, c) ← Decoder.pair Decoder.count Decoder.count v
  .ok ⟨r, c⟩

end Cell

namespace Shape

def toJson (s : Shape) : Value :=
  .ofFields [("rows", .ofCount s.rows), ("cols", .ofCount s.cols), ("cells", .list (s.cells.map Cell.toJson))]

structure Fields where
  rows : Option Nat
  cols : Option Nat
  cells : Option (List Cell)

def Fields.all : List (Decoder.Field Fields) :=
  [⟨"rows", (·.rows.isSome), fun s v => do .ok { s with rows := some (← Decoder.count v) }⟩,
   ⟨"cols", (·.cols.isSome), fun s v => do .ok { s with cols := some (← Decoder.count v) }⟩,
   ⟨"cells", (·.cells.isSome), fun s v => do .ok { s with cells := some (← Decoder.list Cell.ofJson v) }⟩]

def Fields.shape : Fields → Except Complaint Shape
  | ⟨some rows, some cols, some cells⟩ =>
    match Shape.ofCells rows cols cells with
    | .ok s => .ok s
    | .error f => .error (.shape f)
  | _ => .error .form

def ofJson : Decoder Shape := Decoder.record Fields.all ⟨none, none, none⟩ Fields.shape

end Shape

namespace Order

def Item.toJson : Item → Value
  | .name n => .ofFields [("Name", .ofText n)]
  | .interleave ns => .ofFields [("Interleave", .list (ns.map .ofText))]

def toJson (o : Order) : Value := .ofFields [("items", .list (o.items.map Item.toJson))]

def Item.ofJson : Decoder Item
  | .record [(some "Name", v)] => do .ok (.name (← Decoder.text v))
  | .record [(some "Interleave", v)] => do .ok (.interleave (← Decoder.list Decoder.text v))
  | _ => .error .form

def Fields.all : List (Decoder.Field (Option (List Item))) :=
  [⟨"items", Option.isSome, fun _ v => do .ok (some (← Decoder.list Item.ofJson v))⟩]

def ofJson : Decoder Order :=
  Decoder.record Fields.all none fun
    | some items => .ok ⟨items⟩
    | none => .error .form

end Order

namespace Policy

def Omission.name : Omission → String
  | .appendOmitted => "AppendOmitted"
  | .requireComplete => "RequireComplete"

def Interleaving.name : Interleaving → String
  | .allowRagged => "AllowRagged"
  | .requireEqual => "RequireEqual"

def toJson (p : Policy) : Value :=
  .ofFields [("order_policy", .ofText p.omission.name), ("interleave_policy", .ofText p.interleaving.name)]

/-- A choice is a string, or a record of nothing under that string. -/
def choice {α : Type} (options : List (String × α)) : Decoder α
  | .text (some s) | .record [(some s, .null)] =>
    match options.lookup s with
    | some x => .ok x
    | none => .error .form
  | _ => .error .form

def Omission.ofJson : Decoder Omission :=
  choice ([.appendOmitted, .requireComplete].map fun x => (x.name, x))

def Interleaving.ofJson : Decoder Interleaving :=
  choice ([.allowRagged, .requireEqual].map fun x => (x.name, x))

structure Fields where
  omission : Option Omission
  interleaving : Option Interleaving

def Fields.all : List (Decoder.Field Fields) :=
  [⟨"order_policy", (·.omission.isSome), fun s v => do .ok { s with omission := some (← Omission.ofJson v) }⟩,
   ⟨"interleave_policy", (·.interleaving.isSome), fun s v => do
      .ok { s with interleaving := some (← Interleaving.ofJson v) }⟩]

def Fields.policy : Fields → Except Complaint Policy
  | ⟨some omission, some interleaving⟩ => .ok ⟨omission, interleaving⟩
  | _ => .error .form

def ofJson : Decoder Policy := Decoder.record Fields.all ⟨none, none⟩ Fields.policy

end Policy

def Symbol.toJson (s : Symbol) : Value := .ofFields [("name", .ofText s.name)]

end QuantityLayout
