import QuantityLayout.Storage
import QuantityLayout.Json.Forms
import QuantityLayout.Valuation.Basic

set_option autoImplicit false

namespace QuantityLayout

open Json

structure Snapshot.Entry where
  path : Path
  values : List Binary64
  deriving DecidableEq

abbrev Snapshot := List Snapshot.Entry

namespace Snapshot

def Entry.toJson (e : Entry) : Value :=
  .ofFields [("path", e.path.toJson), ("values", .list (e.values.map .ofBinary64))]

structure Fields where
  path : Option Path
  values : Option (List Binary64)

def Fields.all : List (Decoder.Field Fields) :=
  [⟨"path", (·.path.isSome), fun s v => do .ok { s with path := some (← Path.ofJson v) }⟩,
   ⟨"values", (·.values.isSome), fun s v => do .ok { s with values := some (← Decoder.list Decoder.binary64 v) }⟩]

def Fields.entry : Fields → Except Complaint Entry
  | ⟨some path, some values⟩ => .ok ⟨path, values⟩
  | _ => .error .form

def Entry.ofJson : Decoder Entry := Decoder.record Fields.all ⟨none, none⟩ Fields.entry

def toJson (s : Snapshot) : Value := .list (s.map Entry.toJson)

def ofJson : Decoder Snapshot := Decoder.list Entry.ofJson

end Snapshot

namespace Valuation

variable {α : Type}

def snapshot (v : Valuation α) : Snapshot := List.zipWith (fun s xs => ⟨s.path, xs⟩) v.layout.slots v.buffers

def save (v : Valuation α) : String := v.snapshot.toJson.render .pretty

def stage (v : Valuation α) : Snapshot → Except Error (List (Nat × List Binary64))
  | [] => .ok []
  | e :: es => do
    let i ← v.checkCount e.path e.values.length
    let rest ← v.stage es
    .ok ((i, e.values) :: rest)

def apply (v : Valuation α) (s : Snapshot) : Except Error (Valuation α) :=
  (v.stage s).map fun writes => writes.foldl (fun v (i, xs) => v.setBuffer i xs) v

def load (v : Valuation α) (text : String) : Except Failure (Valuation α) :=
  match decode Snapshot.ofJson text with
  | .error f => .error (.json f)
  | .ok s => (v.apply s).mapError .error

end Valuation
end QuantityLayout
