import QuantityLayout.Json.Forms
/-!
The JSON form of a layout. Reading it computes the layout of its leaves anew; the offsets and totals that were read must
agree with it.
-/
set_option autoImplicit false

namespace QuantityLayout.Layout

open Json

namespace Slot

def toJson (s : Slot) : Value :=
  .ofFields [("path", s.path.toJson), ("shape", s.shape.toJson), ("numel_offset", .ofCount s.numelOffset),
    ("nnz_offset", .ofCount s.nnzOffset)]

structure Fields where
  path : Option Path
  shape : Option Shape
  numelOffset : Option Nat
  nnzOffset : Option Nat

def Fields.all : List (Decoder.Field Fields) :=
  [⟨"path", (·.path.isSome), fun s v => do .ok { s with path := some (← Path.ofJson v) }⟩,
   ⟨"shape", (·.shape.isSome), fun s v => do .ok { s with shape := some (← Shape.ofJson v) }⟩,
   ⟨"numel_offset", (·.numelOffset.isSome), fun s v => do .ok { s with numelOffset := some (← Decoder.count v) }⟩,
   ⟨"nnz_offset", (·.nnzOffset.isSome), fun s v => do .ok { s with nnzOffset := some (← Decoder.count v) }⟩]

def Fields.slot : Fields → Except Complaint Slot
  | ⟨some path, some shape, some numelOffset, some nnzOffset⟩ => .ok ⟨path, shape, numelOffset, nnzOffset⟩
  | _ => .error .form

def ofJson : Decoder Slot := Decoder.record Fields.all ⟨none, none, none, none⟩ Fields.slot

end Slot

def toJson (l : Layout) : Value :=
  .ofFields [("total_numel", .ofCount l.totalNumel), ("total_nnz", .ofCount l.totalNnz),
    ("leaves", .list (l.slots.map Slot.toJson))]

structure Fields where
  totalNumel : Option Nat
  totalNnz : Option Nat
  slots : Option (List Slot)

def Fields.all : List (Decoder.Field Fields) :=
  [⟨"total_numel", (·.totalNumel.isSome), fun s v => do .ok { s with totalNumel := some (← Decoder.count v) }⟩,
   ⟨"total_nnz", (·.totalNnz.isSome), fun s v => do .ok { s with totalNnz := some (← Decoder.count v) }⟩,
   ⟨"leaves", (·.slots.isSome), fun s v => do .ok { s with slots := some (← Decoder.list Slot.ofJson v) }⟩]

def check (read : Layout) : Except Complaint Layout :=
  match ofLeaves read.leaves with
  | .error c => .error (.conflict c)
  | .ok l => if l = read then .ok l else .error .offsets

def Fields.layout : Fields → Except Complaint Layout
  | ⟨some totalNumel, some totalNnz, some slots⟩ => check ⟨slots, totalNumel, totalNnz⟩
  | _ => .error .form

def ofJson : Decoder Layout := Decoder.record Fields.all ⟨none, none, none⟩ Fields.layout

def save (l : Layout) : String := l.toJson.render .pretty

def load (text : String) : Except Rejection Layout := decode ofJson text

end QuantityLayout.Layout
