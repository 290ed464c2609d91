import QuantityLayout.Json.Value
import QuantityLayout.Layout.Basic
import QuantityLayout.Path.Reader
/-!
Reading values of the library out of JSON. Reading goes from left to right and stops at the first complaint; a complaint
counts only if the text as a whole is well formed.
-/
set_option autoImplicit false

namespace QuantityLayout.Json

/-- The form of the value is not the expected one, or the value breaks a rule of the library. -/
inductive Complaint where
  | form : Complaint
  | path : Path.Fault → Complaint
  | shape : Shape.Fault → Complaint
  | conflict : Layout.Conflict → Complaint
  | offsets : Complaint
  deriving DecidableEq, Repr

inductive Rejection where
  | malformed : Rejection
  | unfit : Complaint → Rejection
  deriving DecidableEq, Repr

abbrev Decoder (α : Type) := Value → Except Complaint α

def decode {α : Type} (read : Decoder α) (text : String) : Except Rejection α :=
  match Value.parse? text.toList with
  | none => .error .malformed
  | some v =>
    match read v with
    | .ok a => .ok a
    | .error c => if v.isPlain Value.maxDepth then .error (.unfit c) else .error .malformed

namespace Decoder

variable {α β : Type}

def count : Decoder Nat
  | .number n =>
    match n.count? with
    | some k => .ok k
    | none => .error .form
  | _ => .error .form

def binary64 : Decoder Binary64
  | .number n =>
    match n.toBinary64? with
    | some x => .ok x
    | none => .error .form
  | _ => .error .form

def text : Decoder String
  | .text (some s) => .ok s
  | _ => .error .form

def all (item : Decoder α) : List Value → Except Complaint (List α)
  | [] => .ok []
  | v :: vs => do
    let x ← item v
    let xs ← all item vs
    .ok (x :: xs)

def list (item : Decoder α) : Decoder (List α)
  | .list vs => all item vs
  | _ => .error .form

def pair (first : Decoder α) (second : Decoder β) : Decoder (α × β)
  | .list [a, b] => do
    let x ← first a
    let y ← second b
    .ok (x, y)
  | _ => .error .form

/-- A field of a record, put into the part of the record that has been read so far. -/
structure Field (σ : Type) where
  name : String
  isSet : σ → Bool
  read : σ → Value → Except Complaint σ

variable {σ : Type}

/-- Members in any sequence: those of other names are passed over, and none may come twice. -/
def members (fields : List (Field σ)) : σ → List (Option String × Value) → Except Complaint σ
  | s, [] => .ok s
  | _, (none, _) :: _ => .error .form
  | s, (some k, v) :: ms =>
    match fields.find? (·.name == k) with
    | none => members fields s ms
    | some f => if f.isSet s then .error .form else do members fields (← f.read s v) ms

def inSequence : List (Field σ) → σ → List Value → Except Complaint σ
  | [], s, [] => .ok s
  | f :: fs, s, v :: vs => do inSequence fs (← f.read s v) vs
  | _, _, _ => .error .form

def record (fields : List (Field σ)) (blank : σ) (finish : σ → Except Complaint α) : Decoder α
  | .record ms => do finish (← members fields blank ms)
  | .list vs => do finish (← inSequence fields blank vs)
  | _ => .error .form

end Decoder
end QuantityLayout.Json
