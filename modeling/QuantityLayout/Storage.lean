import QuantityLayout.Error.Message
import QuantityLayout.Layout.Json
import QuantityLayout.Registry.Basic
/-!
Layouts in files, and failures of the operations that read or write text: an error of the registry, a place that cannot
be read or written, a text that does not decode, or a plain complaint. A file is seen as its bytes, or as nothing if it
cannot be opened.
-/
set_option autoImplicit false

namespace QuantityLayout

inductive Failure where
  | error : Error → Failure
  | storage : Failure
  | json : Json.Rejection → Failure
  | other : String → Failure
  deriving DecidableEq

/-- Only the rules of the library are worded; a form as such is not. -/
def Json.Complaint.message? : Json.Complaint → Option String
  | .form => none
  | .path f => some f.message
  | .shape f => some f.message
  | .conflict c => some c.message
  | .offsets => some "layout offsets are inconsistent with leaf shapes"

def Json.Rejection.message? : Json.Rejection → Option String
  | .malformed => none
  | .unfit c => c.message?

def Failure.message? : Failure → Option String
  | .error e => some s!"Structure error: {e.message}"
  | .storage => none
  | .json r => r.message?.map fun m => s!"JSON error: {m}"
  | .other text => some s!"Error: {text}"

/-- Bytes that are no UTF-8 text count as a file that cannot be read. -/
def Layout.loadFile (content : Option ByteArray) : Except Failure Layout :=
  match content.bind String.fromUTF8? with
  | none => .error .storage
  | some text => (Layout.load text).mapError .json

/-- The content of the file into which a registry saves its layout; an unfrozen registry has none to save. -/
def Registry.saveFile {α : Type} (r : Registry α) (writable : Bool) : Except Failure String :=
  match r.layout with
  | .error e => .error (.error e)
  | .ok l => if writable then .ok l.save else .error .storage

end QuantityLayout
