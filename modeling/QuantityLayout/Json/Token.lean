import QuantityLayout.Json.Number
import QuantityLayout.Json.Quoted

set_option autoImplicit false

namespace QuantityLayout.Json

/-- The text of a string is missing if its escapes leave half of a surrogate pair alone. -/
inductive Token where
  | null : Token
  | bool : Bool → Token
  | number : Number → Token
  | text : Option String → Token
  | openList : Token
  | closeList : Token
  | openRecord : Token
  | closeRecord : Token
  | colon : Token
  | comma : Token
  deriving DecidableEq, Repr

namespace Token

def readText (cs : List Char) : Option (Token × List Char) :=
  match Quoted.readPieces cs with
  | some (ps, rest) => some (.text ((Quoted.join ps).map String.ofList), rest)
  | none => none

def readNumber (cs : List Char) : Option (Token × List Char) :=
  match Number.read cs with
  | some (n, rest) => some (.number n, rest)
  | none => none

def read : List Char → Option (Token × List Char)
  | 'n' :: 'u' :: 'l' :: 'l' :: cs => some (.null, cs)
  | 't' :: 'r' :: 'u' :: 'e' :: cs => some (.bool true, cs)
  | 'f' :: 'a' :: 'l' :: 's' :: 'e' :: cs => some (.bool false, cs)
  | '[' :: cs => some (.openList, cs)
  | ']' :: cs => some (.closeList, cs)
  | '{' :: cs => some (.openRecord, cs)
  | '}' :: cs => some (.closeRecord, cs)
  | ':' :: cs => some (.colon, cs)
  | ',' :: cs => some (.comma, cs)
  | '"' :: cs => readText cs
  | cs => readNumber cs

theorem readNumber_shorter {cs rest : List Char} {t : Token}
    (h : readNumber cs = some (t, rest)) : rest.length < cs.length := by
  unfold readNumber at h
  split at h
  · next hr =>
    simp only [Option.some.injEq, Prod.mk.injEq] at h
    exact h.2 ▸ Number.read_shorter hr
  · simp at h

theorem read_shorter {cs rest : List Char} {t : Token}
    (h : read cs = some (t, rest)) : rest.length < cs.length := by
  unfold read at h
  split at h
  case h_10 =>
    unfold readText at h
    split at h
    · next hr =>
      simp only [Option.some.injEq, Prod.mk.injEq] at h
      exact h.2 ▸ Nat.lt_succ_of_lt (Quoted.readPieces_shorter hr)
    · simp at h
  case h_11 => exact readNumber_shorter h
  all_goals
    simp only [Option.some.injEq, Prod.mk.injEq] at h
    simp only [← h.2, List.length_cons]
    omega

def readAll (cs : List Char) : Option (List Token) :=
  match _h : Text.skipGap cs with
  | [] => some []
  | c :: r =>
    match _h' : read (c :: r) with
    | some (t, rest) => (readAll rest).map (t :: ·)
    | none => none
termination_by cs.length
decreasing_by
  have h1 := read_shorter _h'
  have h2 := Text.skipGap_le cs
  rw [_h] at h2
  omega

end Token
end QuantityLayout.Json
