/-!
The inside of JSON strings. An escape may name half of a surrogate pair; a string in which a half stands alone is
well formed, but it denotes no text.
-/
set_option autoImplicit false

namespace QuantityLayout.Json.Quoted

def hexDigit (n : Nat) : Char := Nat.digitChar n

def escape (c : Char) : List Char :=
  if c = '"' then ['\\', '"']
  else if c = '\\' then ['\\', '\\']
  else if c = '\x08' then ['\\', 'b']
  else if c = '\x0c' then ['\\', 'f']
  else if c = '\n' then ['\\', 'n']
  else if c = '\r' then ['\\', 'r']
  else if c = '\t' then ['\\', 't']
  else if c.toNat < 0x20 then ['\\', 'u', '0', '0', hexDigit (c.toNat / 16), hexDigit (c.toNat % 16)]
  else [c]

def chars (s : List Char) : List Char := '"' :: s.flatMap escape ++ ['"']

/-- A character, or a code unit named by an escape. -/
inductive Piece where
  | char : Char → Piece
  | unit : Nat → Piece
  deriving DecidableEq, Repr

def hexValue (c : Char) : Option Nat :=
  if c.isDigit then some (c.toNat - '0'.toNat)
  else if 'a' ≤ c ∧ c ≤ 'f' then some (c.toNat - 'a'.toNat + 10)
  else if 'A' ≤ c ∧ c ≤ 'F' then some (c.toNat - 'A'.toNat + 10)
  else none

def codeUnit (a b c d : Char) : Option Nat := do
  some ((((← hexValue a) * 16 + (← hexValue b)) * 16 + (← hexValue c)) * 16 + (← hexValue d))

def unescape : Char → Option Char
  | '"' => some '"'
  | '\\' => some '\\'
  | '/' => some '/'
  | 'b' => some '\x08'
  | 'f' => some '\x0c'
  | 'n' => some '\n'
  | 'r' => some '\r'
  | 't' => some '\t'
  | _ => none

def readPieces : List Char → Option (List Piece × List Char)
  | [] => none
  | '"' :: rest => some ([], rest)
  | '\\' :: 'u' :: a :: b :: c :: d :: rest =>
    match codeUnit a b c d, readPieces rest with
    | some n, some (ps, rest) => some (.unit n :: ps, rest)
    | _, _ => none
  | '\\' :: e :: rest =>
    match unescape e, readPieces rest with
    | some c, some (ps, rest) => some (.char c :: ps, rest)
    | _, _ => none
  | c :: rest =>
    if c = '\\' ∨ c.toNat < 0x20 then none
    else
      match readPieces rest with
      | some (ps, rest) => some (.char c :: ps, rest)
      | none => none

def isHigh (n : Nat) : Bool := 0xD800 ≤ n && n < 0xDC00

def isLow (n : Nat) : Bool := 0xDC00 ≤ n && n < 0xE000

/-- Two halves in sequence make one character; a half that stands alone makes none. -/
def join : List Piece → Option (List Char)
  | [] => some []
  | .char c :: ps => (join ps).map (c :: ·)
  | .unit h :: .unit l :: ps =>
    if isHigh h && isLow l then
      (join ps).map (Char.ofNat (0x10000 + (h - 0xD800) * 0x400 + (l - 0xDC00)) :: ·)
    else if isHigh h || isLow h then none
    else (join (.unit l :: ps)).map (Char.ofNat h :: ·)
  | .unit n :: ps => if isHigh n || isLow n then none else (join ps).map (Char.ofNat n :: ·)

theorem readPieces_shorter {cs rest : List Char} {ps : List Piece}
    (h : readPieces cs = some (ps, rest)) : rest.length < cs.length := by
  fun_induction readPieces cs generalizing ps rest with
  | case1 | case4 | case6 | case7 | case9 => simp_all
  | case2 => simp_all
  | case3 _ _ _ _ _ _ _ _ hr _ ih =>
    simp only [Option.some.injEq, Prod.mk.injEq] at h
    have := ih hr
    simp only [List.length_cons, ← h.2]
    omega
  | case5 => grind
  | case8 => grind

end QuantityLayout.Json.Quoted
