import QuantityLayout.Json.Value

set_option autoImplicit false

namespace QuantityLayout.Json

/-- What stands before an item at a depth, and what follows the colon after a key. -/
structure Style where
  newline : Nat → List Char
  gap : List Char

namespace Style

def compact : Style := ⟨fun _ => [], []⟩

def pretty : Style := ⟨fun depth => '\n' :: List.replicate (2 * depth) ' ', [' ']⟩

end Style

namespace Value

/-- A string that denotes no text is written as an empty one. -/
def textChars (s : Option String) : List Char := Quoted.chars (s.getD "").toList

mutual
def chars (style : Style) (depth : Nat) : Value → List Char
  | .null => ['n', 'u', 'l', 'l']
  | .bool true => ['t', 'r', 'u', 'e']
  | .bool false => ['f', 'a', 'l', 's', 'e']
  | .number n => n.chars
  | .text s => textChars s
  | .list [] => ['[', ']']
  | .list (v :: vs) =>
    '[' :: style.newline (depth + 1) ++ v.chars style (depth + 1) ++ itemChars style (depth + 1) vs
      ++ style.newline depth ++ [']']
  | .record [] => ['{', '}']
  | .record ((k, v) :: ms) =>
    '{' :: style.newline (depth + 1) ++ textChars k ++ ':' :: style.gap ++ v.chars style (depth + 1)
      ++ memberChars style (depth + 1) ms ++ style.newline depth ++ ['}']

def itemChars (style : Style) (depth : Nat) : List Value → List Char
  | [] => []
  | v :: vs => ',' :: style.newline depth ++ v.chars style depth ++ itemChars style depth vs

def memberChars (style : Style) (depth : Nat) : List (Option String × Value) → List Char
  | [] => []
  | (k, v) :: ms =>
    ',' :: style.newline depth ++ textChars k ++ ':' :: style.gap ++ v.chars style depth
      ++ memberChars style depth ms
end

def render (style : Style) (v : Value) : String := String.ofList (v.chars style 0)

end Value
end QuantityLayout.Json
