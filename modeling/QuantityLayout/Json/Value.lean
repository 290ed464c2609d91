import QuantityLayout.Json.Token
/-!
JSON values, and how a sequence of tokens builds one. The builder takes one token at a time and keeps the lists and
records that are still open.
-/
set_option autoImplicit false

namespace QuantityLayout.Json

/-- A record keeps its members as they were written, repeats included. -/
inductive Value where
  | null : Value
  | bool : Bool → Value
  | number : Number → Value
  | text : Option String → Value
  | list : List Value → Value
  | record : List (Option String × Value) → Value

/-- A list or a record that is still open, latest part first. -/
inductive Frame where
  | items : List Value → Frame
  | members : List (Option String × Value) → (key : Option String) → Frame

/-- What has been built, and what may come next. -/
inductive Builder where
  | value : List Frame → Builder
  | firstItem : List Frame → Builder
  | firstKey : List Frame → Builder
  | key : List (Option String × Value) → List Frame → Builder
  | colon : List (Option String × Value) → (key : Option String) → List Frame → Builder
  | built : Value → List Frame → Builder

namespace Builder

def enter (outer : List Frame) : Token → Option Builder
  | .null => some (.built .null outer)
  | .bool b => some (.built (.bool b) outer)
  | .number n => some (.built (.number n) outer)
  | .text s => some (.built (.text s) outer)
  | .openList => some (.firstItem outer)
  | .openRecord => some (.firstKey outer)
  | _ => none

def leave (v : Value) : List Frame → Token → Option Builder
  | .items vs :: outer, .comma => some (.value (.items (v :: vs) :: outer))
  | .items vs :: outer, .closeList => some (.built (.list (v :: vs).reverse) outer)
  | .members ms k :: outer, .comma => some (.key ((k, v) :: ms) outer)
  | .members ms k :: outer, .closeRecord => some (.built (.record ((k, v) :: ms).reverse) outer)
  | _, _ => none

def step : Builder → Token → Option Builder
  | .value outer, t => enter outer t
  | .firstItem outer, .closeList => some (.built (.list []) outer)
  | .firstItem outer, t => enter (.items [] :: outer) t
  | .firstKey outer, .closeRecord => some (.built (.record []) outer)
  | .firstKey outer, .text k => some (.colon [] k outer)
  | .key ms outer, .text k => some (.colon ms k outer)
  | .colon ms k outer, .colon => some (.value (.members ms k :: outer))
  | .built v outer, t => leave v outer t
  | _, _ => none

def result? : Builder → Option Value
  | .built v [] => some v
  | _ => none

end Builder

namespace Value

def ofTokens? (ts : List Token) : Option Value := (ts.foldlM Builder.step (.value [])).bind Builder.result?

def parse? (cs : List Char) : Option Value := (Token.readAll cs).bind ofTokens?

/-- Lists and records may stand inside one another up to this depth. -/
def maxDepth : Nat := 127

mutual
/-- Every number has a value, every string denotes a text, and the nesting is at most as deep as said. -/
def isPlain (depth : Nat) : Value → Bool
  | .null | .bool _ => true
  | .number n => n.toBinary64?.isSome
  | .text s => s.isSome
  | .list vs => match depth with | 0 => false | d + 1 => allPlain d vs
  | .record ms => match depth with | 0 => false | d + 1 => membersPlain d ms

def allPlain (depth : Nat) : List Value → Bool
  | [] => true
  | v :: vs => v.isPlain depth && allPlain depth vs

def membersPlain (depth : Nat) : List (Option String × Value) → Bool
  | [] => true
  | (k, v) :: ms => k.isSome && v.isPlain depth && membersPlain depth ms
end

end Value
end QuantityLayout.Json
