import QuantityLayout.Path.Basic
import QuantityLayout.Text.Blank
import QuantityLayout.Text.Numeral

set_option autoImplicit false

namespace QuantityLayout

namespace Text

structure Trimmed (cs body : List Char) : Prop where
  between : ∃ before after, cs = before ++ body ++ after ∧ before.all isBlank ∧ after.all isBlank
  starts : body.head?.any isBlank = false
  ends : body.getLast?.any isBlank = false

/-- A count is denoted by digits, of any length, with gaps on either side. -/
inductive Counts : Nat → List Char → Prop where
  | digits {before ds after : List Char} : before.all isGap → ds.all Char.isDigit → ds ≠ [] →
      numeralValue ds < countBound → after.all isGap → Counts (numeralValue ds) (before ++ ds ++ after)

end Text

namespace Step

inductive Bracketed : Step → List Char → Prop where
  | index {i : Nat} {t : List Char} : Text.Counts i t → Bracketed (.index i) ('[' :: t ++ [']'])
  | element {k : Nat} {t : List Char} : Text.Counts k t → Bracketed (.element k) ('(' :: t ++ [')'])
  | cell {r c : Nat} {t u : List Char} : Text.Counts r t → Text.Counts c u →
      Bracketed (.cell r c) ('(' :: t ++ ',' :: u ++ [')'])

inductive Opens : Step → List Char → Prop where
  | name {n : String} : Text.isIdentifier n → Opens (.name n) n.toList
  | bracketed {s : Step} {t : List Char} : Bracketed s t → Opens s t

inductive Follows : Step → List Char → Prop where
  | name {n : String} : Text.isIdentifier n → Follows (.name n) ('.' :: n.toList)
  | bracketed {s : Step} {t : List Char} : Bracketed s t → Follows s t

end Step

namespace Path

inductive Follows : Path → List Char → Prop where
  | nil : Follows [] []
  | cons {s : Step} {p : Path} {t ts : List Char} : s.Follows t → Follows p ts → Follows (s :: p) (t ++ ts)

/-- The text, which has no white space around it, denotes the path. -/
inductive Denotes : Path → List Char → Prop where
  | root : Denotes [] []
  | steps {s : Step} {p : Path} {t ts : List Char} : s.Opens t → Follows p ts → Denotes (s :: p) (t ++ ts)

/-- No longer initial part of the text denotes a path than `taken`, which denotes this one. -/
structure Longest (p : Path) (taken rest : List Char) : Prop where
  denotes : Denotes p taken
  longest : ∀ {q t r}, t ++ r = taken ++ rest → Denotes q t → t.length ≤ taken.length

end Path
end QuantityLayout
