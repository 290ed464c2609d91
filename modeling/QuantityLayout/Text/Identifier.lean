set_option autoImplicit false

namespace QuantityLayout.Text

def startsIdentifier (c : Char) : Bool := c.isAlpha || c == '_'

def continuesIdentifier (c : Char) : Bool := c.isAlphanum || c == '_'

def isIdentifierChars : List Char → Bool
  | [] => false
  | c :: cs => startsIdentifier c && cs.all continuesIdentifier

def isIdentifier (name : String) : Bool := isIdentifierChars name.toList

def readIdentifier : List Char → Option (String × List Char)
  | [] => none
  | c :: cs =>
    if startsIdentifier c then
      some (String.ofList (c :: cs.takeWhile continuesIdentifier), cs.dropWhile continuesIdentifier)
    else none

theorem readIdentifier_eq_some {cs rest : List Char} {name : String} (h : readIdentifier cs = some (name, rest)) :
    ∃ c tail, cs = c :: tail ∧ startsIdentifier c ∧ name = String.ofList (c :: tail.takeWhile continuesIdentifier) ∧
      rest = tail.dropWhile continuesIdentifier := by
  cases cs with
  | nil => cases h
  | cons c cs =>
    by_cases hc : startsIdentifier c
    · simp only [readIdentifier, hc, if_true, Option.some.injEq, Prod.mk.injEq] at h
      exact ⟨c, cs, rfl, hc, h.1.symm, h.2.symm⟩
    · simp [readIdentifier, hc] at h

theorem isIdentifier_of_read {cs rest : List Char} {name : String}
    (h : readIdentifier cs = some (name, rest)) : isIdentifier name := by
  obtain ⟨c, tail, -, hc, rfl, -⟩ := readIdentifier_eq_some h
  simp [isIdentifier, isIdentifierChars, hc]

theorem readIdentifier_append {cs rest : List Char} {name : String}
    (h : readIdentifier cs = some (name, rest)) : cs = name.toList ++ rest := by
  obtain ⟨c, tail, rfl, -, rfl, rfl⟩ := readIdentifier_eq_some h
  simp [List.takeWhile_append_dropWhile]

theorem readIdentifier_shorter {cs rest : List Char} {name : String}
    (h : readIdentifier cs = some (name, rest)) : rest.length < cs.length := by
  obtain ⟨c, tail, rfl, -, -, rfl⟩ := readIdentifier_eq_some h
  have hle := (List.dropWhile_suffix continuesIdentifier (l := tail)).length_le
  rw [List.length_cons]
  omega

end QuantityLayout.Text
