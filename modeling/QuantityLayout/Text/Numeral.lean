/-!
Counts and their decimal numerals. A count is a natural number that fits in 64 bits, and a sum of counts keeps no more
than 64 bits; a numeral may stand between spaces, tabs and line ends.
-/
set_option autoImplicit false

namespace QuantityLayout

/-- Extents, indices and offsets stay below this bound. -/
def countBound : Nat := UInt64.size

/-- What 64 bits keep of a sum. -/
def word (n : Nat) : Nat := n % countBound

theorem countBound_pos : 0 < countBound := by decide

theorem word_lt (n : Nat) : word n < countBound := Nat.mod_lt n countBound_pos

theorem word_of_lt {n : Nat} (h : n < countBound) : word n = n := Nat.mod_eq_of_lt h

theorem word_add_left (m n : Nat) : word (word m + n) = word (m + n) := Nat.mod_add_mod ..

namespace Text

def isGap (c : Char) : Bool := c == ' ' || c == '\t' || c == '\r' || c == '\n'

def skipGap (cs : List Char) : List Char := cs.dropWhile isGap

def numeral (n : Nat) : List Char := Nat.toDigits 10 n

def numeralValue (ds : List Char) : Nat := Nat.ofDigitChars 10 ds 0

theorem numeralValue_numeral (n : Nat) : numeralValue (numeral n) = n :=
  Nat.ofDigitChars_ten_toDigits

theorem numeral_inj {m n : Nat} (h : numeral m = numeral n) : m = n := by
  rw [← numeralValue_numeral m, h, numeralValue_numeral]

/-- A numeral with the gaps around it; its value must be a count. -/
def readNumeral (cs : List Char) : Option (Nat × List Char) :=
  let cs := skipGap cs
  let ds := cs.takeWhile Char.isDigit
  if ds.isEmpty || countBound ≤ numeralValue ds then none
  else some (numeralValue ds, skipGap (cs.dropWhile Char.isDigit))

theorem skipGap_le (cs : List Char) : (skipGap cs).length ≤ cs.length :=
  (List.dropWhile_suffix isGap).length_le

theorem readNumeral_shorter {cs rest : List Char} {n : Nat}
    (h : readNumeral cs = some (n, rest)) : rest.length < cs.length := by
  simp only [readNumeral] at h
  split at h
  · simp at h
  · next hd =>
    simp only [Option.some.injEq, Prod.mk.injEq] at h
    have hne : (skipGap cs).takeWhile Char.isDigit ≠ [] := by
      intro he; simp [he] at hd
    have hpos := List.length_pos_iff.mpr hne
    have hsplit : ((skipGap cs).takeWhile Char.isDigit).length
        + ((skipGap cs).dropWhile Char.isDigit).length = (skipGap cs).length := by
      rw [← List.length_append, List.takeWhile_append_dropWhile]
    have h1 := skipGap_le cs
    have h2 := skipGap_le ((skipGap cs).dropWhile Char.isDigit)
    rw [← h.2]
    omega

end Text
end QuantityLayout
