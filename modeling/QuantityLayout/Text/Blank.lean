/-!
White space around a text. `trim` takes it off both ends; `blank_trim_blank` says that nothing else goes.
-/
set_option autoImplicit false

namespace QuantityLayout.Text

/-- The 25 code points with the Unicode property White_Space. -/
def blankPoints : List Nat :=
  [0x09, 0x0A, 0x0B, 0x0C, 0x0D, 0x20, 0x85, 0xA0, 0x1680,
   0x2000, 0x2001, 0x2002, 0x2003, 0x2004, 0x2005, 0x2006, 0x2007, 0x2008, 0x2009, 0x200A,
   0x2028, 0x2029, 0x202F, 0x205F, 0x3000]

def isBlank (c : Char) : Bool := blankPoints.contains c.toNat

def trimLeft (cs : List Char) : List Char := cs.dropWhile isBlank

def trimRight (cs : List Char) : List Char := (cs.reverse.dropWhile isBlank).reverse

def trim (cs : List Char) : List Char := trimRight (trimLeft cs)

theorem blank_trimLeft (cs : List Char) :
    ∃ a, a.all isBlank ∧ cs = a ++ trimLeft cs :=
  ⟨cs.takeWhile isBlank, List.all_takeWhile, (List.takeWhile_append_dropWhile).symm⟩

theorem trimRight_blank (cs : List Char) :
    ∃ b, b.all isBlank ∧ cs = trimRight cs ++ b := by
  refine ⟨(cs.reverse.takeWhile isBlank).reverse, by simp, ?_⟩
  rw [trimRight, ← List.reverse_append, List.takeWhile_append_dropWhile, List.reverse_reverse]

theorem blank_trim_blank (cs : List Char) :
    ∃ a b, a.all isBlank ∧ b.all isBlank ∧ cs = a ++ trim cs ++ b := by
  obtain ⟨a, ha, h⟩ := blank_trimLeft cs
  obtain ⟨b, hb, h'⟩ := trimRight_blank (trimLeft cs)
  exact ⟨a, b, ha, hb, by rw [List.append_assoc, trim, ← h', ← h]⟩

end QuantityLayout.Text
