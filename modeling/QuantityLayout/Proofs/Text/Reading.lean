import QuantityLayout.Text.Blank
import QuantityLayout.Text.Identifier
import QuantityLayout.Text.Numeral

set_option autoImplicit false

namespace QuantityLayout.Text

def Stops (p : Char → Bool) (cs : List Char) : Prop := ∀ c ∈ cs.head?, p c = false

theorem stops_cons {p : Char → Bool} {c : Char} (h : p c = false) (cs : List Char) : Stops p (c :: cs) := by
  intro d hd
  obtain rfl : c = d := by simpa using hd
  exact h

theorem Stops.imp {p q : Char → Bool} {cs : List Char} (h : Stops p cs) (hqp : ∀ c, q c → p c) : Stops q cs := by
  intro c hc
  rw [Bool.eq_false_iff]
  intro hq
  have hp := hqp c hq
  rw [h c hc] at hp
  cases hp

theorem takeWhile_stops {p : Char → Bool} {cs rest : List Char} (hcs : ∀ c ∈ cs, p c) (hrest : Stops p rest) :
    (cs ++ rest).takeWhile p = cs := by
  rw [List.takeWhile_append_of_pos hcs]
  cases rest with
  | nil => simp
  | cons c rest => simp [hrest c rfl]

theorem dropWhile_of_stops {p : Char → Bool} {cs : List Char} (h : Stops p cs) : cs.dropWhile p = cs := by
  cases cs with
  | nil => rfl
  | cons c cs => simp [h c rfl]

theorem dropWhile_stops {p : Char → Bool} {cs rest : List Char} (hcs : ∀ c ∈ cs, p c) (hrest : Stops p rest) :
    (cs ++ rest).dropWhile p = rest := by
  rw [List.dropWhile_append_of_pos hcs, dropWhile_of_stops hrest]

theorem readIdentifier_toList {name : String} (hname : isIdentifier name) {rest : List Char}
    (hrest : Stops continuesIdentifier rest) : readIdentifier (name.toList ++ rest) = some (name, rest) := by
  unfold isIdentifier at hname
  have hback : String.ofList name.toList = name := String.ofList_toList
  cases hcs : name.toList with
  | nil => simp [hcs, isIdentifierChars] at hname
  | cons c cs =>
    simp only [hcs, isIdentifierChars, Bool.and_eq_true, List.all_eq_true] at hname
    rw [List.cons_append, readIdentifier, if_pos hname.1, takeWhile_stops hname.2 hrest,
      dropWhile_stops hname.2 hrest, ← hcs, hback]

theorem isDigit_of_mem_numeral {n : Nat} {c : Char} (h : c ∈ numeral n) : c.isDigit :=
  Nat.isDigit_of_mem_toDigits (by decide) (by decide) h

theorem isGap_of_isDigit {c : Char} (h : c.isDigit) : isGap c = false := by
  cases hg : isGap c with
  | false => rfl
  | true =>
    simp only [isGap, Bool.or_eq_true, beq_iff_eq] at hg
    rcases hg with ((rfl | rfl) | rfl) | rfl <;> revert h <;> decide

theorem trim_eq_self {cs : List Char} (h : ∀ c ∈ cs, isBlank c = false) : trim cs = cs := by
  have hleft : trimLeft cs = cs := dropWhile_of_stops fun c hc => h c (List.mem_of_mem_head? hc)
  have hright : cs.reverse.dropWhile isBlank = cs.reverse :=
    dropWhile_of_stops fun c hc => h c (List.mem_reverse.mp (List.mem_of_mem_head? hc))
  rw [trim, hleft, trimRight, hright, List.reverse_reverse]

-- None of the 25 code points of white space lies between 33 and 126.
theorem isBlank_of_graphic {c : Char} (hlow : 33 ≤ c.toNat) (hhigh : c.toNat ≤ 126) : isBlank c = false := by
  simp only [isBlank, blankPoints, List.contains_eq_mem, decide_eq_false_iff_not]
  intro h
  simp only [List.mem_cons, List.not_mem_nil, or_false] at h
  omega

theorem isBlank_of_isUpper {c : Char} (h : c.isUpper) : isBlank c = false := by
  have hrange : 65 ≤ c.toNat ∧ c.toNat ≤ 90 := of_decide_eq_true h
  exact isBlank_of_graphic (by omega) (by omega)

theorem isBlank_of_isLower {c : Char} (h : c.isLower) : isBlank c = false := by
  have hrange : (decide (97 ≤ c.toNat) && decide (c.toNat ≤ 122)) = true := h
  simp only [Bool.and_eq_true, decide_eq_true_eq] at hrange
  exact isBlank_of_graphic (by omega) (by omega)

theorem isBlank_of_isDigit {c : Char} (h : c.isDigit) : isBlank c = false := by
  have hrange : 48 ≤ c.toNat ∧ c.toNat ≤ 57 := Char.isDigit_iff_toNat.mp h
  exact isBlank_of_graphic (by omega) (by omega)

theorem isBlank_of_isAlphanum {c : Char} (h : c.isAlphanum) : isBlank c = false := by
  have hkinds : ((c.isUpper || c.isLower) || c.isDigit) = true := h
  simp only [Bool.or_eq_true] at hkinds
  rcases hkinds with (hupper | hlower) | hdigit
  · exact isBlank_of_isUpper hupper
  · exact isBlank_of_isLower hlower
  · exact isBlank_of_isDigit hdigit

theorem isBlank_of_continues {c : Char} (h : continuesIdentifier c) : isBlank c = false := by
  simp only [continuesIdentifier, Bool.or_eq_true, beq_iff_eq] at h
  rcases h with h | rfl
  · exact isBlank_of_isAlphanum h
  · decide

theorem continues_of_mem {name : String} (hname : isIdentifier name) {c : Char} (hc : c ∈ name.toList) :
    continuesIdentifier c := by
  unfold isIdentifier at hname
  cases hcs : name.toList with
  | nil => simp [hcs] at hc
  | cons d ds =>
    simp only [hcs, isIdentifierChars, Bool.and_eq_true, List.all_eq_true] at hname
    rw [hcs] at hc
    rcases List.mem_cons.mp hc with rfl | hc
    · have hstart := hname.1
      simp only [startsIdentifier, Bool.or_eq_true] at hstart
      simp only [continuesIdentifier, Char.isAlphanum, Bool.or_eq_true]
      exact hstart.imp_left .inl
    · exact hname.2 c hc

end QuantityLayout.Text
