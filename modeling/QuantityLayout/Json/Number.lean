import QuantityLayout.Binary64.Basic
import QuantityLayout.Binary64.Shortest
import QuantityLayout.Text.Numeral

set_option autoImplicit false

namespace QuantityLayout.Json

open Text (numeral numeralValue)

/-- `whole`, then `fraction` after a point unless it is empty, then an exponent with its sign. -/
structure Number where
  negative : Bool
  whole : List Char
  fraction : List Char
  exponent : Option (Bool × List Char)
  deriving DecidableEq, Repr

namespace Number

def chars (n : Number) : List Char :=
  (if n.negative then ['-'] else []) ++ n.whole
    ++ (if n.fraction.isEmpty then [] else '.' :: n.fraction)
    ++ (match n.exponent with
        | none => []
        | some (negative, ds) => 'e' :: (if negative then '-' else '+') :: ds)

def readDigits (cs : List Char) : Option (List Char × List Char) :=
  match cs.takeWhile Char.isDigit with
  | [] => none
  | ds => some (ds, cs.dropWhile Char.isDigit)

/-- A zero stands alone at the front. -/
def readWhole : List Char → Option (List Char × List Char)
  | '0' :: cs => some (['0'], cs)
  | cs => readDigits cs

def readFraction : List Char → Option (List Char × List Char)
  | '.' :: cs => readDigits cs
  | cs => some ([], cs)

def readExponentDigits (negative : Bool) (cs : List Char) : Option (Option (Bool × List Char) × List Char) :=
  (readDigits cs).map fun (ds, rest) => (some (negative, ds), rest)

def readExponent : List Char → Option (Option (Bool × List Char) × List Char)
  | 'e' :: '-' :: cs | 'E' :: '-' :: cs => readExponentDigits true cs
  | 'e' :: '+' :: cs | 'E' :: '+' :: cs => readExponentDigits false cs
  | 'e' :: cs | 'E' :: cs => readExponentDigits false cs
  | cs => some (none, cs)

def readUnsigned (negative : Bool) (cs : List Char) : Option (Number × List Char) := do
  let (whole, cs) ← readWhole cs
  let (fraction, cs) ← readFraction cs
  let (exponent, cs) ← readExponent cs
  some (⟨negative, whole, fraction, exponent⟩, cs)

def read : List Char → Option (Number × List Char)
  | '-' :: cs => readUnsigned true cs
  | cs => readUnsigned false cs

theorem readDigits_shorter {cs ds rest : List Char}
    (h : readDigits cs = some (ds, rest)) : rest.length < cs.length := by
  unfold readDigits at h
  split at h
  · simp at h
  · next hne =>
    simp only [Option.some.injEq, Prod.mk.injEq] at h
    have hlen : (cs.takeWhile Char.isDigit).length + (cs.dropWhile Char.isDigit).length = cs.length := by
      rw [← List.length_append, List.takeWhile_append_dropWhile]
    have hpos := List.length_pos_iff.mpr hne
    rw [← h.2]
    omega

theorem readWhole_shorter {cs ds rest : List Char}
    (h : readWhole cs = some (ds, rest)) : rest.length < cs.length := by
  unfold readWhole at h
  split at h
  · simp only [Option.some.injEq, Prod.mk.injEq] at h
    simp [← h.2]
  · exact readDigits_shorter h

theorem readFraction_le {cs ds rest : List Char}
    (h : readFraction cs = some (ds, rest)) : rest.length ≤ cs.length := by
  unfold readFraction at h
  split at h
  · have := readDigits_shorter h
    simp only [List.length_cons]
    omega
  · simp only [Option.some.injEq, Prod.mk.injEq] at h
    simp [h.2]

theorem readExponentDigits_shorter {negative : Bool} {cs rest : List Char} {e : Option (Bool × List Char)}
    (h : readExponentDigits negative cs = some (e, rest)) : rest.length < cs.length := by
  simp only [readExponentDigits, Option.map_eq_some_iff] at h
  obtain ⟨⟨ds, r⟩, hr, he⟩ := h
  cases he
  exact readDigits_shorter hr

theorem readExponent_le {cs rest : List Char} {e : Option (Bool × List Char)}
    (h : readExponent cs = some (e, rest)) : rest.length ≤ cs.length := by
  unfold readExponent at h
  split at h
  case h_7 => simp_all
  all_goals
    have := readExponentDigits_shorter h
    simp only [List.length_cons]
    omega

theorem readUnsigned_shorter {negative : Bool} {cs rest : List Char} {n : Number}
    (h : readUnsigned negative cs = some (n, rest)) : rest.length < cs.length := by
  simp only [readUnsigned, Option.bind_eq_bind, Option.bind_eq_some_iff] at h
  obtain ⟨⟨w, c1⟩, hw, ⟨f, c2⟩, hf, ⟨e, c3⟩, he, hn⟩ := h
  simp only [Option.some.injEq, Prod.mk.injEq] at hn
  have h1 := readWhole_shorter hw
  have h2 := readFraction_le hf
  have h3 := readExponent_le he
  rw [← hn.2]
  simp only at h1 h2 h3
  omega

theorem read_shorter {cs rest : List Char} {n : Number}
    (h : read cs = some (n, rest)) : rest.length < cs.length := by
  unfold read at h
  split at h
  · exact Nat.lt_succ_of_lt (readUnsigned_shorter h)
  · exact readUnsigned_shorter h

def ofCount (n : Nat) : Number := ⟨false, numeral n, [], none⟩

def count? (n : Number) : Option Nat :=
  if !n.negative && n.fraction.isEmpty && n.exponent.isNone && numeralValue n.whole < countBound then
    some (numeralValue n.whole)
  else none

def significand (acc : Nat) : List Char → Nat × List Char
  | [] => (acc, [])
  | d :: ds =>
    let next := 10 * acc + (d.toNat - '0'.toNat)
    if next < countBound then significand next ds else (acc, d :: ds)

def exponentValue : Option (Bool × List Char) → Int
  | none => 0
  | some (negative, ds) => if negative then -(numeralValue ds : Int) else numeralValue ds

def power (k : Nat) : Binary64 := Binary64.ofNat (Binary64.pow10 k)

/-- Scales by powers of ten of at most 308, rounding each time. A result that is infinite is none. -/
def scale (x : Binary64) (e : Int) : Option Binary64 :=
  if e.natAbs ≤ 308 then
    if 0 ≤ e then
      let y := x.mulSize (power e.natAbs)
      if y.isFinite then some y else none
    else some (x.divSize (power e.natAbs))
  else if x.isZero then some x
  else if h : 0 ≤ e then none
  else scale (x.divSize (power 308)) (e + 308)
termination_by e.natAbs
decreasing_by omega

/-- The significand holds the leading digits that fit in 64 bits. It is rounded, then scaled, so the result is not
always the nearest number. -/
def toBinary64? (n : Number) : Option Binary64 :=
  let (s, dropped) := significand 0 n.whole
  let (s', rest) := significand s n.fraction
  let e := (dropped.length : Int) - (n.fraction.length - rest.length : Nat) + exponentValue n.exponent
  (scale (Binary64.ofNat s') e).map (Binary64.withSign n.negative)

/-- The digits of a decimal `ds · 10ᵉ`: positional from 10⁻⁵ to below 10¹⁶, with a zero after the point of an integer;
otherwise with one digit before the point and an exponent. -/
def ofDecimal (negative : Bool) (ds : List Char) (e : Int) : Number :=
  let point : Int := ds.length + e
  if 0 < point ∧ point ≤ 16 then
    let fraction := ds.drop point.toNat
    ⟨negative, ds.take point.toNat ++ List.replicate e.toNat '0', if fraction.isEmpty then ['0'] else fraction, none⟩
  else if -5 < point ∧ point ≤ 0 then
    ⟨negative, ['0'], List.replicate (-point).toNat '0' ++ ds, none⟩
  else ⟨negative, ds.take 1, ds.drop 1, some (point - 1 < 0, numeral (point - 1).natAbs)⟩

def ofBinary64? (x : Binary64) : Option Number :=
  if !x.isFinite then none
  else if x.isZero then some ⟨x.isNegative, ['0'], ['0'], none⟩
  else
    let (m, e) := Binary64.shortest x.magnitude
    some (ofDecimal x.isNegative (numeral m) e)

end Number
end QuantityLayout.Json
