import QuantityLayout.Json.Number
import QuantityLayout.Proofs.Binary64.Shortest
import QuantityLayout.Proofs.Text.Reading

set_option autoImplicit false

namespace QuantityLayout.Json.Number

open Text (numeral Stops)

def continues (c : Char) : Bool := c.isDigit || c == '.' || c == 'e' || c == 'E'

/-- Digits throughout, no zero at the front of others, and digits in the exponent if there is one. -/
structure Standard (n : Number) : Prop where
  whole : ∀ c ∈ n.whole, c.isDigit
  front : n.whole = ['0'] ∨ ∃ d ds, n.whole = d :: ds ∧ d ≠ '0'
  fraction : ∀ c ∈ n.fraction, c.isDigit
  exponent : ∀ b ds, n.exponent = some (b, ds) → ds ≠ [] ∧ ∀ c ∈ ds, c.isDigit

variable {cs ds rest : List Char}

theorem readDigits_append (hne : ds ≠ []) (hds : ∀ c ∈ ds, c.isDigit) (hrest : Stops Char.isDigit rest) :
    readDigits (ds ++ rest) = some (ds, rest) := by
  rw [readDigits, Text.takeWhile_stops hds hrest, Text.dropWhile_stops hds hrest]
  cases ds with
  | nil => exact absurd rfl hne
  | cons d ds => rfl

def fractionChars (ds : List Char) : List Char := if ds.isEmpty then [] else '.' :: ds

def exponentChars : Option (Bool × List Char) → List Char
  | none => []
  | some (negative, ds) => 'e' :: (if negative then '-' else '+') :: ds

theorem chars_eq (n : Number) : n.chars = (if n.negative then ['-'] else []) ++ n.whole ++ fractionChars n.fraction
    ++ exponentChars n.exponent := rfl

theorem stops_fractionChars {p : Char → Bool} (hpoint : p '.' = false) (h : Stops p rest) (ds : List Char) :
    Stops p (fractionChars ds ++ rest) := by
  cases ds with
  | nil => exact h
  | cons d ds => exact Text.stops_cons hpoint _

theorem stops_exponentChars {p : Char → Bool} (he : p 'e' = false) (h : Stops p rest)
    (e : Option (Bool × List Char)) : Stops p (exponentChars e ++ rest) := by
  cases e with
  | none => exact h
  | some e => exact Text.stops_cons he _

theorem readWhole_append {n : Number} (hn : n.Standard) (hrest : Stops Char.isDigit rest) :
    readWhole (n.whole ++ rest) = some (n.whole, rest) := by
  rcases hn.front with hzero | ⟨d, ds, hds, hd⟩
  · rw [hzero]
    rfl
  · have hread := readDigits_append (hds ▸ List.cons_ne_nil d ds) hn.whole hrest
    rw [hds] at hread ⊢
    rw [List.cons_append] at hread ⊢
    rw [readWhole, hread]
    exact fun _ heq => absurd (List.cons.inj heq).1 hd

theorem readFraction_append (hds : ∀ c ∈ ds, c.isDigit) (hdigit : Stops Char.isDigit rest)
    (hpoint : Stops (· == '.') rest) : readFraction (fractionChars ds ++ rest) = some (ds, rest) := by
  cases ds with
  | nil =>
    change readFraction rest = some ([], rest)
    rw [readFraction]
    rintro cs rfl
    cases hpoint '.' rfl
  | cons d ds => exact readDigits_append (List.cons_ne_nil d ds) hds hdigit

theorem readExponent_append {e : Option (Bool × List Char)}
    (he : ∀ b ds, e = some (b, ds) → ds ≠ [] ∧ ∀ c ∈ ds, c.isDigit) (hrest : Stops continues rest) :
    readExponent (exponentChars e ++ rest) = some (e, rest) := by
  cases e with
  | none =>
    rw [exponentChars, List.nil_append, readExponent]
    all_goals
      rintro cs rfl
      first | cases hrest 'e' rfl | cases hrest 'E' rfl
  | some e =>
    obtain ⟨negative, ds⟩ := e
    obtain ⟨hne, hds⟩ := he negative ds rfl
    have hread := readDigits_append hne hds (hrest.imp fun c hc => by simp [continues, hc])
    cases negative <;> simp [exponentChars, readExponent, readExponentDigits, hread]

theorem readUnsigned_append {n : Number} (hn : n.Standard) (hrest : Stops continues rest) (negative : Bool) :
    readUnsigned negative (n.whole ++ fractionChars n.fraction ++ exponentChars n.exponent ++ rest)
      = some ({ n with negative }, rest) := by
  have hdigit : Stops Char.isDigit rest := hrest.imp fun c hc => by simp [continues, hc]
  have hpoint : Stops (· == '.') rest := hrest.imp fun c hc => by simp [continues, hc]
  have hexponent := readExponent_append hn.exponent hrest
  have hfraction := readFraction_append hn.fraction (stops_exponentChars (by decide) hdigit n.exponent)
    (stops_exponentChars (by decide) hpoint n.exponent)
  have hwhole := readWhole_append hn
    (stops_fractionChars (by decide) (stops_exponentChars (by decide) hdigit n.exponent) n.fraction)
  simp only [List.append_assoc, readUnsigned, hwhole, hfraction, hexponent, Option.bind_eq_bind, Option.bind_some]

theorem Standard.exists_digit {n : Number} (hn : n.Standard) : ∃ d ds, n.whole = d :: ds ∧ d.isDigit := by
  obtain ⟨d, ds, hds⟩ : ∃ d ds, n.whole = d :: ds := by
    rcases hn.front with hzero | ⟨d, ds, hds, -⟩
    · exact ⟨_, _, hzero⟩
    · exact ⟨d, ds, hds⟩
  exact ⟨d, ds, hds, hn.whole d (hds ▸ List.mem_cons_self)⟩

theorem exists_front {n : Number} (hn : n.Standard) (rest : List Char) :
    ∃ c cs, n.chars ++ rest = c :: cs ∧ (c.isDigit ∨ c = '-') := by
  rw [chars_eq]
  cases n.negative with
  | true => exact ⟨'-', _, rfl, .inr rfl⟩
  | false =>
    obtain ⟨d, ds, hds, hd⟩ := hn.exists_digit
    rw [hds]
    exact ⟨d, _, rfl, .inl hd⟩

theorem read_chars {n : Number} (hn : n.Standard) (hrest : Stops continues rest) :
    read (n.chars ++ rest) = some (n, rest) := by
  have hread := readUnsigned_append hn hrest n.negative
  rw [chars_eq]
  cases hsign : n.negative with
  | true =>
    rw [hsign] at hread
    have hback : ({ n with negative := true } : Number) = n := hsign ▸ rfl
    exact hback ▸ hread
  | false =>
    rw [hsign] at hread
    have hback : ({ n with negative := false } : Number) = n := hsign ▸ rfl
    simp only [Bool.false_eq_true, if_false, List.nil_append]
    rw [read, hread, hback]
    obtain ⟨d, ds, hds, hd⟩ := hn.exists_digit
    rw [hds]
    rintro cs heq
    cases heq
    cases hd

theorem head_numeral {n : Nat} (hn : 0 < n) : (numeral n).head? ≠ some '0' := by
  induction n using Nat.strongRecOn with
  | _ n ih =>
    by_cases hlt : n < 10
    · have hdigit : ∀ n < 10, 0 < n → n.digitChar ≠ '0' := by decide
      rw [numeral, Nat.toDigits_of_lt_base hlt]
      exact fun h => hdigit n hlt hn (Option.some.inj h)
    · have hfront := ih (n / 10) (by omega) (by omega)
      rw [numeral, Nat.toDigits_of_base_le (by decide) (by omega)]
      cases hds : Nat.toDigits 10 (n / 10) with
      | nil => exact absurd hds Nat.toDigits_ne_nil
      | cons d ds =>
        rw [numeral, hds] at hfront
        exact hfront

theorem exists_front_numeral {n : Nat} (hn : 0 < n) : ∃ d ds, numeral n = d :: ds ∧ d ≠ '0' := by
  have hfront := head_numeral hn
  cases hds : numeral n with
  | nil => exact absurd hds Nat.toDigits_ne_nil
  | cons d ds =>
    rw [hds] at hfront
    exact ⟨d, ds, rfl, fun hd => hfront (hd ▸ rfl)⟩

theorem standard_ofCount (n : Nat) : (ofCount n).Standard := by
  refine ⟨fun c hc => Text.isDigit_of_mem_numeral hc, ?_, fun _ hc => (nomatch hc), fun _ _ h => nomatch h⟩
  by_cases hn : n = 0
  · subst hn
    exact .inl rfl
  · exact .inr (exists_front_numeral (Nat.pos_of_ne_zero hn))

theorem isDigit_of_mem_zeros {k : Nat} {c : Char} (h : c ∈ List.replicate k '0') : c.isDigit := by
  rw [List.eq_of_mem_replicate h]
  rfl

theorem isDigit_of_mem_padded {ds : List Char} (hds : ∀ c ∈ ds, c.isDigit) {n k : Nat} {c : Char}
    (h : c ∈ ds.take n ++ List.replicate k '0') : c.isDigit := by
  rcases List.mem_append.mp h with h | h
  · exact hds c (List.mem_of_mem_take h)
  · exact isDigit_of_mem_zeros h

theorem standard_ofDecimal (negative : Bool) {ds : List Char} (hds : ∀ c ∈ ds, c.isDigit)
    (hfront : ∃ d rest, ds = d :: rest ∧ d ≠ '0') (e : Int) : (ofDecimal negative ds e).Standard := by
  obtain ⟨d, rest, rfl, hd⟩ := hfront
  simp only [ofDecimal]
  split
  · next hpoint =>
    have hpositive : 0 < (((d :: rest).length : Int) + e).toNat := by omega
    obtain ⟨k, hk⟩ := Nat.exists_eq_succ_of_ne_zero (Nat.ne_of_gt hpositive)
    rw [hk]
    refine ⟨fun c hc => ?_, .inr ⟨d, _, rfl, hd⟩, fun c hc => ?_, fun _ _ h => nomatch h⟩
    · exact isDigit_of_mem_padded hds hc
    · dsimp only at hc
      split at hc
      · rw [List.mem_singleton.mp hc]
        rfl
      · exact hds c (List.mem_of_mem_drop hc)
  · split
    · refine ⟨fun c hc => isDigit_of_mem_zeros (k := 1) hc, .inl rfl, fun c hc => ?_, fun _ _ h => nomatch h⟩
      rcases List.mem_append.mp hc with hc | hc
      · exact isDigit_of_mem_zeros hc
      · exact hds c hc
    · refine ⟨fun c hc => hds c (List.mem_of_mem_take hc), .inr ⟨d, _, rfl, hd⟩,
        fun c hc => hds c (List.mem_of_mem_drop hc), fun b digits h => ?_⟩
      cases h
      exact ⟨Nat.toDigits_ne_nil, fun c hc => Text.isDigit_of_mem_numeral hc⟩

theorem standard_of_ofBinary64? {x : Binary64} {n : Number} (h : ofBinary64? x = some n) : n.Standard := by
  unfold ofBinary64? at h
  split at h
  · cases h
  · next hfinite =>
    split at h
    · cases h
      have hdigits : ∀ c ∈ ['0'], c.isDigit := List.forall_mem_singleton.mpr rfl
      exact ⟨hdigits, .inl rfl, hdigits, fun _ _ h => nomatch h⟩
    · next hzero =>
      cases h
      have hpos : 0 < x.magnitude := Nat.pos_of_ne_zero (by simpa [Binary64.isZero] using hzero)
      have hlt : x.magnitude < Binary64.infinityBits := by simpa [Binary64.isFinite] using hfinite
      have hshortest := Binary64.shortest_ne_zero hpos hlt
      refine standard_ofDecimal _ (fun c hc => Text.isDigit_of_mem_numeral hc) ?_ _
      exact exists_front_numeral (Nat.pos_of_ne_zero hshortest)

/-- Without an exponent, and with few enough digits, the digits are divided by a power of ten at once. -/
theorem toBinary64?_point (negative : Bool) {whole fraction : List Char} {s t : Nat}
    (hwhole : significand 0 whole = (s, [])) (hfraction : significand s fraction = (t, []))
    (hpos : 0 < fraction.length) (hle : fraction.length ≤ 308) :
    toBinary64? ⟨negative, whole, fraction, none⟩
      = some (((Binary64.ofNat t).divSize (power fraction.length)).withSign negative) := by
  have he : (([] : List Char).length : Int) - (fraction.length - ([] : List Char).length : Nat) + exponentValue none
      = -(fraction.length : Int) := by
    simp [exponentValue]
  simp only [toBinary64?, hwhole, hfraction, he]
  rw [scale, Int.natAbs_neg, Int.natAbs_natCast, if_pos hle, if_neg (by omega)]
  rfl

theorem count?_ofCount {n : Nat} (hn : n < countBound) : (ofCount n).count? = some n := by
  simp [count?, ofCount, Text.numeralValue_numeral, hn]

theorem lt_of_count? {n : Number} {k : Nat} (h : n.count? = some k) : k < countBound := by
  unfold count? at h
  split at h
  · next hcount =>
    cases h
    simp only [Bool.and_eq_true, decide_eq_true_eq] at hcount
    exact hcount.2
  · cases h

end QuantityLayout.Json.Number
