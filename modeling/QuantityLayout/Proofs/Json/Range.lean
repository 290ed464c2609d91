import QuantityLayout.Proofs.Binary64.Range
import QuantityLayout.Proofs.Json.Number
/-!
What is written of a finite number always has a value when it is read: the leading digits fit in 64 bits, and scaling them
does not lead out of the range of finite numbers. Only the greatest number comes so near to the end of the range that it
is looked at by itself.
-/
set_option autoImplicit false

namespace QuantityLayout.Json.Number

open Binary64 (pow10 pow10_add pow10_pos AtMost decimalBound)
open Text (numeral)

variable {ds es rest : List Char} {acc s : Nat} {e : Int} {x : Binary64} {n : Number}

theorem digit_le {d : Char} (h : d.isDigit) : d.toNat - '0'.toNat ≤ 9 := by
  simp only [Char.isDigit, Bool.and_eq_true, decide_eq_true_eq] at h
  exact Nat.sub_le_of_le_add h.2

theorem ofDigitChars_lt (hds : ∀ c ∈ ds, c.isDigit) (acc : Nat) :
    Nat.ofDigitChars 10 ds acc < (acc + 1) * pow10 ds.length := by
  induction ds generalizing acc with
  | nil => exact Nat.lt_of_lt_of_eq (Nat.lt_succ_self acc) (Nat.mul_one _).symm
  | cons d ds ih =>
    obtain ⟨hd, hds⟩ := List.forall_mem_cons.mp hds
    have hdigit := digit_le hd
    have hlength : pow10 (d :: ds).length = 10 * pow10 ds.length := pow10_add ds.length 1 ▸ Nat.mul_comm ..
    rw [Nat.ofDigitChars_cons, hlength, ← Nat.mul_assoc]
    exact Nat.lt_of_lt_of_le (ih hds _) (Nat.mul_le_mul_right _ (by omega))

theorem mul_pow10_le_ofDigitChars (ds : List Char) (acc : Nat) : acc * pow10 ds.length ≤ Nat.ofDigitChars 10 ds acc := by
  rw [Nat.ofDigitChars_eq_ofDigitChars_zero, Nat.mul_comm]
  exact Nat.le_add_right ..

/-- What a significand takes up, and what it leaves. -/
theorem significand_spec (hacc : acc < countBound) (ds : List Char) :
    (significand acc ds).1 < countBound ∧ (significand acc ds).2.length ≤ ds.length ∧
      (significand acc ds).1 * pow10 (significand acc ds).2.length ≤ Nat.ofDigitChars 10 ds acc := by
  induction ds generalizing acc with
  | nil => exact ⟨hacc, Nat.le_refl _, mul_pow10_le_ofDigitChars [] acc⟩
  | cons d ds ih =>
    rw [significand]
    split
    · next hnext =>
      obtain ⟨hlt, hlength, hle⟩ := ih hnext
      exact ⟨hlt, Nat.le_succ_of_le hlength, Nat.ofDigitChars_cons ▸ hle⟩
    · exact ⟨hacc, Nat.le_refl _, mul_pow10_le_ofDigitChars (d :: ds) acc⟩

theorem significand_of_lt (h : Nat.ofDigitChars 10 ds acc < countBound) :
    significand acc ds = (Nat.ofDigitChars 10 ds acc, []) := by
  induction ds generalizing acc with
  | nil => rfl
  | cons d ds ih =>
    rw [Nat.ofDigitChars_cons] at h ⊢
    have hnext : 10 * acc + (d.toNat - '0'.toNat) < countBound :=
      Nat.lt_of_le_of_lt (Nat.le_trans (Nat.le_mul_of_pos_right _ (pow10_pos _)) (mul_pow10_le_ofDigitChars ds _)) h
    rw [significand]
    simp only [hnext, if_true]
    exact ih h

theorem significand_append (h : significand acc ds = (s, [])) (es : List Char) :
    significand acc (ds ++ es) = significand s es := by
  induction ds generalizing acc with
  | nil =>
    cases h
    rfl
  | cons d ds ih =>
    rw [significand] at h
    rw [List.cons_append, significand]
    split at h
    · next hnext =>
      rw [if_pos hnext]
      exact ih h
    · cases h

theorem isSome_scale_of_neg (he : e < 0) (x : Binary64) : (scale x e).isSome := by
  induction hk : e.natAbs using Nat.strongRecOn generalizing x e with
  | _ k ih =>
    rw [scale]
    split
    · rw [if_neg (by omega)]
      rfl
    · split
      · rfl
      · rw [dif_neg (by omega)]
        exact ih (e + 308).natAbs (by omega) (by omega) _ rfl

theorem isSome_scale_of_isFinite {k : Nat} (hk : k ≤ 308) (h : (x.mulSize (power k)).isFinite) : (scale x k).isSome := by
  rw [scale, Int.natAbs_natCast, if_pos hk, if_pos (Int.natCast_nonneg k)]
  simp only [h, if_true]
  rfl

theorem isSome_scale_of_isZero {k : Nat} (hk : 308 < k) (h : x.isZero) : (scale x k).isSome := by
  rw [scale, Int.natAbs_natCast, if_neg (Nat.not_le.mpr hk), if_pos h]
  rfl

def largest (k : Nat) : Nat := min (countBound - 1) (decimalBound / (pow10 k * Binary64.one))

/-- What has to be computed: the largest significands for the highest powers, the greatest of all for the ones below, and
where the bound lies. -/
theorem range_facts :
    (∀ k < 20, ((Binary64.ofNat (largest (289 + k))).mulSize (power (289 + k))).isFinite) ∧
    ((Binary64.ofNat (countBound - 1)).mulSize (power 288)).isFinite ∧
    countBound * Binary64.one ≤ decimalBound ∧ decimalBound < pow10 309 * Binary64.one := by
  decide +kernel

theorem isFinite_largest {k : Nat} (hk : k ≤ 308) : ((Binary64.ofNat (largest k)).mulSize (power k)).isFinite := by
  obtain ⟨hnear, hfar, -⟩ := range_facts
  by_cases h : k ≤ 288
  · exact Binary64.isFinite_mulSize (Binary64.ofNat_mono (Nat.min_le_left ..)) (Binary64.ofNat_mono (Binary64.pow10_le h)) hfar
  · obtain ⟨j, rfl⟩ := Nat.exists_eq_add_of_le (Nat.lt_of_not_le h)
    exact hnear j (by omega)

/-- Scaling a significand by a power of ten leads to a finite number, if the product is not above the bound. -/
theorem isSome_scale (hs : s < countBound) (h : AtMost decimalBound (s, e)) : (scale (Binary64.ofNat s) e).isSome := by
  by_cases hneg : e < 0
  · exact isSome_scale_of_neg hneg _
  · obtain ⟨k, rfl⟩ := Int.eq_ofNat_of_zero_le (Int.not_lt.mp hneg)
    have hle := Binary64.atMost_natCast.mp h
    by_cases hk : k ≤ 308
    · have hunit : 0 < pow10 k * Binary64.one := Nat.mul_pos (pow10_pos k) (Binary64.pow2_pos 1076)
      have hlargest : s ≤ largest k := Nat.le_min.mpr ⟨Nat.le_pred_of_lt hs, (Nat.le_div_iff_mul_le hunit).mpr hle⟩
      exact isSome_scale_of_isFinite hk
        (Binary64.isFinite_mulSize (Binary64.ofNat_mono hlargest) (Nat.le_refl _) (isFinite_largest hk))
    · -- nothing but zero is left that far below the bound
      have hunit : pow10 309 * Binary64.one ≤ pow10 k * Binary64.one :=
        Nat.mul_le_mul_right _ (Binary64.pow10_le (Nat.lt_of_not_le hk))
      have hzero : s = 0 := by
        refine Nat.eq_zero_of_not_pos fun hpos => Nat.not_le.mpr range_facts.2.2.2 ?_
        exact Nat.le_trans hunit (Nat.le_trans (Nat.le_mul_of_pos_left _ hpos) hle)
      subst hzero
      exact isSome_scale_of_isZero (Nat.lt_of_not_le hk) Binary64.isZero_ofNat_zero

theorem atMost_of_nonpos (hs : s < countBound) (he : e ≤ 0) : AtMost decimalBound (s, e) := by
  have hpos : e.toNat = 0 := Int.toNat_of_nonpos he
  have hbound := range_facts.2.2.1
  have hunit : pow10 0 = 1 := rfl
  rw [AtMost, hpos, hunit, Nat.mul_one]
  refine Nat.le_trans (Nat.mul_le_mul_right _ (Nat.le_of_lt hs)) (Nat.le_trans hbound ?_)
  exact Nat.le_mul_of_pos_right _ (pow10_pos _)

theorem isSome_toBinary64? (hwhole : significand 0 n.whole = (s, []))
    (h : (scale (Binary64.ofNat (significand s n.fraction).1)
      (exponentValue n.exponent - (n.fraction.length - (significand s n.fraction).2.length : Nat))).isSome) :
    n.toBinary64?.isSome := by
  have he : ∀ k : Nat, (([] : List Char).length : Int) - (k : Int) + exponentValue n.exponent
      = exponentValue n.exponent - (k : Int) := by
    intro k
    rw [List.length_nil]
    omega
  simp only [toBinary64?, hwhole, he, Option.isSome_map]
  exact h

theorem isSome_toBinary64?_positional (negative : Bool) {whole : List Char} (hwhole : ∀ c ∈ whole, c.isDigit)
    (hlength : whole.length ≤ 16) (fraction : List Char) : (Number.mk negative whole fraction none).toBinary64?.isSome := by
  have hlt : Nat.ofDigitChars 10 whole 0 < countBound := by
    have hvalue := ofDigitChars_lt hwhole 0
    have hpower := Binary64.pow10_le hlength
    have hbound : pow10 16 < countBound := by decide
    omega
  refine isSome_toBinary64? (significand_of_lt hlt) ?_
  refine isSome_scale (significand_spec hlt fraction).1 (atMost_of_nonpos (significand_spec hlt fraction).1 ?_)
  simp only [exponentValue]
  omega

theorem exponentValue_numeral (k : Int) : exponentValue (some (k < 0, numeral k.natAbs)) = k := by
  rw [exponentValue, Text.numeralValue_numeral]
  by_cases hk : k < 0
  · rw [if_pos (decide_eq_true hk)]
    omega
  · rw [if_neg (by simpa using hk)]
    omega

theorem isSome_toBinary64?_scientific (negative : Bool) {d : Char} (hd : d.isDigit)
    (h : (scale (Binary64.ofNat (significand 0 (d :: ds)).1) (e + (significand 0 (d :: ds)).2.length)).isSome) {k : Int}
    (hk : k = (ds.length : Int) + e) :
    (Number.mk negative [d] ds (some (k < 0, numeral k.natAbs))).toBinary64?.isSome := by
  have hlt : Nat.ofDigitChars 10 [d] 0 < countBound := by
    have hdigits : ∀ c ∈ [d], c.isDigit := List.forall_mem_singleton.mpr hd
    have hvalue := ofDigitChars_lt hdigits 0
    have hbound : (0 + 1) * pow10 1 < countBound := by decide
    exact Nat.lt_trans hvalue hbound
  have hfirst := significand_of_lt hlt
  rw [show d :: ds = [d] ++ ds from rfl, significand_append hfirst ds] at h
  have hrest := (significand_spec hlt ds).2.1
  refine isSome_toBinary64? hfirst ?_
  have hshift : k - (ds.length - (significand (Nat.ofDigitChars 10 [d] 0) ds).2.length : Nat)
      = e + (significand (Nat.ofDigitChars 10 [d] 0) ds).2.length := by omega
  rw [exponentValue_numeral, hshift]
  exact h

theorem isSome_toBinary64?_ofDecimal (negative : Bool) (hds : ∀ c ∈ ds, c.isDigit) (hne : ds ≠ [])
    (h : (scale (Binary64.ofNat (significand 0 ds).1) (e + (significand 0 ds).2.length)).isSome) :
    (ofDecimal negative ds e).toBinary64?.isSome := by
  simp only [ofDecimal]
  split
  · next hpoint =>
    refine isSome_toBinary64?_positional negative (fun c hc => isDigit_of_mem_padded hds hc) ?_ _
    rw [List.length_append, List.length_take, List.length_replicate]
    omega
  · split
    · exact isSome_toBinary64?_positional negative (fun c hc => isDigit_of_mem_zeros (k := 1) hc) (by decide) _
    · cases ds with
      | nil => exact absurd rfl hne
      | cons d ds =>
        refine isSome_toBinary64?_scientific negative (hds d List.mem_cons_self) h ?_
        rw [List.length_cons]
        omega

/-- The greatest finite number is written with so few digits that its significand holds all of them. -/
theorem greatest_facts :
    Binary64.shortest (Binary64.infinityBits - 1) = (17976931348623157, 292) ∧
    significand 0 (numeral 17976931348623157) = (17976931348623157, []) ∧
    ((Binary64.ofNat 17976931348623157).mulSize (power 292)).isFinite := by
  decide +kernel

theorem isSome_scale_shortest {magnitude : Nat} (hpos : 0 < magnitude) (hfinite : magnitude < Binary64.infinityBits) :
    (scale (Binary64.ofNat (significand 0 (numeral (Binary64.shortest magnitude).1)).1)
      ((Binary64.shortest magnitude).2 + (significand 0 (numeral (Binary64.shortest magnitude).1)).2.length)).isSome := by
  by_cases htop : magnitude < Binary64.infinityBits - 1
  · have hle := Binary64.shortest_atMost_decimalBound hpos htop
    have hzero : 0 < countBound := by decide
    obtain ⟨hlt, -, hcut⟩ := significand_spec hzero (numeral (Binary64.shortest magnitude).1)
    exact isSome_scale hlt (hle.cut (Nat.le_trans hcut (Nat.le_of_eq (Text.numeralValue_numeral _))))
  · obtain rfl : magnitude = Binary64.infinityBits - 1 := by omega
    obtain ⟨hshortest, hall, hfinite⟩ := greatest_facts
    rw [hshortest, hall]
    exact isSome_scale_of_isFinite (k := 292) (by decide) hfinite

/-- Every finite number has a text, and the text has a value. -/
theorem exists_reread (hx : x.isFinite) : ∃ n y, ofBinary64? x = some n ∧ n.toBinary64? = some y := by
  have hread : ∀ m, ofBinary64? x = some m → m.toBinary64?.isSome := by
    intro m hm
    simp only [ofBinary64?, hx, Bool.not_true, Bool.false_eq_true, if_false] at hm
    split at hm
    · cases hm
      exact isSome_toBinary64?_positional _ (fun c hc => isDigit_of_mem_zeros (k := 1) hc) (by decide) _
    · next hzero =>
      cases hm
      have hpos : 0 < x.magnitude := Nat.pos_of_ne_zero (by simpa [Binary64.isZero] using hzero)
      have hlt : x.magnitude < Binary64.infinityBits := by simpa [Binary64.isFinite] using hx
      exact isSome_toBinary64?_ofDecimal _ (fun c hc => Text.isDigit_of_mem_numeral hc) Nat.toDigits_ne_nil
        (isSome_scale_shortest hpos hlt)
  cases hn : ofBinary64? x with
  | none =>
    simp only [ofBinary64?, hx, Bool.not_true, Bool.false_eq_true, if_false] at hn
    split at hn <;> cases hn
  | some m =>
    obtain ⟨y, hy⟩ := Option.isSome_iff_exists.mp (hread m hn)
    exact ⟨m, y, rfl, hy⟩

end QuantityLayout.Json.Number
