import QuantityLayout.Proofs.Binary64.Shortest
import QuantityLayout.Proofs.Binary64.Round
/-!
The shortest decimal of a number does not lie above the interval that rounds to the number, and intervals of smaller
numbers end earlier. So the decimals of finite numbers have a bound in common.
-/
set_option autoImplicit false

namespace QuantityLayout.Binary64

variable {high high' m n s t magnitude magnitude' : Nat} {e : Int} {i : Interval}

theorem pow10_add (j k : Nat) : pow10 (j + k) = pow10 j * pow10 k := Nat.pow_add 10 j k

theorem pow10_le {j k : Nat} (h : j ≤ k) : pow10 j ≤ pow10 k := Nat.pow_le_pow_right (by decide) h

def one : Nat := pow2 1076

/-- The decimal `m · 10ᵉ` is not above `high` quarters of a unit. The powers stand on the side where they are whole. -/
def AtMost (high : Nat) (d : Nat × Int) : Prop := d.1 * pow10 d.2.toNat * one ≤ high * pow10 (-d.2).toNat

theorem atMost_natCast {k : Nat} : AtMost high (m, (k : Int)) ↔ m * (pow10 k * one) ≤ high := by
  have hneg : (-(k : Int)).toNat = 0 := by omega
  have hunit : pow10 0 = 1 := rfl
  rw [AtMost, hneg, hunit, Nat.mul_one, Int.toNat_natCast, Nat.mul_assoc]

theorem AtMost.mono (h : AtMost high (m, e)) (hle : high ≤ high') : AtMost high' (m, e) :=
  Nat.le_trans h (Nat.mul_le_mul_right _ hle)

/-- Digits at the end of a decimal may be left out. -/
theorem AtMost.cut (h : AtMost high (m, e)) (hs : s * pow10 t ≤ m) : AtMost high (s, e + t) := by
  have hpowers : (e + t).toNat + (-e).toNat = t + e.toNat + (-(e + t)).toNat := by omega
  unfold AtMost at h ⊢
  generalize one = u at h ⊢
  refine Nat.le_of_mul_le_mul_right ?_ (pow10_pos (-e).toNat)
  calc s * pow10 (e + t).toNat * u * pow10 (-e).toNat
      = s * pow10 ((e + t).toNat + (-e).toNat) * u := by rw [pow10_add]; ac_rfl
    _ = s * pow10 t * pow10 e.toNat * u * pow10 (-(e + t)).toNat := by
        rw [hpowers, pow10_add, pow10_add]
        ac_rfl
    _ ≤ m * pow10 e.toNat * u * pow10 (-(e + t)).toNat :=
        Nat.mul_le_mul_right _ (Nat.mul_le_mul_right _ (Nat.mul_le_mul_right _ hs))
    _ ≤ high * pow10 (-e).toNat * pow10 (-(e + t)).toNat := Nat.mul_le_mul_right _ h
    _ = high * pow10 (-(e + t)).toNat * pow10 (-e).toNat := by ac_rfl

theorem Interval.le_high_of_holds (h : i.holds n) : n ≤ i.high := by
  unfold holds at h
  split at h <;> simp at h <;> omega

theorem Interval.atMost_of_onGrid (h : i.onGrid e = some m) : AtMost i.high (m, e) := by
  cases e with
  | ofNat k => exact atMost_natCast.mpr (le_high_of_holds (holds_of_pick h))
  | negSucc k =>
    have hle : m * one ≤ i.high * pow10 (k + 1) := le_high_of_holds (holds_of_pick h)
    have hpos : (Int.negSucc k).toNat = 0 := rfl
    have hneg : (-Int.negSucc k).toNat = k + 1 := by omega
    have hunit : pow10 0 = 1 := rfl
    rw [AtMost, hneg, hpos, hunit, Nat.mul_one]
    exact hle

theorem atMost_stripZeros {d : Nat × Int} (h : AtMost high d) (n : Nat) : AtMost high (stripZeros n d) := by
  induction n generalizing d with
  | zero => exact h
  | succ n ih =>
    obtain ⟨m, e⟩ := d
    unfold stripZeros
    split
    · exact ih (h.cut (t := 1) (Nat.div_mul_le_self m 10))
    · exact h

theorem shortest_atMost (hpos : 0 < magnitude) (hfinite : magnitude < infinityBits) :
    AtMost (interval magnitude).high (shortest magnitude) :=
  atMost_stripZeros (Interval.atMost_of_onGrid (onGrid_search_interval hpos hfinite)) 20

theorem interval_high_mono (h : magnitude ≤ magnitude') : (interval magnitude).high ≤ (interval magnitude').high := by
  have hscale : scaleOf magnitude ≤ scaleOf magnitude' := Nat.sub_le_sub_right (Nat.div_le_div_right h) 1
  have hunits := unitsOf_mono h
  have hgap := pow2_le hscale
  simp only [interval, gapOf_eq]
  omega

/-- All finite numbers but the greatest one have decimals up to here. -/
def decimalBound : Nat := (interval (infinityBits - 2)).high

theorem shortest_atMost_decimalBound (hpos : 0 < magnitude) (hfinite : magnitude < infinityBits - 1) :
    AtMost decimalBound (shortest magnitude) :=
  (shortest_atMost hpos (by omega)).mono (interval_high_mono (by omega))

end QuantityLayout.Binary64
