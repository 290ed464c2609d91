import QuantityLayout.Binary64.Basic
import QuantityLayout.Proofs.Binary64.Shortest

set_option autoImplicit false

namespace QuantityLayout.Binary64

variable {a a' b m m' : Nat}

theorem div_le_nearest (a b : Nat) : a / b ≤ nearest a b := by
  unfold nearest
  split
  · exact Nat.le_refl _
  · split <;> exact Nat.le_add_right ..

theorem nearest_le (a b : Nat) : nearest a b ≤ a / b + 1 := by
  unfold nearest
  split
  · exact Nat.le_add_right ..
  · split
    · exact Nat.le_refl _
    · omega

theorem nearest_mono (h : a ≤ a') : nearest a b ≤ nearest a' b := by
  rcases Nat.lt_or_eq_of_le (Nat.div_le_div_right (c := b) h) with hlt | heq
  · exact Nat.le_trans (nearest_le a b) (Nat.le_trans hlt (div_le_nearest a' b))
  · -- with the same whole part the remainders decide
    have hrest : a % b ≤ a' % b := by
      have hdiv := Nat.div_add_mod a b
      have hdiv' := Nat.div_add_mod a' b
      rw [heq] at hdiv
      omega
    unfold nearest
    rw [heq]
    split <;> split <;> (try split) <;> (try split) <;> omega

/-- The number of binary digits beyond the 53 that are kept. -/
def excess (a b : Nat) : Nat := Nat.log2 (a / b) - 52

def kept (a b : Nat) : Nat := nearest a (b * pow2 (excess a b))

theorem roundMagnitude_eq (a b : Nat) : roundMagnitude a b = min infinityBits (excess a b * pow2 52 + kept a b) := rfl

theorem log2_mono (h : a ≤ a') : a.log2 ≤ a'.log2 := by
  by_cases ha : a = 0
  · rw [ha, Nat.log2_zero]
    exact Nat.zero_le _
  · have ha' : a' ≠ 0 := fun h' => ha (Nat.le_zero.mp (h' ▸ h))
    exact (Nat.le_log2 ha').mpr (Nat.le_trans (Nat.log2_self_le ha) h)

theorem excess_mono (h : a ≤ a') (b : Nat) : excess a b ≤ excess a' b :=
  Nat.sub_le_sub_right (log2_mono (Nat.div_le_div_right h)) 52

theorem kept_le (a b : Nat) : kept a b ≤ pow2 53 := by
  have hlt : a / b < pow2 (53 + excess a b) := by
    have hlog : a / b < 2 ^ (Nat.log2 (a / b) + 1) := Nat.lt_log2_self
    refine Nat.lt_of_lt_of_le hlog (pow2_le ?_)
    unfold excess
    omega
  have hquotient : a / (b * pow2 (excess a b)) < pow2 53 := by
    rw [← Nat.div_div_eq_div_mul, Nat.div_lt_iff_lt_mul (pow2_pos _), ← pow2_add]
    exact hlt
  exact Nat.le_trans (nearest_le ..) hquotient

theorem le_kept (h : 0 < excess a b) : pow2 52 ≤ kept a b := by
  have hne : a / b ≠ 0 := by
    intro hzero
    rw [excess, hzero] at h
    exact absurd h (by decide)
  have hle : pow2 (52 + excess a b) ≤ a / b := by
    have hlog : 2 ^ Nat.log2 (a / b) ≤ a / b := Nat.log2_self_le hne
    refine Nat.le_trans (pow2_le ?_) hlog
    unfold excess at h ⊢
    omega
  refine Nat.le_trans ?_ (div_le_nearest ..)
  rw [← Nat.div_div_eq_div_mul, Nat.le_div_iff_mul_le (pow2_pos _), ← pow2_add]
  exact hle

theorem roundMagnitude_mono (h : a ≤ a') (b : Nat) : roundMagnitude a b ≤ roundMagnitude a' b := by
  have hsize : excess a b * pow2 52 + kept a b ≤ excess a' b * pow2 52 + kept a' b := by
    rcases Nat.lt_or_eq_of_le (excess_mono h b) with hlt | heq
    · -- more digits are dropped, and all that are kept below make up for one of them at most
      have hkept := kept_le a b
      have hkept' := le_kept (Nat.zero_lt_of_lt hlt)
      have hdouble : pow2 53 = 2 * pow2 52 := pow2_add 1 52
      have hscaled := Nat.mul_le_mul_right (pow2 52) hlt
      rw [Nat.succ_mul] at hscaled
      omega
    · have hkept : kept a b ≤ kept a' b := by
        rw [kept, kept, heq]
        exact nearest_mono h
      rw [heq]
      exact Nat.add_le_add_left hkept _
  rw [roundMagnitude_eq, roundMagnitude_eq]
  omega

theorem roundMagnitude_le (a b : Nat) : roundMagnitude a b ≤ infinityBits := Nat.min_le_left ..

theorem unitsOf_of_le (h : pow2 52 ≤ m) : unitsOf m = (pow2 52 + m % pow2 52) * pow2 (scaleOf m) :=
  if_neg (Nat.not_lt.mpr h)

theorem le_unitsOf (h : pow2 52 ≤ m) : pow2 (52 + scaleOf m) ≤ unitsOf m := by
  rw [unitsOf_of_le h, pow2_add]
  exact Nat.mul_le_mul_right _ (Nat.le_add_right ..)

theorem unitsOf_le (h : pow2 52 ≤ m) : unitsOf m ≤ pow2 (53 + scaleOf m) := by
  have hrest := Nat.mod_lt m (pow2_pos 52)
  have hdouble : pow2 53 = 2 * pow2 52 := pow2_add 1 52
  rw [unitsOf_of_le h, pow2_add]
  exact Nat.mul_le_mul_right _ (by omega)

theorem unitsOf_mono_of_le (hm : pow2 52 ≤ m) (h : m ≤ m') : unitsOf m ≤ unitsOf m' := by
  have hm' := Nat.le_trans hm h
  have hone : 1 ≤ m / pow2 52 := (Nat.one_le_div_iff (pow2_pos 52)).mpr hm
  rcases Nat.lt_or_eq_of_le (Nat.div_le_div_right (c := pow2 52) h) with hlt | heq
  · -- the significand is at most doubled, and so is the unit at least
    have hscale : 53 + scaleOf m ≤ 52 + scaleOf m' := by
      unfold scaleOf
      omega
    exact Nat.le_trans (unitsOf_le hm) (Nat.le_trans (pow2_le hscale) (le_unitsOf hm'))
  · have hmod := Nat.div_add_mod m (pow2 52)
    have hmod' := Nat.div_add_mod m' (pow2 52)
    rw [heq] at hmod
    rw [unitsOf_of_le hm, unitsOf_of_le hm', scaleOf, scaleOf, heq]
    exact Nat.mul_le_mul_right _ (by omega)

theorem unitsOf_mono (h : m ≤ m') : unitsOf m ≤ unitsOf m' := by
  by_cases hm : pow2 52 ≤ m
  · exact unitsOf_mono_of_le hm h
  · have hsmall : unitsOf m = m := if_pos (Nat.lt_of_not_le hm)
    rw [hsmall]
    by_cases hm' : pow2 52 ≤ m'
    · have hroom : pow2 52 ≤ pow2 (52 + scaleOf m') := pow2_le (Nat.le_add_right ..)
      exact Nat.le_trans (Nat.le_of_lt (Nat.lt_of_not_le hm)) (Nat.le_trans hroom (le_unitsOf hm'))
    · have hsmall' : unitsOf m' = m' := if_pos (Nat.lt_of_not_le hm')
      rwa [hsmall']

theorem magnitude_ofMagnitude (h : m ≤ infinityBits) : (ofMagnitude false m).magnitude = m := by
  have hsmall : m < signBit := Nat.lt_of_le_of_lt h (by decide)
  have hsize : m < 2 ^ 64 := Nat.lt_trans hsmall (by decide)
  simp only [magnitude, ofMagnitude, Bool.false_eq_true, if_false, UInt64.toNat_ofNat', Nat.mod_eq_of_lt hsize]
  exact Nat.mod_eq_of_lt hsmall

theorem ofNat_mono (h : a ≤ a') : (ofNat a).magnitude ≤ (ofNat a').magnitude := by
  simp only [ofNat, ofRatio, magnitude_ofMagnitude (roundMagnitude_le ..)]
  exact roundMagnitude_mono (Nat.mul_le_mul_right _ h) 1

theorem isZero_ofNat_zero : (ofNat 0).isZero := by
  have hzero : ofNat 0 = ⟨0⟩ := by
    rw [ofNat, ofRatio, Nat.zero_mul]
    rfl
  rw [hzero]
  rfl

theorem isFinite_mulSize {x x' y y' : Binary64} (hx : x.magnitude ≤ x'.magnitude) (hy : y.magnitude ≤ y'.magnitude)
    (hfinite : (x'.mulSize y').isFinite) : (x.mulSize y).isFinite := by
  simp only [isFinite, decide_eq_true_eq, mulSize, magnitude_ofMagnitude (roundMagnitude_le ..)] at hfinite ⊢
  have hunits : x.units * y.units ≤ x'.units * y'.units := Nat.mul_le_mul (unitsOf_mono hx) (unitsOf_mono hy)
  exact Nat.lt_of_le_of_lt (roundMagnitude_mono hunits _) hfinite

end QuantityLayout.Binary64
