import QuantityLayout.Binary64.Shortest
/-!
The shortest decimal of a finite number that is not zero is not zero either. Some grid has a point next to the number and
inside its interval, and the search comes to one before it ends; zero is never inside.
-/
set_option autoImplicit false

namespace QuantityLayout.Binary64

theorem pow2_pos (k : Nat) : 0 < pow2 k := Nat.two_pow_pos k

theorem pow2_add (j k : Nat) : pow2 (j + k) = pow2 j * pow2 k := Nat.pow_add 2 j k

theorem pow2_le {j k : Nat} (h : j ≤ k) : pow2 j ≤ pow2 k := Nat.pow_le_pow_right (by decide) h

theorem pow2_le_pow10 (k : Nat) : pow2 k ≤ pow10 k := Nat.pow_le_pow_left (by decide) k

theorem pow10_pos (k : Nat) : 0 < pow10 k := Nat.pow_pos (by decide)

namespace Interval

variable {i : Interval} {step m n : Nat} {e : Int}

theorem holds_of_pick (h : i.pick step = some m) : i.holds (m * step) := by
  simp only [pick] at h
  split at h
  · next hlow hhigh =>
    cases h
    split
    · exact hlow
    · exact hhigh
  · next hlow _ =>
    cases h
    exact hlow
  · next _ hhigh =>
    cases h
    exact hhigh
  · cases h

theorem ne_zero_of_pick (hlow : 0 < i.low) (h : i.pick step = some m) : m ≠ 0 := by
  intro hm
  have hholds := holds_of_pick h
  subst hm
  cases hclosed : i.closed with
  | false => simp [holds, hclosed] at hholds
  | true =>
    simp [holds, hclosed] at hholds
    omega

theorem exists_pick (hlow : i.low ≤ i.value) (hstep : 0 < step) (hhigh : i.value + step < i.high) :
    ∃ m, i.pick step = some m := by
  have hnext : i.holds ((i.value / step + 1) * step) := by
    have hdiv := Nat.div_add_mod' i.value step
    have hmod := Nat.mod_lt i.value hstep
    rw [holds, Nat.succ_mul]
    split <;> (simp; omega)
  simp only [pick, hnext]
  cases i.holds (i.value / step * step) with
  | false => exact ⟨_, rfl⟩
  | true => exact ⟨_, rfl⟩

theorem onGrid_ofNat (k : Nat) : i.onGrid (.ofNat k) = i.pick (pow10 k * pow2 1076) := by rw [onGrid]

theorem onGrid_negSucc (k : Nat) : i.onGrid (.negSucc k) = (i.scale (pow10 (k + 1))).pick (pow2 1076) := by rw [onGrid]

theorem ne_zero_of_onGrid (hlow : 0 < i.low) (h : i.onGrid e = some m) : m ≠ 0 := by
  cases e with
  | ofNat k => exact ne_zero_of_pick hlow h
  | negSucc k => exact ne_zero_of_pick (Nat.mul_pos hlow (pow10_pos (k + 1))) h

/-- The search ends at a grid that has a point inside, if it comes to any. -/
theorem onGrid_search {j : Nat} (hj : j < n) (h : ∃ m, i.onGrid (e - j) = some m) :
    i.onGrid (i.search n e).2 = some (i.search n e).1 := by
  induction n generalizing e j with
  | zero => exact absurd hj (Nat.not_lt_zero j)
  | succ n ih =>
    unfold search
    cases hgrid : i.onGrid e with
    | some m => exact hgrid
    | none =>
      cases j with
      | zero => simp [hgrid] at h
      | succ j =>
        have hnext : e - 1 - (j : Int) = e - (j + 1 : Nat) := by omega
        exact ih (Nat.lt_of_succ_lt_succ hj) (hnext ▸ h)

end Interval

theorem stripZeros_ne_zero {d : Nat × Int} (hd : d.1 ≠ 0) (n : Nat) : (stripZeros n d).1 ≠ 0 := by
  induction n generalizing d with
  | zero => exact hd
  | succ n ih =>
    unfold stripZeros
    split
    · next h => exact ih (by simp only; omega)
    · exact hd

variable {magnitude : Nat}

def scaleOf (magnitude : Nat) : Nat := magnitude / pow2 52 - 1

theorem gapOf_eq (magnitude : Nat) : gapOf magnitude = pow2 (scaleOf magnitude) := rfl

theorem unitsOf_bounds (hpos : 0 < magnitude) :
    pow2 (scaleOf magnitude) ≤ unitsOf magnitude ∧ unitsOf magnitude < pow2 (53 + scaleOf magnitude) := by
  unfold unitsOf
  split
  · next hsmall =>
    have hscale : scaleOf magnitude = 0 := by rw [scaleOf, Nat.div_eq_of_lt hsmall]
    rw [hscale]
    exact ⟨hpos, Nat.lt_of_lt_of_le hsmall (pow2_le (by decide))⟩
  · have hrest := Nat.mod_lt magnitude (pow2_pos 52)
    have hdouble : pow2 53 = 2 * pow2 52 := (pow2_add 1 52)
    change pow2 (scaleOf magnitude) ≤ (pow2 52 + magnitude % pow2 52) * pow2 (scaleOf magnitude) ∧
      (pow2 52 + magnitude % pow2 52) * pow2 (scaleOf magnitude) < _
    rw [pow2_add]
    refine ⟨Nat.le_mul_of_pos_left _ (by omega), Nat.mul_lt_mul_of_pos_right (by omega) (pow2_pos _)⟩

theorem interval_low_pos (hpos : 0 < magnitude) : 0 < (interval magnitude).low := by
  have hunits := (unitsOf_bounds hpos).1
  have hgap := pow2_pos (scaleOf magnitude)
  simp only [interval, gapOf_eq]
  split <;> omega

/-- There is a point inside on a grid whose step is less than two distances to the next number. -/
theorem exists_onGrid (magnitude : Nat) :
    ∃ m, (interval magnitude).onGrid (-((1076 - scaleOf magnitude : Nat) : Int)) = some m := by
  have hlow : (interval magnitude).low ≤ (interval magnitude).value := Nat.sub_le ..
  have hhigh : (interval magnitude).high = (interval magnitude).value + 2 * pow2 (scaleOf magnitude) := rfl
  have hgap := pow2_pos (scaleOf magnitude)
  have hstep := pow2_pos 1076
  cases hk : 1076 - scaleOf magnitude with
  | zero =>
    -- the numbers are so far apart that there is an integer inside
    have hle : pow2 1076 ≤ pow2 (scaleOf magnitude) := pow2_le (by omega)
    have hzero : -((0 : Nat) : Int) = .ofNat 0 := rfl
    have hone : pow10 0 = 1 := rfl
    rw [hzero, Interval.onGrid_ofNat, hone, Nat.one_mul]
    exact Interval.exists_pick hlow hstep (by omega)
  | succ k =>
    -- a step of ten to the minus k is less than a step of two to the minus k
    have hsplit : pow2 1076 = pow2 (scaleOf magnitude) * pow2 (k + 1) := by
      rw [← pow2_add]
      exact congrArg pow2 (by omega)
    have hle := Nat.mul_le_mul_left (pow2 (scaleOf magnitude)) (pow2_le_pow10 (k + 1))
    rw [← hsplit] at hle
    have hscaled := Nat.mul_le_mul_right (pow10 (k + 1)) hlow
    have hneg : -((k + 1 : Nat) : Int) = .negSucc k := rfl
    rw [hneg, Interval.onGrid_negSucc]
    refine Interval.exists_pick hscaled hstep ?_
    simp only [Interval.scale, hhigh, Nat.add_mul]
    have hassoc := Nat.mul_assoc 2 (pow2 (scaleOf magnitude)) (pow10 (k + 1))
    omega

theorem onGrid_search_interval (hpos : 0 < magnitude) (hfinite : magnitude < infinityBits) :
    (interval magnitude).onGrid ((interval magnitude).search 1100 (coarsest magnitude)).2
      = some ((interval magnitude).search 1100 (coarsest magnitude)).1 := by
  obtain ⟨hge, hlt⟩ := unitsOf_bounds hpos
  have hunits : unitsOf magnitude ≠ 0 := by
    have := pow2_pos (scaleOf magnitude)
    omega
  have hlog : scaleOf magnitude ≤ (unitsOf magnitude).log2 := (Nat.le_log2 hunits).mpr hge
  have hlog' : (unitsOf magnitude).log2 < 53 + scaleOf magnitude := (Nat.log2_lt hunits).mpr hlt
  have hscale : scaleOf magnitude < 2046 := by
    have := (Nat.div_lt_iff_lt_mul (pow2_pos 52)).mpr hfinite
    unfold scaleOf
    omega
  have hstart : coarsest magnitude - (coarsest magnitude + (1076 - scaleOf magnitude : Nat)).toNat
      = -((1076 - scaleOf magnitude : Nat) : Int) := by
    unfold coarsest
    omega
  have hsteps : (coarsest magnitude + (1076 - scaleOf magnitude : Nat)).toNat < 1100 := by
    unfold coarsest
    omega
  exact Interval.onGrid_search hsteps (hstart ▸ exists_onGrid magnitude)

theorem shortest_ne_zero (hpos : 0 < magnitude) (hfinite : magnitude < infinityBits) : (shortest magnitude).1 ≠ 0 := by
  have hfound := onGrid_search_interval hpos hfinite
  exact stripZeros_ne_zero (Interval.ne_zero_of_onGrid (interval_low_pos hpos) hfound) 20

end QuantityLayout.Binary64
