import QuantityLayout.Proofs.Shape.Dense
import QuantityLayout.Proofs.Shape.Cells
import Mathlib.Data.Set.Function
import Mathlib.Order.Interval.Set.Defs
/-!
One numbering of all cells and one of the present ones. The first is a bijection onto the numbers below the count of cells;
the second counts the present cells that the first has put in front, so it is read off the table from the one to the other.
-/
set_option autoImplicit false

namespace QuantityLayout.Shape

variable {s : Shape} {c d : Cell}

theorem Inside.linearIndex_lt_iff (hc : s.Inside c) (hd : s.Inside d) :
    s.linearIndex c < s.linearIndex d ↔ c.Before d := by
  constructor
  · intro hlt
    by_contra hnot
    by_cases he : c = d
    · simp [he] at hlt
    · have hgt := hd.linearIndex_lt_of_before (Cell.before_of_not he hnot)
      omega
  · exact hc.linearIndex_lt_of_before

/-- The present cells before a cell, present or not, are those with a smaller column-major number. -/
theorem Inside.countP_linearIndex_lt (hc : s.Inside c) :
    s.cells.countP (fun d => s.linearIndex d < s.linearIndex c) = s.rank c := by
  refine List.countP_congr fun d hd => ?_
  simp [(inside_of_mem hd).linearIndex_lt_iff hc]

theorem exists_cellAt {k : Nat} (hk : k < s.numel) : ∃ c, s.cellAt k = some c := ⟨_, if_pos hk⟩

theorem cellAt_eq_none {k : Nat} : s.cellAt k = none ↔ s.numel ≤ k := by simp [cellAt]

theorem bijOn_linearIndex (s : Shape) : Set.BijOn s.linearIndex {c | s.Inside c} (Set.Iio s.numel) := by
  refine ⟨fun c hc => hc.linearIndex_lt, fun c hc d hd h => hc.linearIndex_injective hd h, fun k hk => ?_⟩
  obtain ⟨c, hc⟩ := exists_cellAt hk
  exact ⟨c, cellAt_eq_some.mp hc⟩

/-- The search finds the position of each present cell, which counts those of smaller column-major number. These numbers
are a bijection, and the table leads from them to the positions. -/
theorem numberings_agree (s : Shape) :
    (∀ c k, s.search c = some k ↔ s.cells[k]? = some c) ∧
    (∀ c k, s.search c = some k → s.cells.countP (fun d => s.linearIndex d < s.linearIndex c) = k) ∧
    (∀ c, s.search c = s.nzIndex c ∧ (s.search c).isSome = s.contains c) ∧
    Set.BijOn s.linearIndex {c | s.Inside c} (Set.Iio s.numel) ∧
    (∀ c k, s.cellAt k = some c ↔ s.Inside c ∧ s.linearIndex c = k) ∧
    (∀ k, s.cellAt k = none ↔ s.numel ≤ k) ∧
    s.denseToNz.length = s.numel ∧
    ∀ k < s.numel, ∃ c, s.cellAt k = some c ∧ s.denseToNz[k]? = some (s.search c) := by
  simp only [search_eq_nzIndex, true_and]
  refine ⟨fun c k => nzIndex_eq_some, fun c k h => ?_, fun c => by simp [isSome_nzIndex, contains], s.bijOn_linearIndex,
    fun c k => cellAt_eq_some, fun k => cellAt_eq_none, s.length_denseToNz, fun k hk => ?_⟩
  · have hcell := nzIndex_eq_some.mp h
    have hin : s.Inside c := inside_of_getElem? hcell
    rw [hin.countP_linearIndex_lt, rank_of_getElem? hcell]
  · obtain ⟨c, hc⟩ := exists_cellAt hk
    obtain ⟨hin, hnum⟩ := cellAt_eq_some.mp hc
    exact ⟨c, hc, hnum ▸ hin.getElem?_denseToNz⟩

def sampleGaps : Shape := ⟨2, 3, [⟨1, 0⟩, ⟨0, 2⟩], by decide, by decide, by decide⟩

theorem numberings_agree_sampleGaps :
    sampleGaps.search ⟨0, 2⟩ = some 1 ∧
      sampleGaps.cells.countP (fun d => sampleGaps.linearIndex d < sampleGaps.linearIndex ⟨0, 2⟩) = 1 ∧
      (sampleGaps.search ⟨5, 0⟩).isSome = false ∧ 4 < sampleGaps.numel ∧ sampleGaps.cellAt 4 = some ⟨0, 2⟩ ∧
      sampleGaps.denseToNz[4]? = some (some 1) ∧ sampleGaps.cellAt 6 = none := by
  obtain ⟨hsearch, hcount, hpresent, -, hcell, hlast, -, htable⟩ := numberings_agree sampleGaps
  have hfound : sampleGaps.search ⟨0, 2⟩ = some 1 := (hsearch _ _).mpr rfl
  have hlt : 4 < sampleGaps.numel := by decide
  obtain ⟨c, hc, hentry⟩ := htable 4 hlt
  have hat : sampleGaps.cellAt 4 = some ⟨0, 2⟩ := (hcell _ _).mpr ⟨by unfold Inside; decide, by decide⟩
  cases hat.symm.trans hc
  exact ⟨hfound, hcount _ _ hfound, (hpresent _).2, hlt, hat, hfound ▸ hentry, (hlast _).mpr (by decide)⟩

end QuantityLayout.Shape
