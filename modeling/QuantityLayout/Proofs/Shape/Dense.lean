import QuantityLayout.Proofs.Matrix
import QuantityLayout.Proofs.Shape.Cells
import QuantityLayout.Registry.Query
import Mathlib.Data.List.Nodup

set_option autoImplicit false

namespace QuantityLayout

namespace Cell

theorem getElem?_all {rows cols k : Nat} (hk : k < rows * cols) :
    (all rows cols)[k]? = some ⟨k % rows, k / rows⟩ := by
  have hcol : k / rows < cols := Nat.div_lt_of_lt_mul hk
  have hrow : k % rows < rows := Nat.mod_lt k (Nat.pos_of_lt_mul_right hk)
  have hcell := getElem?_rows (f := fun c => (List.range rows).map fun r => (⟨r, c⟩ : Cell)) (by simp) (List.range cols)
    (k / rows) hrow
  rw [Nat.div_add_mod'] at hcell
  simp [all, hcell, hcol, hrow]

end Cell

namespace Shape

variable {s : Shape} {c d : Cell}

def Inside (s : Shape) (c : Cell) : Prop := c.row < s.rows ∧ c.col < s.cols

theorem Inside.linearIndex_lt (hc : s.Inside c) : s.linearIndex c < s.numel := by
  rw [linearIndex, numel, Nat.mul_comm s.rows]
  exact grid_lt ⟨c.col, hc.2⟩ ⟨c.row, hc.1⟩

theorem Inside.cellAt_linearIndex (hc : s.Inside c) : s.cellAt (s.linearIndex c) = some c := by
  rw [cellAt, if_pos hc.linearIndex_lt, linearIndex, Nat.mul_add_mod', Nat.mod_eq_of_lt hc.1, Nat.mul_comm,
    Nat.mul_add_div (Nat.zero_lt_of_lt hc.1), Nat.div_eq_of_lt hc.1, Nat.add_zero]

theorem cellAt_eq_some {k : Nat} : s.cellAt k = some c ↔ s.Inside c ∧ s.linearIndex c = k := by
  refine ⟨fun h => ?_, fun h => h.2 ▸ h.1.cellAt_linearIndex⟩
  by_cases hk : k < s.numel
  · rw [cellAt, if_pos hk] at h
    cases h
    refine ⟨⟨Nat.mod_lt _ s.extent.1, Nat.div_lt_of_lt_mul hk⟩, ?_⟩
    rw [linearIndex, Nat.mul_comm]
    exact Nat.div_add_mod k s.rows
  · rw [cellAt, if_neg hk] at h
    cases h

theorem Inside.linearIndex_injective (hc : s.Inside c) (hd : s.Inside d) (h : s.linearIndex c = s.linearIndex d) :
    c = d := by
  have hcell := hc.cellAt_linearIndex
  rw [h, hd.cellAt_linearIndex] at hcell
  exact (Option.some.inj hcell).symm

theorem Inside.linearIndex_lt_of_before (hc : s.Inside c) (h : c.Before d) :
    s.linearIndex c < s.linearIndex d := by
  rw [linearIndex, linearIndex]
  rcases h with hcol | ⟨hcol, hrow⟩
  · have hle := Nat.mul_le_mul_right s.rows (Nat.succ_le_of_lt hcol)
    have hin := hc.1
    rw [Nat.succ_mul] at hle
    omega
  · rw [hcol]
    omega

theorem inside_of_mem (hc : c ∈ s.cells) : s.Inside c := s.inside c hc

theorem Inside.getElem?_all (hc : s.Inside c) : (Cell.all s.rows s.cols)[s.linearIndex c]? = some c := by
  have hcell := hc.cellAt_linearIndex
  rw [cellAt, if_pos hc.linearIndex_lt] at hcell
  rw [Cell.getElem?_all hc.linearIndex_lt, hcell]

theorem nzIndex_eq_none : s.nzIndex c = none ↔ c ∉ s.cells := List.idxOf?_eq_none_iff

theorem isSome_nzIndex : (s.nzIndex c).isSome = decide (c ∈ s.cells) := by
  cases hj : s.nzIndex c with
  | none => simp [nzIndex_eq_none.mp hj]
  | some j => simp [List.mem_of_getElem? (nzIndex_eq_some.mp hj)]

/-- The table is filled at the numbers of the present cells, and no number belongs to two cells. -/
theorem Inside.getElem?_denseToNz (hc : s.Inside c) : s.denseToNz[s.linearIndex c]? = some (s.nzIndex c) := by
  have hkeys : (s.cells.zipIdx.map fun e => (s.linearIndex e.1, some e.2)).map Prod.fst = s.cells.map s.linearIndex := by
    have hfst : (s.cells.zipIdx.map Prod.fst).map s.linearIndex = s.cells.map s.linearIndex := by rw [List.zipIdx_map_fst]
    rw [← hfst, List.map_map, List.map_map]
    rfl
  cases hj : s.nzIndex c with
  | none =>
    refine getElem?_scatter_of_not_mem ?_ hc.linearIndex_lt
    rw [hkeys]
    intro hmem
    obtain ⟨d, hd, hdc⟩ := List.mem_map.mp hmem
    cases (inside_of_mem hd).linearIndex_injective hc hdc
    exact nzIndex_eq_none.mp hj hd
  | some j =>
    refine getElem?_scatter_of_mem ?_ ?_ hc.linearIndex_lt
    · rw [hkeys]
      refine List.Nodup.map_on ?_ (Cell.nodup_of_pairwise s.sorted)
      exact fun a ha b hb h => (inside_of_mem ha).linearIndex_injective (inside_of_mem hb) h
    · exact List.mem_map.mpr ⟨(c, j), List.mem_zipIdx_iff_getElem?.mpr (nzIndex_eq_some.mp hj), rfl⟩

theorem denseToNz_eq (s : Shape) : s.denseToNz = (Cell.all s.rows s.cols).map s.nzIndex := by
  apply List.ext_getElem?
  intro k
  by_cases hk : k < s.numel
  · obtain ⟨hin, hnum⟩ := cellAt_eq_some.mp (show s.cellAt k = some _ from if_pos hk)
    rw [← hnum, hin.getElem?_denseToNz, List.getElem?_map, hin.getElem?_all, Option.map_some]
  · have hle : s.numel ≤ k := Nat.le_of_not_lt hk
    rw [List.getElem?_eq_none (by rwa [length_denseToNz]),
      List.getElem?_eq_none (by rwa [List.length_map, Cell.length_all])]

theorem filter_all (s : Shape) : (Cell.all s.rows s.cols).filter (fun d => d ∈ s.cells) = s.cells := by
  refine Cell.eq_of_mem_iff ((Cell.pairwise_all s.rows s.cols).filter _) s.sorted fun d => ?_
  simp only [List.mem_filter, Cell.mem_all, decide_eq_true_eq]
  exact ⟨fun h => h.2, fun hd => ⟨s.inside d hd, hd⟩⟩

theorem countP_all (s : Shape) : (Cell.all s.rows s.cols).countP (fun d => d ∈ s.cells) = s.nnz := by
  rw [List.countP_eq_length_filter, filter_all, nnz]

@[simp] theorem linearIndex_first (s : Shape) : s.linearIndex ⟨0, 0⟩ = 0 := by simp [linearIndex]

@[simp] theorem rank_first (s : Shape) : s.rank ⟨0, 0⟩ = 0 := by simp [rank, Cell.Before]

end Shape

namespace Leaf

variable {α : Type} {l : Leaf α} {c : Cell}

theorem denseElements_eq (l : Leaf α) : Registry.denseElements l = (Cell.all l.shape.rows l.shape.cols).map l.element := by
  rw [Registry.denseElements, Shape.denseToNz_eq, List.map_map]
  rfl

theorem length_denseElements (l : Leaf α) : (Registry.denseElements l).length = l.shape.numel := by
  rw [Registry.denseElements, List.length_map, Shape.length_denseToNz]

theorem getElem?_denseElements (hc : l.shape.Inside c) :
    (Registry.denseElements l)[l.shape.linearIndex c]? = some (l.element c) := by
  rw [denseElements_eq, List.getElem?_map, hc.getElem?_all, Option.map_some]

end Leaf
end QuantityLayout
