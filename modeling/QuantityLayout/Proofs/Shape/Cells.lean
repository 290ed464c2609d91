import QuantityLayout.Leaf
import Mathlib.Data.List.Perm.Subperm

set_option autoImplicit false

namespace QuantityLayout

namespace Cell

theorem Before.ne {a b : Cell} (h : a.Before b) : a ≠ b := fun e => irrefl a (e ▸ h)

theorem Before.not_after {a b : Cell} (h : a.Before b) : ¬ b.Before a := fun h' => irrefl a (h.trans h')

theorem nodup_of_pairwise {cs : List Cell} (h : cs.Pairwise Before) : cs.Nodup := h.imp Before.ne

theorem eq_of_mem_iff {cs ds : List Cell} (hcs : cs.Pairwise Before) (hds : ds.Pairwise Before)
    (h : ∀ c, c ∈ cs ↔ c ∈ ds) : cs = ds := by
  have hperm := (List.perm_ext_iff_of_nodup (nodup_of_pairwise hcs) (nodup_of_pairwise hds)).mpr h
  exact hperm.eq_of_pairwise (fun _ _ _ _ hab hba => absurd hba hab.not_after) hcs hds

theorem length_all (rows cols : Nat) : (all rows cols).length = rows * cols := by
  simp [all, List.length_flatMap, Nat.mul_comm]

theorem not_before_of_head {cs : List Cell} {c d e : Cell} (h : (e :: cs).Pairwise Before) (he : ¬ e.Before c)
    (hd : d ∈ e :: cs) : ¬ d.Before c := by
  intro hdc
  rcases List.mem_cons.mp hd with rfl | hd
  · exact he hdc
  · exact he ((List.rel_of_pairwise_cons h hd).trans hdc)

theorem before_iff_lt_countP {cs : List Cell} (h : cs.Pairwise Before) {i : Nat} {c d : Cell} (hi : cs[i]? = some d) :
    d.Before c ↔ i < cs.countP fun d => d.Before c := by
  induction cs generalizing i with
  | nil => cases hi
  | cons e cs ih =>
    by_cases he : e.Before c
    · rw [List.countP_cons_of_pos (by simpa using he)]
      cases i with
      | zero =>
        cases hi
        exact iff_of_true he (Nat.succ_pos _)
      | succ i =>
        rw [ih h.tail hi]
        exact Nat.succ_lt_succ_iff.symm
    · have hnone : (e :: cs).countP (fun d => d.Before c) = 0 := by
        simpa [List.countP_eq_zero] using fun d => not_before_of_head h he (d := d)
      rw [hnone]
      exact iff_of_false (not_before_of_head h he (List.mem_of_getElem? hi)) (Nat.not_lt_zero i)

theorem countP_before {cs : List Cell} (h : cs.Pairwise Before) {j : Nat} {c : Cell} (hj : cs[j]? = some c) :
    cs.countP (fun d => d.Before c) = j := by
  have hle : ¬ j < cs.countP fun d => d.Before c := fun hlt => Before.irrefl c ((before_iff_lt_countP h hj).mpr hlt)
  have hge : ¬ (cs.countP fun d => d.Before c) < j := by
    intro hlt
    obtain ⟨hlen, hc⟩ := List.getElem?_eq_some_iff.mp hj
    have hbefore := List.pairwise_iff_getElem.mp h _ j (Nat.lt_trans hlt hlen) hlen hlt
    rw [hc] at hbefore
    exact Nat.lt_irrefl _ ((before_iff_lt_countP h (List.getElem?_eq_getElem (Nat.lt_trans hlt hlen))).mp hbefore)
  omega

end Cell

namespace Shape

variable {s : Shape} {j : Nat} {c : Cell}

theorem nzIndex_of_getElem? (h : s.cells[j]? = some c) : s.nzIndex c = some j := by
  obtain ⟨hj, hc⟩ := List.getElem?_eq_some_iff.mp h
  rw [nzIndex, List.idxOf?_eq_some_iff]
  refine ⟨hj, by simp [hc], ?_⟩
  intro i hi
  have hlt := List.pairwise_iff_getElem.mp s.sorted i j (by omega) hj hi
  rw [hc] at hlt
  simpa using hlt.ne

theorem nzIndex_eq_some {j : Nat} : s.nzIndex c = some j ↔ s.cells[j]? = some c := by
  refine ⟨fun h => ?_, nzIndex_of_getElem?⟩
  obtain ⟨hj, hc, -⟩ := List.idxOf?_eq_some_iff.mp h
  rw [List.getElem?_eq_getElem hj, hc]

theorem rank_of_getElem? (h : s.cells[j]? = some c) : s.rank c = j := Cell.countP_before s.sorted h

theorem nnz_le_numel (s : Shape) : s.nnz ≤ s.numel := by
  have hsub : s.cells ⊆ Cell.all s.rows s.cols := fun c hc => Cell.mem_all.mpr (s.inside c hc)
  have h := (List.subperm_of_subset (Cell.nodup_of_pairwise s.sorted) hsub).length_le
  rwa [Cell.length_all] at h

theorem lt_nnz (h : s.cells[j]? = some c) : j < s.nnz := (List.getElem?_eq_some_iff.mp h).1

theorem inside_of_getElem? (h : s.cells[j]? = some c) : c.row < s.rows ∧ c.col < s.cols :=
  s.inside c (List.mem_of_getElem? h)

theorem exists_cell (h : j < s.nnz) : ∃ c, s.cells[j]? = some c := ⟨_, List.getElem?_eq_getElem h⟩

theorem nnz_of_single (hnumel : s.numel = 1) (hj : j < s.nnz) : s.nnz = 1 ∧ j = 0 := by
  have hle := s.nnz_le_numel
  omega

theorem numel_pos (s : Shape) : 0 < s.numel := Nat.mul_pos s.extent.1 s.extent.2.1

theorem rows_lt (s : Shape) : s.rows < countBound := by
  obtain ⟨-, hcols, hbound⟩ := s.extent
  exact Nat.lt_of_le_of_lt (Nat.le_mul_of_pos_right _ hcols) hbound

theorem cols_lt (s : Shape) : s.cols < countBound := by
  obtain ⟨hrows, -, hbound⟩ := s.extent
  exact Nat.lt_of_le_of_lt (Nat.le_mul_of_pos_left _ hrows) hbound

theorem eq_of_mem_iff {s' : Shape} (hrows : s.rows = s'.rows) (hcols : s.cols = s'.cols)
    (hmem : ∀ c, c ∈ s.cells ↔ c ∈ s'.cells) : s = s' := by
  have hcells := Cell.eq_of_mem_iff s.sorted s'.sorted hmem
  obtain ⟨r, c, cs, _, _, _⟩ := s
  obtain ⟨r', c', cs', _, _, _⟩ := s'
  cases hrows
  cases hcols
  cases hcells
  rfl

section Making

variable {rows cols : Nat} {cells : List Cell}

theorem exists_ofCells (hextent : IsExtent rows cols) (hinside : ∀ c ∈ cells, c.row < rows ∧ c.col < cols) :
    ∃ s, ofCells rows cols cells = .ok s := by
  have hfind : cells.find? (fun c => !(c.row < rows && c.col < cols)) = none := by
    rw [List.find?_eq_none]
    intro c hc
    simp [hinside c hc]
  rw [ofCells, withExtent, dif_pos hextent]
  split
  · next hf =>
    rw [hfind] at hf
    cases hf
  · exact ⟨_, rfl⟩

theorem made_of_ofCells (h : ofCells rows cols cells = .ok s) :
    s.rows = rows ∧ s.cols = cols ∧ ∀ c, c ∈ s.cells ↔ c ∈ cells := by
  rw [ofCells, withExtent] at h
  split at h
  · split at h
    · cases h
    · cases h
      exact ⟨rfl, rfl, fun _ => Cell.mem_arrange⟩
  · split at h <;> cases h

/-- What is made from cells is the one shape that has the extent and just these cells. -/
theorem ofCells_eq_ok :
    ofCells rows cols cells = .ok s ↔ s.rows = rows ∧ s.cols = cols ∧ ∀ c, c ∈ s.cells ↔ c ∈ cells := by
  refine ⟨made_of_ofCells, ?_⟩
  rintro ⟨rfl, rfl, hmem⟩
  obtain ⟨s', hs'⟩ := exists_ofCells s.extent fun c hc => s.inside c ((hmem c).mpr hc)
  obtain ⟨hrows, hcols, hmem'⟩ := made_of_ofCells hs'
  rw [hs', eq_of_mem_iff hrows hcols fun c => (hmem' c).trans (hmem c).symm]

theorem ofCells_cells (s : Shape) : ofCells s.rows s.cols s.cells = .ok s := ofCells_eq_ok.mpr ⟨rfl, rfl, fun _ => Iff.rfl⟩

end Making

end Shape

namespace Leaf

variable {α : Type} {l : Leaf α} {j : Nat} {c : Cell}

theorem element_of_getElem? (h : l.shape.cells[j]? = some c) : l.element c = l.elements[j]? := by
  rw [element, Shape.nzIndex_of_getElem? h, Option.bind_some]

theorem exists_element (hj : j < l.shape.nnz) : ∃ x, l.elements[j]? = some x :=
  ⟨_, List.getElem?_eq_getElem (l.fits ▸ hj)⟩

end Leaf

theorem halve_eq {test : Nat → Bool} {lo size k : Nat} (hlo : lo ≤ k) (hhi : k ≤ lo + size)
    (htest : ∀ i, lo ≤ i → i < lo + size → (test i ↔ i < k)) : halve test lo size = k := by
  fun_induction halve test lo size with
  | case1 => omega
  | case2 lo size hsize mid hmid ih =>
    have hlt := (htest mid (by omega) (by omega)).mp hmid
    exact ih (by omega) (by omega) fun i hi hi' => htest i (by omega) (by omega)
  | case3 lo size hsize mid hmid ih =>
    have hle : ¬ mid < k := fun hlt => hmid ((htest mid (by omega) (by omega)).mpr hlt)
    exact ih hlo (by omega) fun i hi hi' => htest i hi (by omega)

namespace Shape

theorem beforeAt_iff (s : Shape) (c : Cell) {k : Nat} (hk : k < s.nnz) : s.beforeAt c k ↔ k < s.rank c := by
  obtain ⟨d, hd⟩ := exists_cell hk
  rw [beforeAt, hd, rank, ← Cell.before_iff_lt_countP s.sorted hd]
  exact decide_eq_true_iff

theorem partitionPoint_eq_rank (s : Shape) (c : Cell) : s.partitionPoint c = s.rank c := by
  refine halve_eq (Nat.zero_le _) ?_ fun i _ hi => s.beforeAt_iff c (by omega)
  rw [Nat.zero_add]
  exact List.countP_le_length

theorem search_eq_nzIndex (s : Shape) (c : Cell) : s.search c = s.nzIndex c := by
  rw [search, partitionPoint_eq_rank]
  split
  · next h => exact (nzIndex_of_getElem? h).symm
  · next h =>
    cases hj : s.nzIndex c with
    | none => rfl
    | some j =>
      have hcell := nzIndex_eq_some.mp hj
      rw [rank_of_getElem? hcell] at h
      exact absurd hcell h

end Shape

end QuantityLayout
