import QuantityLayout.Proofs.Shape.Canonical
import QuantityLayout.Proofs.Shape.Dense
import QuantityLayout.Proofs.Shape.Cells
import Mathlib.Algebra.Group.Nat.Even
import Mathlib.Data.Nat.Choose.Basic

set_option autoImplicit false

namespace QuantityLayout

namespace Cell

def lowerColumn (n c : Nat) : List Cell := (List.range' c (n - c)).map fun r => ⟨r, c⟩

def lowerColumns (n k : Nat) : List Cell := (List.range k).flatMap (lowerColumn n)

@[simp] theorem length_lowerColumn (n c : Nat) : (lowerColumn n c).length = n - c := by simp [lowerColumn]

@[simp] theorem mem_lowerColumn {n c : Nat} {x : Cell} : x ∈ lowerColumn n c ↔ x.col = c ∧ c ≤ x.row ∧ x.row < n := by
  obtain ⟨r, c'⟩ := x
  simp only [lowerColumn, List.mem_map, List.mem_range'_1, mk.injEq]
  constructor
  · rintro ⟨r', hr, rfl, rfl⟩
    omega
  · rintro ⟨rfl, hr⟩
    exact ⟨r, by omega, rfl, rfl⟩

theorem lowerColumns_succ (n k : Nat) : lowerColumns n (k + 1) = lowerColumns n k ++ lowerColumn n k := by
  simp [lowerColumns, List.range_succ]

theorem mem_lowerColumns {n k : Nat} {x : Cell} : x ∈ lowerColumns n k ↔ x.col < k ∧ x.col ≤ x.row ∧ x.row < n := by
  simp [lowerColumns, eq_comm]

theorem pairwise_lowerColumns (n k : Nat) : (lowerColumns n k).Pairwise Before :=
  pairwise_columns (fun _ => List.pairwise_lt_range' 1) k

theorem length_lowerColumns_add {n k : Nat} (hk : k ≤ n) : (lowerColumns n k).length + k * (k - 1) / 2 = k * n := by
  induction k with
  | zero => simp [lowerColumns]
  | succ k ih =>
    -- the next column has `n - k` cells, so it misses `k` more
    have hprev := ih (Nat.le_of_succ_le hk)
    have htriangle := Nat.triangle_succ k
    rw [lowerColumns_succ, List.length_append, length_lowerColumn, htriangle, Nat.succ_mul]
    omega

theorem length_lowerColumns_self {n : Nat} (hn : 1 ≤ n) : (lowerColumns n n).length = n * (n + 1) / 2 := by
  have hmissing := length_lowerColumns_add (Nat.le_refl n)
  have htriangle := Nat.triangle_succ n
  have heven := Nat.two_mul_div_two_of_even (Nat.even_mul_pred_self n)
  have hsquare : n * (n - 1) + n = n * n := by rw [← Nat.mul_succ, Nat.succ_eq_add_one, Nat.sub_add_cancel hn]
  rw [Nat.add_sub_cancel, Nat.mul_comm] at htriangle
  omega

/-- A column begins behind all columns before it, and more columns move none of its cells. -/
theorem getElem?_lowerColumns {n k c j : Nat} (hc : c < k) (hj : j < n - c) :
    (lowerColumns n k)[(lowerColumns n c).length + j]? = some ⟨c + j, c⟩ := by
  induction k with
  | zero => omega
  | succ k ih =>
    rw [lowerColumns_succ]
    by_cases hlast : c = k
    · subst hlast
      rw [List.getElem?_append_right (Nat.le_add_right ..), Nat.add_sub_cancel_left]
      simp [lowerColumn, hj]
    · have hfound := ih (by omega)
      rw [List.getElem?_append_left (List.getElem?_eq_some_iff.mp hfound).1, hfound]

end Cell

namespace Shape

section Dense

variable {s : Shape} {rows cols : Nat} {cells : List Cell}

/-- All cells written down in sequence are what is made from them in any sequence, or neither is possible. -/
theorem dense_eq_ofCells (h : ∀ c, c ∈ cells ↔ c.row < rows ∧ c.col < cols) : dense rows cols = ofCells rows cols cells := by
  by_cases hextent : IsExtent rows cols
  · rw [dense, withExtent, dif_pos hextent]
    exact (ofCells_eq_ok.mpr ⟨rfl, rfl, fun c => Cell.mem_all.trans (h c).symm⟩).symm
  · rw [dense, ofCells, withExtent, withExtent, dif_neg hextent, dif_neg hextent]

theorem isDense_iff (s : Shape) : s.isDense ↔ ∀ c, s.Inside c → c ∈ s.cells := by
  rw [isDense, beq_iff_eq, ← countP_all, numel, ← Cell.length_all, List.countP_eq_length]
  simp [Inside]

theorem dense_eq_ok : dense rows cols = .ok s ↔ s.rows = rows ∧ s.cols = cols ∧ s.isDense := by
  rw [dense_eq_ofCells fun _ => Cell.mem_all, ofCells_eq_ok, isDense_iff]
  constructor
  · rintro ⟨rfl, rfl, hmem⟩
    exact ⟨rfl, rfl, fun c hc => (hmem c).mpr (Cell.mem_all.mpr hc)⟩
  · rintro ⟨rfl, rfl, hall⟩
    exact ⟨rfl, rfl, fun c => ⟨fun hc => Cell.mem_all.mpr (s.inside c hc), fun hc => hall c (Cell.mem_all.mp hc)⟩⟩

end Dense

/-- The shape of all cells is made from any list of just these cells. A shape is dense if and only if all of its cells
are present. -/
theorem dense_agrees :
    (∀ (rows cols : Nat) (cells : List Cell), (∀ c, c ∈ cells ↔ c.row < rows ∧ c.col < cols) →
      dense rows cols = ofCells rows cols cells ∧ Cell.dropRepeats (Cell.sort cells) = Cell.all rows cols) ∧
    ∀ s : Shape,
      (s.isDense ↔ ∀ c, c.row < s.rows → c.col < s.cols → s.contains c) ∧
      (s.isDense ↔ dense s.rows s.cols = .ok s) := by
  refine ⟨fun rows cols cells h => ⟨dense_eq_ofCells h, ?_⟩, fun s => ⟨?_, ?_⟩⟩
  · rw [Cell.dropRepeats_sort]
    exact Cell.eq_of_mem_iff (Cell.pairwise_arrange cells) (Cell.pairwise_all rows cols) fun c => by simp [h]
  · simp [isDense_iff, Inside, contains_iff]
  · simp [dense_eq_ok]

theorem dense_agrees_sample :
    (∀ c : Cell, c ∈ [⟨1, 0⟩, ⟨0, 1⟩, ⟨0, 0⟩, ⟨1, 1⟩, ⟨1, 0⟩] ↔ c.row < 2 ∧ c.col < 2) ∧
      dense 2 2 = ofCells 2 2 [⟨1, 0⟩, ⟨0, 1⟩, ⟨0, 0⟩, ⟨1, 1⟩, ⟨1, 0⟩] ∧
      Cell.dropRepeats (Cell.sort [⟨1, 0⟩, ⟨0, 1⟩, ⟨0, 0⟩, ⟨1, 1⟩, ⟨1, 0⟩]) = [⟨0, 0⟩, ⟨1, 0⟩, ⟨0, 1⟩, ⟨1, 1⟩] ∧
      dense scalar.rows scalar.cols = .ok scalar := by
  obtain ⟨hmade, hshape⟩ := dense_agrees
  have hcells : ∀ c : Cell, c ∈ [⟨1, 0⟩, ⟨0, 1⟩, ⟨0, 0⟩, ⟨1, 1⟩, ⟨1, 0⟩] ↔ c.row < 2 ∧ c.col < 2 := by
    intro ⟨r, c⟩
    simp only [List.mem_cons, Cell.mk.injEq, List.not_mem_nil, or_false]
    omega
  obtain ⟨hdense, hsorted⟩ := hmade 2 2 _ hcells
  exact ⟨hcells, hdense, hsorted, (hshape scalar).2.mp (by decide)⟩

theorem exists_ofCells_sorted {rows cols : Nat} {cells : List Cell} (hextent : IsExtent rows cols)
    (hinside : ∀ c ∈ cells, c.row < rows ∧ c.col < cols) (hsorted : cells.Pairwise Cell.Before) :
    ∃ s, ofCells rows cols cells = .ok s ∧ s.rows = rows ∧ s.cols = cols ∧ s.cells = cells := by
  obtain ⟨s, hs⟩ := exists_ofCells hextent hinside
  obtain ⟨hrows, hcols, hmem⟩ := ofCells_eq_ok.mp hs
  exact ⟨s, hs, hrows, hcols, Cell.eq_of_mem_iff s.sorted hsorted hmem⟩

section Square

variable {n : Nat}

theorem exists_lowerTriangular (h : IsExtent n n) :
    ∃ s, lowerTriangular n = .ok s ∧ s.rows = n ∧ s.cols = n ∧ s.cells = Cell.lowerColumns n n := by
  have hinside : ∀ c ∈ Cell.lowerColumns n n, c.row < n ∧ c.col < n := fun c hc => by
    rw [Cell.mem_lowerColumns] at hc
    omega
  obtain ⟨s, hs, hfields⟩ := exists_ofCells_sorted h hinside (Cell.pairwise_lowerColumns n n)
  exact ⟨s, (dif_pos h).trans hs, hfields⟩

theorem exists_diagonal (h : IsExtent n n) :
    ∃ s, diagonal n = .ok s ∧ s.rows = n ∧ s.cols = n ∧ s.cells = (List.range n).map fun i => ⟨i, i⟩ := by
  have hinside : ∀ c ∈ (List.range n).map fun i => (⟨i, i⟩ : Cell), c.row < n ∧ c.col < n := by simp
  have hsorted : ((List.range n).map fun i => (⟨i, i⟩ : Cell)).Pairwise Cell.Before :=
    List.pairwise_map.mpr (List.pairwise_lt_range.imp .inl)
  obtain ⟨s, hs, hfields⟩ := exists_ofCells_sorted h hinside hsorted
  exact ⟨s, (dif_pos h).trans hs, hfields⟩

end Square

/-- A lower triangle has `n * (n + 1) / 2` cells, and each is found behind the columns before its own. A diagonal has
one cell in each row. -/
theorem triangle_and_diagonal {n : Nat} (hn : 1 ≤ n) (hbound : n * n < 2 ^ 64) :
    (∃ s, lowerTriangular n = .ok s ∧ s.rows = n ∧ s.cols = n ∧
      (∀ r c, s.contains ⟨r, c⟩ ↔ c ≤ r ∧ r < n) ∧ s.nnz = n * (n + 1) / 2 ∧
      ∀ r c, c ≤ r → r < n → s.search ⟨r, c⟩ = some (c * n - c * (c - 1) / 2 + (r - c))) ∧
    ∃ s, diagonal n = .ok s ∧ s.rows = n ∧ s.cols = n ∧
      (∀ r c, s.contains ⟨r, c⟩ ↔ r = c ∧ c < n) ∧ s.nnz = n ∧ ∀ i < n, s.search ⟨i, i⟩ = some i := by
  have hextent : IsExtent n n := ⟨hn, hn, hbound⟩
  constructor
  · obtain ⟨s, hs, hrows, hcols, hcells⟩ := exists_lowerTriangular hextent
    refine ⟨s, hs, hrows, hcols, fun r c => ?_, ?_, fun r c hle hr => ?_⟩
    · rw [contains_iff, hcells, Cell.mem_lowerColumns]
      exact ⟨fun h => h.2, fun h => ⟨Nat.lt_of_le_of_lt h.1 h.2, h⟩⟩
    · rw [nnz, hcells, Cell.length_lowerColumns_self hn]
    · have hc : c < n := Nat.lt_of_le_of_lt hle hr
      have hfront := Cell.length_lowerColumns_add (Nat.le_of_lt hc)
      have hcell : s.cells[(Cell.lowerColumns n c).length + (r - c)]? = some ⟨r, c⟩ := by
        rw [hcells, Cell.getElem?_lowerColumns hc (by omega), Nat.add_sub_cancel' hle]
      rw [search_eq_nzIndex, nzIndex_of_getElem? hcell, Nat.eq_sub_of_add_eq hfront]
  · obtain ⟨s, hs, hrows, hcols, hcells⟩ := exists_diagonal hextent
    refine ⟨s, hs, hrows, hcols, fun r c => ?_, ?_, fun i hi => ?_⟩
    · rw [contains_iff, hcells]
      simp; omega
    · simp [nnz, hcells]
    · rw [search_eq_nzIndex]
      exact nzIndex_of_getElem? (by simp [hcells, hi])

theorem triangle_and_diagonal_three :
    1 ≤ 3 ∧ 3 * 3 < 2 ^ 64 ∧
      (∃ s, lowerTriangular 3 = .ok s ∧ s.nnz = 6 ∧ s.contains ⟨2, 1⟩ ∧ ¬ s.contains ⟨1, 2⟩ ∧
        s.search ⟨2, 1⟩ = some 4) ∧
      ∃ s, diagonal 3 = .ok s ∧ s.nnz = 3 ∧ s.search ⟨2, 2⟩ = some 2 := by
  have hbound : 3 * 3 < 2 ^ 64 := by decide
  obtain ⟨⟨s, hs, -, -, hmem, hnnz, hindex⟩, d, hd, -, -, -, hcount, hplace⟩ :=
    triangle_and_diagonal (by decide : 1 ≤ 3) hbound
  refine ⟨by decide, hbound, ⟨s, hs, hnnz, (hmem 2 1).mpr (by decide), ?_, hindex 2 1 (by decide) (by decide)⟩,
    d, hd, hcount, hplace 2 (by decide)⟩
  exact fun h => absurd ((hmem 1 2).mp h) (by decide)

end Shape
end QuantityLayout
