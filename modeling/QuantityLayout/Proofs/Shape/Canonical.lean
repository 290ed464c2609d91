import QuantityLayout.Proofs.Layout.Json
import QuantityLayout.Shape.Cell

set_option autoImplicit false

namespace QuantityLayout

namespace Cell

theorem atMost_iff {a b : Cell} : a.atMost b ↔ a = b ∨ a.Before b := by
  obtain ⟨r, c⟩ := a
  obtain ⟨r', c'⟩ := b
  simp only [atMost, Before, mk.injEq, Bool.or_eq_true, Bool.and_eq_true, decide_eq_true_eq, beq_iff_eq]
  omega

theorem pairwise_sort (cs : List Cell) : (sort cs).Pairwise fun a b => a.atMost b := by
  refine List.pairwise_mergeSort (fun a b c => ?_) (fun a b => ?_) cs
  · simp only [atMost, Bool.or_eq_true, Bool.and_eq_true, decide_eq_true_eq, beq_iff_eq]
    omega
  · simp only [atMost, Bool.or_eq_true, Bool.and_eq_true, decide_eq_true_eq, beq_iff_eq]
    omega

theorem mem_keepAfter {kept x : Cell} {cs : List Cell} : x ∈ kept :: keepAfter kept cs ↔ x ∈ kept :: cs := by
  induction cs generalizing kept with
  | nil => rfl
  | cons c cs ih =>
    unfold keepAfter
    split
    · next h => rw [ih, h, List.mem_cons, List.mem_cons, List.mem_cons, or_self_left]
    · rw [List.mem_cons, ih, ← List.mem_cons]

/-- What is kept is strictly increasing: a cell that is not the kept one comes after it, and so do all that are kept later. -/
theorem pairwise_keepAfter {kept : Cell} {cs : List Cell} (h : (kept :: cs).Pairwise fun a b => a.atMost b) :
    (kept :: keepAfter kept cs).Pairwise Before := by
  induction cs generalizing kept with
  | nil => exact List.pairwise_singleton ..
  | cons c cs ih =>
    obtain ⟨hkept, hcs⟩ := List.pairwise_cons.mp h
    unfold keepAfter
    split
    · next he => exact ih (he ▸ hcs)
    · next hne =>
      have hlater := ih hcs
      have hbefore : kept.Before c := (atMost_iff.mp (hkept c List.mem_cons_self)).resolve_left fun he => hne he.symm
      refine List.pairwise_cons.mpr ⟨fun x hx => ?_, hlater⟩
      rcases List.mem_cons.mp hx with rfl | hx
      · exact hbefore
      · exact hbefore.trans (List.rel_of_pairwise_cons hlater hx)

theorem mem_dropRepeats {x : Cell} {cs : List Cell} : x ∈ dropRepeats cs ↔ x ∈ cs := by
  cases cs with
  | nil => rfl
  | cons c cs => exact mem_keepAfter

theorem pairwise_dropRepeats {cs : List Cell} (h : cs.Pairwise fun a b => a.atMost b) : (dropRepeats cs).Pairwise Before := by
  cases cs with
  | nil => exact .nil
  | cons c cs => exact pairwise_keepAfter h

/-- Sorting and dropping repeats gives what putting each cell in its place gives. -/
theorem dropRepeats_sort (cs : List Cell) : dropRepeats (sort cs) = arrange cs := by
  refine eq_of_mem_iff (pairwise_dropRepeats (pairwise_sort cs)) (pairwise_arrange cs) fun c => ?_
  rw [mem_dropRepeats, sort, List.mem_mergeSort, mem_arrange]

end Cell

namespace Shape

theorem extent_of_ofCells {rows cols : Nat} {cells : List Cell} {s : Shape} (h : ofCells rows cols cells = .ok s) :
    IsExtent rows cols ∧ ∀ c ∈ cells, c.row < rows ∧ c.col < cols := by
  obtain ⟨rfl, rfl, hmem⟩ := ofCells_eq_ok.mp h
  exact ⟨s.extent, fun c hc => s.inside c ((hmem c).mpr hc)⟩

theorem decode_render (s : Shape) {style : Json.Style} (hs : style.Blank) :
    Json.decode ofJson (s.toJson.render style) = .ok s :=
  Json.decode_eq_ok.mpr ⟨_, Json.parse?_render hs s.standard_toJson, s.ofJson_toJson⟩

/-- A shape can be made from any cells inside an extent, and is known by which ones they are. Made from its own cells or
its own text it is the same again. -/
theorem ofCells_canonical (rows cols : Nat) (cells : List Cell) :
    ((∃ s, ofCells rows cols cells = .ok s) ↔
      1 ≤ rows ∧ 1 ≤ cols ∧ rows * cols < 2 ^ 64 ∧ ∀ c ∈ cells, c.row < rows ∧ c.col < cols) ∧
    ∀ s, ofCells rows cols cells = .ok s →
      s.rows = rows ∧ s.cols = cols ∧ s.cells = Cell.dropRepeats (Cell.sort cells) ∧
      s.cells.Pairwise Cell.Before ∧ (∀ c, c ∈ s.cells ↔ c ∈ cells) ∧
      (∀ rows' cols' cells' s', ofCells rows' cols' cells' = .ok s' →
        (s = s' ↔ rows = rows' ∧ cols = cols' ∧ ∀ c, c ∈ cells ↔ c ∈ cells')) ∧
      s.nnz ≤ s.numel ∧
      ofCells s.rows s.cols s.cells = .ok s ∧
      ∀ style : Json.Style, style.Blank → Json.decode ofJson (s.toJson.render style) = .ok s := by
  refine ⟨⟨fun ⟨s, hs⟩ => ?_, fun ⟨hrows, hcols, hbound, hinside⟩ => exists_ofCells ⟨hrows, hcols, hbound⟩ hinside⟩,
    fun s hs => ?_⟩
  · obtain ⟨⟨hrows, hcols, hbound⟩, hinside⟩ := extent_of_ofCells hs
    exact ⟨hrows, hcols, hbound, hinside⟩
  · obtain ⟨rfl, rfl, hmem⟩ := ofCells_eq_ok.mp hs
    refine ⟨rfl, rfl, ?_, s.sorted, hmem, fun rows' cols' cells' s' hs' => ?_, s.nnz_le_numel, s.ofCells_cells,
      fun style hstyle => s.decode_render hstyle⟩
    · rw [Cell.dropRepeats_sort]
      exact Cell.eq_of_mem_iff s.sorted (Cell.pairwise_arrange cells) fun c => (hmem c).trans Cell.mem_arrange.symm
    · obtain ⟨rfl, rfl, hmem'⟩ := ofCells_eq_ok.mp hs'
      constructor
      · rintro rfl
        exact ⟨rfl, rfl, fun c => (hmem c).symm.trans (hmem' c)⟩
      · rintro ⟨hrows, hcols, hsame⟩
        exact eq_of_mem_iff hrows hcols fun c => (hmem c).trans ((hsame c).trans (hmem' c).symm)

theorem ofCells_canonical_sample :
    ∃ s, ofCells 2 2 [⟨1, 1⟩, ⟨0, 1⟩, ⟨1, 0⟩, ⟨1, 1⟩] = .ok s ∧
      s.cells = Cell.dropRepeats (Cell.sort [⟨1, 1⟩, ⟨0, 1⟩, ⟨1, 0⟩, ⟨1, 1⟩]) ∧ s.cells = [⟨1, 0⟩, ⟨0, 1⟩, ⟨1, 1⟩] ∧
      Json.decode ofJson (s.toJson.render .compact) = .ok s := by
  obtain ⟨hiff, hmade⟩ := ofCells_canonical 2 2 [⟨1, 1⟩, ⟨0, 1⟩, ⟨1, 0⟩, ⟨1, 1⟩]
  obtain ⟨s, hs⟩ := hiff.mpr (by decide)
  obtain ⟨-, -, hcells, -, -, -, -, -, htext⟩ := hmade s hs
  refine ⟨s, hs, hcells, ?_, htext .compact Json.Style.blank_compact⟩
  rw [hcells, Cell.dropRepeats_sort]
  rfl

end Shape
end QuantityLayout
