import QuantityLayout.Proofs.Registry.Offsets
import QuantityLayout.Proofs.Valuation.Frame

set_option autoImplicit false

namespace QuantityLayout.Valuation

open Registry

variable {α : Type} {v : Valuation α} {vs : List (Visit α)} {i j : Nat} {u : Visit α} {p : Path}
  {s : Shape} {xs : List Binary64} {c : Cell}

theorem cellValue_of_nzIndex (hj : s.nzIndex c = some j) {x : Binary64} (hx : xs[j]? = some x) :
    cellValue s xs c = x := by rw [cellValue, hj, Option.bind_some, hx, Option.getD_some]

theorem cellValue_of_absent (hc : c ∉ s.cells) : cellValue s xs c = .zero := by
  rw [cellValue, Shape.nzIndex_eq_none.mpr hc, Option.bind_none, Option.getD_none]

/-- Where every present cell is written at a place of its own, the place of a cell has its number. -/
theorem getElem?_scatter_cell (hlength : xs.length = s.nnz) {size k : Nat} {entries : List (Nat × Binary64)}
    (hnodup : (entries.map Prod.fst).Nodup) (hk : k < size)
    (hpresent : ∀ (j : Nat) (x : Binary64), s.cells[j]? = some c → xs[j]? = some x → (k, x) ∈ entries)
    (habsent : c ∉ s.cells → k ∉ entries.map Prod.fst) :
    (scatter size .zero entries)[k]? = some (cellValue s xs c) := by
  by_cases hc : c ∈ s.cells
  · obtain ⟨j, hj⟩ := List.getElem?_of_mem hc
    have hx : xs[j]? = some _ := List.getElem?_eq_getElem (hlength ▸ Shape.lt_nnz hj)
    rw [cellValue_of_nzIndex (Shape.nzIndex_of_getElem? hj) hx]
    exact getElem?_scatter_of_mem hnodup (hpresent j _ hj hx) hk
  · rw [cellValue_of_absent hc]
    exact getElem?_scatter_of_not_mem (habsent hc) hk

theorem mem_places {place : Cell → Nat} {e : Nat × Binary64} :
    e ∈ List.zipWith (fun c x => (place c, x)) s.cells xs ↔
      ∃ (j : Nat) (c : Cell) (x : Binary64), s.cells[j]? = some c ∧ xs[j]? = some x ∧ e = (place c, x) := by
  rw [List.mem_iff_getElem?]
  simp only [List.getElem?_zipWith_eq_some, eq_comm (b := e)]

theorem map_fst_places (hlength : xs.length = s.nnz) (place : Cell → Nat) :
    (List.zipWith (fun c x => (place c, x)) s.cells xs).map Prod.fst = s.cells.map place := by
  have hzip : List.zipWith (fun c x => (place c, x)) s.cells xs = (s.cells.map place).zip xs := by
    rw [List.zip, List.zipWith_map_left]
  rw [hzip, List.map_fst_zip]
  rw [List.length_map, hlength]
  exact Nat.le_refl _

theorem value?_leafMatrix (hlength : xs.length = s.nnz) (hc : s.Inside c) :
    (leafMatrix s xs).value? c.row c.col = some (cellValue s xs c) := by
  have hplace {a b : Cell} (ha : s.Inside a) (hb : s.Inside b)
      (h : a.row * s.cols + a.col = b.row * s.cols + b.col) : a = b := by
    obtain ⟨hrow, hcol⟩ := grid_injective ha.2 hb.2 h
    exact congrArg₂ Cell.mk hrow hcol
  rw [Matrix.value?_eq hc.1 hc.2]
  refine getElem?_scatter_cell hlength ?_ (grid_lt ⟨c.row, hc.1⟩ ⟨c.col, hc.2⟩) ?_ ?_
  · rw [map_fst_places hlength]
    refine List.Nodup.map_on ?_ (Cell.nodup_of_pairwise s.sorted)
    exact fun a ha b hb h => hplace (Shape.inside_of_mem ha) (Shape.inside_of_mem hb) h
  · exact fun j x hj hx => mem_places.mpr ⟨j, c, x, hj, hx, rfl⟩
  · intro hnot hmem
    rw [map_fst_places hlength] at hmem
    obtain ⟨d, hd, heq⟩ := List.mem_map.mp hmem
    exact hnot (hplace (Shape.inside_of_mem hd) hc heq ▸ hd)

namespace Staged

theorem buffer_visit (h : v.Staged vs) (hu : vs[i]? = some u) :
    v.buffers[i]? = some (v.buffer i) ∧ (v.buffer i).length = u.leaf.shape.nnz := by
  obtain ⟨xs, hxs, hlength⟩ := h.exists_buffer hu
  have hbuffer : v.buffer i = xs := by rw [buffer, hxs, Option.getD_some]
  exact ⟨hbuffer ▸ hxs, hbuffer ▸ hlength⟩

theorem get_visit (h : v.Staged vs) (hu : vs[i]? = some u) :
    v.get u.path = .ok (leafMatrix u.leaf.shape (v.buffer i)) := by
  rw [get, h.target_visit hu]
  rfl

theorem get_cell (h : v.Staged vs) (hu : vs[i]? = some u) {t : Step}
    (ht : (Place.leaf u.leaf).step t = .ok (.cell u.leaf c)) :
    v.get (u.path ++ [t]) = .ok (.ofFn 1 1 fun _ _ => cellValue u.leaf.shape (v.buffer i) c) := by
  rw [get, h.target_cell hu ht]
  rfl

theorem nonzeros_visit (h : v.Staged vs) (hu : vs[i]? = some u) : v.nonzeros u.path = .ok (v.buffer i) := by
  rw [nonzeros, h.target_visit hu]
  rfl

end Staged

end QuantityLayout.Valuation
