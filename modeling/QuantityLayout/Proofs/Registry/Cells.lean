import QuantityLayout.Proofs.Registry.Flatten
import QuantityLayout.Proofs.Shape.Cells

set_option autoImplicit false

namespace QuantityLayout.Registry

variable {α : Type} {r : Registry α} {vs : List (Visit α)} {l : Layout} {i : Nat} {v : Visit α} {s : Step} {c : Cell}

theorem getElem?_flatMap_elements_cell (hv : vs[i]? = some v) {j : Nat} (hj : v.leaf.shape.nzIndex c = some j) :
    (vs.flatMap fun v => v.leaf.elements)[nnzBefore vs i + j]? = v.leaf.element c := by
  have hcell := Shape.nzIndex_eq_some.mp hj
  rw [getElem?_flatMap_elements hv (Shape.lt_nnz hcell), Leaf.element_of_getElem? hcell]

theorem found_cell_eq_element {f : Leaf α} {x : α} : (Place.cell f c).found = .element x ↔ f.element c = some x := by
  cases h : f.element c <;> simp [Place.found, h]

theorem found_cell_eq_zero {f : Leaf α} : (Place.cell f c).found = .structuralZero ↔ f.element c = none := by
  cases h : f.element c <;> simp [Place.found, h]

namespace Laid

theorem offsetOf_visit (h : r.Laid vs l) (hv : vs[i]? = some v) :
    r.offsetOf v.path = .ok (word (numelBefore vs i), nnzBefore vs i) := by
  rw [Registry.offsetOf, h.layout]
  simp only [bind, Except.bind, h.located v (List.mem_of_getElem? hv), h.slotAt_visit hv, slotOf]

theorem nonzeroIndices_visit (h : r.Laid vs l) (hv : vs[i]? = some v) :
    r.nonzeroIndices v.path = .ok (List.range' (nnzBefore vs i) v.leaf.shape.nnz) := by
  rw [Registry.nonzeroIndices, h.layout]
  simp only [bind, Except.bind, h.located v (List.mem_of_getElem? hv), h.leavesUnder_visit hv, List.flatMap_singleton,
    slotOf]

theorem indexMatrix_visit (h : r.Laid vs l) (hv : vs[i]? = some v) :
    r.indexMatrix v.path = .ok ((List.range v.leaf.shape.rows).map fun row =>
      (List.range v.leaf.shape.cols).map fun col => (v.leaf.shape.nzIndex ⟨row, col⟩).map (nnzBefore vs i + ·)) := by
  rw [Registry.indexMatrix, h.layout, leafAt]
  simp only [bind, Except.bind, h.located v (List.mem_of_getElem? hv), h.slotAt_visit hv, slotOf]

theorem locate_cell (h : r.Laid vs l) (hv : vs[i]? = some v)
    (hs : (Place.leaf v.leaf).step s = .ok (.cell v.leaf c)) : r.locate (v.path ++ [s]) = .ok (.cell v.leaf c) :=
  locate_concat (h.located v (List.mem_of_getElem? hv)) hs

theorem lookup_cell (h : r.Laid vs l) (hv : vs[i]? = some v)
    (hs : (Place.leaf v.leaf).step s = .ok (.cell v.leaf c)) :
    r.lookup (v.path ++ [s]) = .ok (Place.cell v.leaf c).found := by
  rw [Registry.lookup, h.locate_cell hv hs]
  rfl

theorem offsetOf_cell (h : r.Laid vs l) (hv : vs[i]? = some v)
    (hs : (Place.leaf v.leaf).step s = .ok (.cell v.leaf c)) :
    r.offsetOf (v.path ++ [s])
      = .ok (word (numelBefore vs i + v.leaf.shape.linearIndex c), nnzBefore vs i + v.leaf.shape.rank c) := by
  rw [Registry.offsetOf, h.layout]
  simp only [bind, Except.bind, h.locate_cell hv hs, List.dropLast_concat, h.slotAt_visit hv, slotOf, word_add_left]

theorem nonzeroIndices_cell (h : r.Laid vs l) (hv : vs[i]? = some v)
    (hs : (Place.leaf v.leaf).step s = .ok (.cell v.leaf c)) :
    r.nonzeroIndices (v.path ++ [s]) = .ok ((v.leaf.shape.nzIndex c).map (nnzBefore vs i + ·)).toList := by
  rw [Registry.nonzeroIndices, h.layout]
  simp only [bind, Except.bind, h.locate_cell hv hs, List.dropLast_concat, h.slotAt_visit hv, slotOf]

end Laid

def cellSteps (f : Leaf α) (c : Cell) : List Step := [.cell c.row c.col, .element (f.shape.linearIndex c)]

theorem step_of_mem_cellSteps {f : Leaf α} (hc : f.shape.Inside c) (hs : s ∈ cellSteps f c) :
    (Place.leaf f).step s = .ok (.cell f c) := by
  rw [Place.step_leaf_eq_ok]
  rcases List.mem_pair.mp hs with rfl | rfl
  · exact .inl ⟨c.row, c.col, rfl, hc, rfl⟩
  · exact .inr ⟨_, c, rfl, hc.cellAt_linearIndex, rfl⟩

theorem getElem?_grid {β : Type} {rows cols row col : Nat} (f : Nat → Nat → β) (hrow : row < rows) (hcol : col < cols) :
    (((List.range rows).map fun i => (List.range cols).map (f i))[row]?.bind (·[col]?)) = some (f row col) := by
  rw [List.getElem?_map, List.getElem?_range hrow, Option.map_some, Option.bind_some, List.getElem?_map,
    List.getElem?_range hcol, Option.map_some]

/-- All ways to address a cell agree. The dense flattening has what is found at the first offset, if it can be
stored. -/
theorem cell_addresses_agree {r : Registry α} (hr : r.Reachable) (hfrozen : r.isFrozen) {p : Path} {f : Leaf α}
    (hp : r.locate p = .ok (.leaf f)) {row col : Nat} (hrow : row < f.shape.rows) (hcol : col < f.shape.cols) :
    ∃ found first start d n number matrix dense place entry nonzero,
      (∀ s ∈ [Step.cell row col, Step.element (col * f.shape.rows + row)],
        r.lookup (p ++ [s]) = .ok found ∧ r.offsetOf (p ++ [s]) = .ok (d, n) ∧
        r.nonzeroIndices (p ++ [s]) = .ok number.toList) ∧
      r.offsetOf p = .ok (first, start) ∧ d = word (first + (col * f.shape.rows + row)) ∧
      n = start + f.shape.partitionPoint ⟨row, col⟩ ∧ number = (f.shape.search ⟨row, col⟩).map (start + ·) ∧
      r.indexMatrix p = .ok matrix ∧ matrix[row]?.bind (·[col]?) = some number ∧
      r.flattenDense = .ok dense ∧ d = word place ∧ dense[place]? = some entry ∧
      (dense.length < countBound → dense[d]? = some entry) ∧
      (∀ x, entry = some x ↔ found = .element x) ∧ (entry = none ↔ found = .structuralZero) ∧
      r.flattenNonzero = .ok nonzero ∧
      ∀ k, number = some k → n = k ∧ ∃ x, found = .element x ∧ nonzero[k]? = some x := by
  obtain ⟨vs, l, h⟩ := hr.sound.laid hfrozen
  obtain ⟨i, hv⟩ := List.getElem?_of_mem (h.mem_visits_iff.mp hp)
  have hc : f.shape.Inside ⟨row, col⟩ := ⟨hrow, hcol⟩
  have hdense := getElem?_flatDense_cell hv hc
  refine ⟨(Place.cell f ⟨row, col⟩).found, word (numelBefore vs i), nnzBefore vs i,
    word (numelBefore vs i + f.shape.linearIndex ⟨row, col⟩), nnzBefore vs i + f.shape.rank ⟨row, col⟩,
    (f.shape.nzIndex ⟨row, col⟩).map (nnzBefore vs i + ·), _, _, numelBefore vs i + f.shape.linearIndex ⟨row, col⟩,
    f.element ⟨row, col⟩, _, ?_, h.offsetOf_visit hv, (word_add_left _ _).symm, by rw [Shape.partitionPoint_eq_rank],
    by rw [Shape.search_eq_nzIndex], h.indexMatrix_visit hv, getElem?_grid _ hrow hcol, h.flattenDense, rfl, hdense,
    fun hstored => ?_, fun x => found_cell_eq_element.symm, found_cell_eq_zero.symm, h.flattenNonzero, ?_⟩
  · intro s hs
    have hstep := step_of_mem_cellSteps hc hs
    exact ⟨h.lookup_cell hv hstep, h.offsetOf_cell hv hstep, h.nonzeroIndices_cell hv hstep⟩
  · rwa [word_of_lt (Nat.lt_trans (List.getElem?_eq_some_iff.mp hdense).1 hstored)]
  · intro k hk
    obtain ⟨j, hj, rfl⟩ := Option.map_eq_some_iff.mp hk
    have hcell := Shape.nzIndex_eq_some.mp hj
    obtain ⟨x, hx⟩ := Leaf.exists_element (Shape.lt_nnz hcell)
    have helement : f.element ⟨row, col⟩ = some x := (Leaf.element_of_getElem? hcell).trans hx
    refine ⟨by rw [Shape.rank_of_getElem? hcell], x, found_cell_eq_element.mpr helement, ?_⟩
    exact (getElem?_flatMap_elements_cell hv hj).trans helement

def sampleLeaf : Leaf Symbol :=
  match frozenSample.leafAt [.name "y", .index 0] with
  | .ok f => f
  | .error _ => .scalar "y"

theorem locate_sampleLeaf : frozenSample.locate [.name "y", .index 0] = .ok (.leaf sampleLeaf) := rfl

theorem cell_addresses_agree_frozenSample :
    frozenSample.isFrozen ∧ frozenSample.locate [.name "y", .index 0] = .ok (.leaf sampleLeaf) ∧
      1 < sampleLeaf.shape.rows ∧ 1 < sampleLeaf.shape.cols ∧
      ∃ found n, frozenSample.lookup [.name "y", .index 0, .cell 1 1] = .ok found ∧
        frozenSample.lookup [.name "y", .index 0, .element 3] = .ok found ∧
        frozenSample.offsetOf [.name "y", .index 0, .element 3] = .ok (4, n) ∧
        frozenSample.nonzeroIndices [.name "y", .index 0, .element 3] = .ok [2] := by
  have hfrozen : frozenSample.isFrozen := by decide
  have hrow : 1 < sampleLeaf.shape.rows := by decide
  have hcol : 1 < sampleLeaf.shape.cols := by decide
  obtain ⟨found, first, start, d, n, number, matrix, dense, place, entry, nonzero, hsteps, hfirst, hplace, -, hnumber, -⟩ :=
    cell_addresses_agree reachable_frozenSample hfrozen locate_sampleLeaf hrow hcol
  have hoffset : frozenSample.offsetOf [.name "y", .index 0] = .ok (1, 1) := rfl
  rw [hoffset] at hfirst
  cases hfirst
  obtain rfl : d = 4 := hplace
  obtain ⟨hcell, -, -⟩ := hsteps _ List.mem_cons_self
  obtain ⟨helement, hd, hindices⟩ := hsteps _ (List.mem_cons_of_mem _ List.mem_cons_self)
  refine ⟨hfrozen, locate_sampleLeaf, hrow, hcol, found, n, hcell, helement, hd, ?_⟩
  rw [hnumber, Shape.search_eq_nzIndex] at hindices
  exact hindices

end QuantityLayout.Registry
