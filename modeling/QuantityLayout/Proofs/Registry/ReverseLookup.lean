import QuantityLayout.Proofs.Registry.Cells
import QuantityLayout.Proofs.Tree.Writable
/-!
From numbers of present cells to paths and back. A number lies in the reach of one visit; the path of its cell leads to
the element that stands there in the flattening, and every question about that path answers with the number.
-/
set_option autoImplicit false

namespace QuantityLayout

variable {α : Type}

/-- How a cell of a visited leaf is named: the only cell of a leaf has the path of the leaf. -/
def Visit.cellPath (v : Visit α) (c : Cell) : Path :=
  if v.leaf.shape.numel = 1 then v.path else v.path ++ [.cell c.row c.col]

theorem Visit.cellPath_single {v : Visit α} (h : v.leaf.shape.numel = 1) (c : Cell) : v.cellPath c = v.path := if_pos h

theorem Visit.cellPath_many {v : Visit α} (h : ¬ v.leaf.shape.numel = 1) (c : Cell) :
    v.cellPath c = v.path ++ [.cell c.row c.col] := if_neg h

namespace Registry

variable {r : Registry α} {vs : List (Visit α)} {l : Layout}

structure Stands (vs : List (Visit α)) (i j : Nat) (v : Visit α) (c : Cell) : Prop where
  visit : vs[i]? = some v
  cell : v.leaf.shape.cells[j]? = some c

namespace Laid

theorem nonzeroAt_eq_some (h : r.Laid vs l) {k i j : Nat} :
    l.nonzeroAt k = some (i, j) ↔ ∃ v c, Stands vs i j v c ∧ k = nnzBefore vs i + j := by
  rw [Layout.nonzeroAt, h.slots, Layout.findNonzero_place]
  simp only [← h.slots, h.getElem?_slots, Nat.zero_add]
  refine ⟨?_, ?_⟩
  · intro hx
    obtain ⟨i', j', s, hr, hs, hj, hk⟩ := hx
    cases hr
    obtain ⟨v, hv, rfl⟩ := Option.map_eq_some_iff.mp hs
    obtain ⟨c, hc⟩ := Shape.exists_cell hj
    exact ⟨v, c, ⟨hv, hc⟩, hk⟩
  · intro hx
    obtain ⟨v, c, hs, hk⟩ := hx
    exact ⟨i, j, slotOf vs i v, rfl, by rw [hs.visit]; rfl, Shape.lt_nnz hs.cell, hk⟩

theorem reverseLookup_of_stands (h : r.Laid vs l) {i j : Nat} {v : Visit α} {c : Cell} (hs : Stands vs i j v c) :
    r.reverseLookup (nnzBefore vs i + j) = .ok (v.cellPath c) := by
  have hk : l.nonzeroAt (nnzBefore vs i + j) = some (i, j) := h.nonzeroAt_eq_some.mpr ⟨v, c, hs, rfl⟩
  have hslot := h.slot_visit hs.visit
  have hcell : (slotOf vs i v).shape.cells[j]? = some c := hs.cell
  simp only [reverseLookup, h.layout, bind, Except.bind, hk, hslot, hcell, Visit.cellPath]
  by_cases hone : v.leaf.shape.numel = 1
  · simp [slotOf, hone]
  · simp [slotOf, hone]

theorem reverseLookup_eq_ok (h : r.Laid vs l) {k : Nat} {p : Path} :
    r.reverseLookup k = .ok p ↔ ∃ i j v c, Stands vs i j v c ∧ k = nnzBefore vs i + j ∧ p = v.cellPath c := by
  refine ⟨?_, ?_⟩
  · intro hp
    cases hk : l.nonzeroAt k with
    | none => simp [reverseLookup, h.layout, bind, Except.bind, hk] at hp
    | some e =>
      obtain ⟨i, j⟩ := e
      obtain ⟨v, c, hs, rfl⟩ := h.nonzeroAt_eq_some.mp hk
      rw [h.reverseLookup_of_stands hs] at hp
      cases hp
      exact ⟨i, j, v, c, hs, rfl, rfl⟩
  · intro hx
    obtain ⟨i, j, v, c, hs, hk, hp⟩ := hx
    rw [hk, hp]
    exact h.reverseLookup_of_stands hs

theorem exists_reverseLookup_iff (h : r.Laid vs l) {k : Nat} :
    (∃ p, r.reverseLookup k = .ok p) ↔ k < l.totalNnz := by
  have htotal : (l.slots.map fun s => s.shape.nnz).sum = l.totalNnz := by rw [h.nnz_slots, h.total]
  rw [← htotal, ← Layout.exists_findNonzero_iff 0]
  refine ⟨?_, ?_⟩
  · intro hx
    obtain ⟨p, hp⟩ := hx
    obtain ⟨i, j, v, c, hs, hk, -⟩ := h.reverseLookup_eq_ok.mp hp
    exact ⟨(i, j), h.nonzeroAt_eq_some.mpr ⟨v, c, hs, hk⟩⟩
  · intro hx
    obtain ⟨⟨i, j⟩, hk⟩ := hx
    obtain ⟨v, c, hs, hk⟩ := h.nonzeroAt_eq_some.mp hk
    exact ⟨v.cellPath c, h.reverseLookup_eq_ok.mpr ⟨i, j, v, c, hs, hk, rfl⟩⟩

end Laid

namespace Stands

variable {i j : Nat} {v : Visit α} {c : Cell}

theorem step (hs : Stands vs i j v c) : (Place.leaf v.leaf).step (.cell c.row c.col) = .ok (.cell v.leaf c) :=
  step_of_mem_cellSteps (Shape.inside_of_getElem? hs.cell) List.mem_cons_self

theorem locate (hs : Stands vs i j v c) (h : r.Laid vs l) :
    r.locate (v.cellPath c) = .ok (if v.leaf.shape.numel = 1 then .leaf v.leaf else .cell v.leaf c) := by
  by_cases hone : v.leaf.shape.numel = 1
  · rw [Visit.cellPath_single hone, if_pos hone]
    exact h.located v (List.mem_of_getElem? hs.visit)
  · rw [Visit.cellPath_many hone, if_neg hone]
    exact h.locate_cell hs.visit hs.step

theorem lookup (hs : Stands vs i j v c) (h : r.Laid vs l) :
    ∃ f, r.lookup (v.cellPath c) = .ok f ∧ f.asElement = v.leaf.elements[j]? := by
  by_cases hone : v.leaf.shape.numel = 1
  · obtain ⟨hnnz, rfl⟩ := Shape.nnz_of_single hone (Shape.lt_nnz hs.cell)
    have hscalar : v.leaf.isScalar := by simp [Leaf.isScalar, hone, hnnz]
    refine ⟨.leaf v.leaf, by simp [Registry.lookup, hs.locate h, hone, Except.map, Place.found], ?_⟩
    simp [Found.asElement, hscalar, List.head?_eq_getElem?]
  · obtain ⟨x, hx⟩ := Leaf.exists_element (Shape.lt_nnz hs.cell)
    have hfound : (Place.cell v.leaf c).found = .element x :=
      found_cell_eq_element.mpr ((Leaf.element_of_getElem? hs.cell).trans hx)
    refine ⟨.element x, ?_, hx.symm⟩
    rw [Visit.cellPath_many hone, h.lookup_cell hs.visit hs.step, hfound]

theorem offsetOf (hs : Stands vs i j v c) (h : r.Laid vs l) :
    ∃ d, r.offsetOf (v.cellPath c) = .ok (d, nnzBefore vs i + j) := by
  by_cases hone : v.leaf.shape.numel = 1
  · obtain ⟨-, rfl⟩ := Shape.nnz_of_single hone (Shape.lt_nnz hs.cell)
    rw [Visit.cellPath_single hone]
    exact ⟨_, h.offsetOf_visit hs.visit⟩
  · rw [Visit.cellPath_many hone, h.offsetOf_cell hs.visit hs.step, Shape.rank_of_getElem? hs.cell]
    exact ⟨_, rfl⟩

theorem nonzeroIndices (hs : Stands vs i j v c) (h : r.Laid vs l) :
    r.nonzeroIndices (v.cellPath c) = .ok [nnzBefore vs i + j] := by
  by_cases hone : v.leaf.shape.numel = 1
  · obtain ⟨hnnz, rfl⟩ := Shape.nnz_of_single hone (Shape.lt_nnz hs.cell)
    rw [Visit.cellPath_single hone, h.nonzeroIndices_visit hs.visit, hnnz]
    rfl
  · rw [Visit.cellPath_many hone, h.nonzeroIndices_cell hs.visit hs.step, Shape.nzIndex_of_getElem? hs.cell]
    rfl

end Stands

/-- Just the numbers below the count of present cells are turned into paths. The path leads to the element with the
number, and every question about it gives the number. -/
theorem reverseLookup_spec {r : Registry α} (hr : r.Reachable) (hfrozen : r.isFrozen) :
    ∃ l flat, r.layout = .ok l ∧ r.flattenNonzero = .ok flat ∧
      ∀ k, ((∃ p, r.reverseLookup k = .ok p) ↔ k < l.totalNnz) ∧
        ∀ p, r.reverseLookup k = .ok p →
          (∃ f x, r.lookup p = .ok f ∧ f.asElement = some x ∧ flat[k]? = some x) ∧
          (∃ d, r.offsetOf p = .ok (d, k)) ∧
          r.nonzeroIndices p = .ok [k] ∧
          (∀ k', r.reverseLookup k' = .ok p → k' = k) ∧
          Path.parse p.render = .ok p := by
  obtain ⟨vs, l, h⟩ := hr.sound.laid hfrozen
  refine ⟨l, _, h.layout, h.flattenNonzero, fun k => ⟨h.exists_reverseLookup_iff, fun p hp => ?_⟩⟩
  obtain ⟨i, j, v, c, hs, rfl, rfl⟩ := h.reverseLookup_eq_ok.mp hp
  have hindices := hs.nonzeroIndices h
  refine ⟨?_, hs.offsetOf h, hindices, ?_, ?_⟩
  · obtain ⟨f, hf, helement⟩ := hs.lookup h
    obtain ⟨x, hx⟩ := Leaf.exists_element (Shape.lt_nnz hs.cell)
    have hflat := getElem?_flatMap_elements hs.visit (Shape.lt_nnz hs.cell)
    exact ⟨f, x, hf, helement.trans hx, hflat.trans hx⟩
  · intro k' hk'
    obtain ⟨i', j', v', c', hs', rfl, hpath⟩ := h.reverseLookup_eq_ok.mp hk'
    rw [hpath, hs'.nonzeroIndices h] at hindices
    simpa using hindices
  · exact Path.parse_render_writable (Node.writable_walk hr.sound.root (locate_eq_ok.mp (hs.locate h)))

theorem reverseLookup_spec_frozenSample :
    frozenSample.isFrozen ∧
      ∃ p, p.render = "y[0](1,1)" ∧ frozenSample.reverseLookup 2 = .ok p ∧
        frozenSample.nonzeroIndices p = .ok [2] ∧ Path.parse p.render = .ok p := by
  have hfrozen : frozenSample.isFrozen := by decide
  have hp : frozenSample.reverseLookup 2 = .ok [.name "y", .index 0, .cell 1 1] := rfl
  obtain ⟨l, flat, -, -, h⟩ := reverseLookup_spec reachable_frozenSample hfrozen
  obtain ⟨-, -, hindices, -, hparse⟩ := (h 2).2 _ hp
  exact ⟨hfrozen, _, by decide, hp, hindices, hparse⟩

end Registry
end QuantityLayout
