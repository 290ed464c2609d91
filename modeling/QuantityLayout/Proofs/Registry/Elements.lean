import QuantityLayout.Proofs.Registry.Cells
import QuantityLayout.Proofs.Shape.Numbering

set_option autoImplicit false

namespace QuantityLayout

namespace Leaf

variable {α σ : Type} {name : String} {shape : Shape}

theorem element_ofCalls (f : Cell → σ → α × σ) (m : σ) (c : Cell) :
    (ofCalls f name shape m).element c = (shape.nzIndex c).map fun k => (f c (memory f (shape.cells.take k) m)).1 := by
  cases hk : shape.nzIndex c with
  | none => simp [element, ofCalls, hk]
  | some k =>
    have hcell := Shape.nzIndex_eq_some.mp hk
    simp [element, ofCalls, hk, getElem?_answers, hcell]

theorem element_ofFn (f : Cell → α) (c : Cell) :
    (ofFn name shape f).element c = if shape.contains c then some (f c) else none := by
  rw [← ofCalls_pure f name shape (), element_ofCalls]
  cases hk : shape.nzIndex c with
  | none => simp [Shape.contains, Shape.nzIndex_eq_none.mp hk]
  | some k => simp [Shape.contains, List.mem_of_getElem? (Shape.nzIndex_eq_some.mp hk)]

theorem ofElements_eq_ok {elements : List α} {l : Leaf α} :
    ofElements name shape elements = .ok l ↔ l.name = name ∧ l.shape = shape ∧ l.elements = elements := by
  obtain ⟨name', shape', elements', hfits⟩ := l
  unfold ofElements
  split
  · simp [eq_comm]
  · next hne =>
    simp only [reduceCtorEq, false_iff, not_and]
    rintro rfl rfl rfl
    exact hne hfits

theorem exists_ofElements_iff {elements : List α} :
    (∃ l, ofElements name shape elements = .ok l) ↔ elements.length = shape.nnz := by
  unfold ofElements
  split
  · next h => exact iff_of_true ⟨_, rfl⟩ h
  · next h => simp [h]

def cellSymbol (name : String) (k : Nat) : Symbol := ⟨s!"{name}_{k}"⟩

theorem cellSymbol_inj {j k : Nat} (h : cellSymbol name j = cellSymbol name k) : j = k := by
  have hchars := congrArg (fun s => s.name.toList) h
  simp [cellSymbol] at hchars
  exact Text.numeral_inj hchars

theorem symbolic_eq (h : 1 < shape.numel) :
    symbolic name shape = ofFn name shape fun c => cellSymbol name (shape.linearIndex c) :=
  if_neg (Nat.ne_of_gt h)

theorem shape_symbolic (name : String) (shape : Shape) : (symbolic name shape).shape = shape := by
  unfold symbolic
  split <;> rfl

theorem element_symbolic (h : 1 < shape.numel) {c : Cell} {x : Symbol} :
    (symbolic name shape).element c = some x ↔ c ∈ shape.cells ∧ x = cellSymbol name (shape.linearIndex c) := by
  rw [symbolic_eq h, element_ofFn]
  by_cases hc : c ∈ shape.cells <;> simp [Shape.contains, hc, eq_comm]

/-- No number belongs to two cells, and no two numbers are written alike. -/
theorem nodup_symbolic (h : 1 < shape.numel) : (symbolic name shape).elements.Nodup := by
  rw [symbolic_eq h]
  refine List.Nodup.map_on (fun c hc d hd heq => ?_) (Cell.nodup_of_pairwise shape.sorted)
  exact (Shape.inside_of_mem hc).linearIndex_injective (Shape.inside_of_mem hd) (cellSymbol_inj heq)

end Leaf

theorem Group.get?_attach {ν : Type} {g g' : Group ν} {name : String} {x : ν} (h : g.attach name x = .ok g') :
    g'.get? name = some x := by
  obtain ⟨⟨-, hnew⟩, rfl⟩ := attach_eq_ok.mp h
  have hnone : g.entries.lookup name = none := Entries.lookup_eq_none_iff.mpr hnew
  simp [get?, List.lookup_append, hnone]

namespace Registry

variable {α : Type} {r r' : Registry α} {p q : Path}

theorem locate_attach {name : String} {n : Node α} (h : r.attach name n = .ok r') {x : Place α}
    (hq : n.place.walk q = .ok x) : r'.locate (.name name :: q) = .ok x := by
  obtain ⟨-, root, hroot, rfl⟩ := edit_eq_ok.mp h
  have hstep : (Place.group root).step (.name name) = .ok n.place :=
    Place.step_group_eq_ok.mpr ⟨name, n, rfl, Group.get?_attach hroot, rfl⟩
  exact locate_eq_ok.mpr (Place.walk_cons_eq_ok.mpr ⟨n.place, hstep, hq⟩)

theorem lookup_number {l : Leaf α} (hp : r.locate p = .ok (.leaf l)) {k : Nat} {x : α} :
    r.lookup (p ++ [.element k]) = .ok (.element x) ↔ ∃ c, l.shape.cellAt k = some c ∧ l.element c = some x := by
  have hcells : ∀ y, r.locate (p ++ [.element k]) = .ok y ↔ ∃ c, l.shape.cellAt k = some c ∧ y = .cell l c := fun y => by
    rw [locate_concat_iff hp, Place.step_leaf_eq_ok]
    simp
  rw [lookup, Outcome.map_eq_ok]
  constructor
  · rintro ⟨y, hy, hx⟩
    obtain ⟨c, hc, rfl⟩ := (hcells y).mp hy
    exact ⟨c, hc, found_cell_eq_element.mp hx⟩
  · rintro ⟨c, hc, hx⟩
    exact ⟨_, (hcells _).mpr ⟨c, hc, rfl⟩, found_cell_eq_element.mpr hx⟩

/-- However a leaf is made, a present cell has the element of its position. The symbols of a leaf of several cells have
different names, and its numbers lead to them wherever the leaf has come to stand. -/
theorem elements_found {α σ : Type} (name : String) (shape : Shape) :
    (∀ (f : Cell → α) (c : Cell), (Leaf.ofFn name shape f).element c = if shape.contains c then some (f c) else none) ∧
    (∀ (f : Cell → σ → α × σ) (m : σ) (c : Cell), (Leaf.ofCalls f name shape m).element c =
      (shape.search c).map fun k => (f c (Leaf.memory f (shape.cells.take k) m)).1) ∧
    (∀ elements : List α, ((∃ l, Leaf.ofElements name shape elements = .ok l) ↔ elements.length = shape.nnz) ∧
      ∀ l, Leaf.ofElements name shape elements = .ok l → ∀ (k : Nat) c, shape.cells[k]? = some c →
        ∃ x, elements[k]? = some x ∧ l.element c = some x) ∧
    (1 < shape.numel →
      (∀ c ∈ shape.cells, (Leaf.symbolic name shape).element c = some ⟨s!"{name}_{shape.linearIndex c}"⟩) ∧
      (Leaf.symbolic name shape).elements.Nodup ∧
      (∀ (r r' : Registry Symbol) (n : String) (node : Node Symbol) (q : Path), r.attach n node = .ok r' →
        node.place.walk q = .ok (.leaf (.symbolic name shape)) →
        r'.locate (.name n :: q) = .ok (.leaf (.symbolic name shape))) ∧
      ∀ (r : Registry Symbol) (p : Path), r.locate p = .ok (.leaf (.symbolic name shape)) → ∀ k x,
        r.lookup (p ++ [.element k]) = .ok (.element x) ↔
          ∃ c ∈ shape.cells, shape.linearIndex c = k ∧ x = ⟨s!"{name}_{k}"⟩) := by
  refine ⟨Leaf.element_ofFn, fun f m c => ?_, fun elements => ⟨?_, fun l hl k c hc => ?_⟩, fun hmany => ⟨fun c hc => ?_,
    Leaf.nodup_symbolic hmany, fun _ _ _ _ _ h hq => locate_attach h hq, fun r p hp k x => ?_⟩⟩
  · rw [Leaf.element_ofCalls, Shape.search_eq_nzIndex]
  · exact Leaf.exists_ofElements_iff
  · obtain ⟨-, rfl, rfl⟩ := Leaf.ofElements_eq_ok.mp hl
    obtain ⟨x, hx⟩ := Leaf.exists_element (Shape.lt_nnz hc)
    exact ⟨x, hx, (Leaf.element_of_getElem? hc).trans hx⟩
  · exact (Leaf.element_symbolic hmany).mpr ⟨hc, rfl⟩
  · rw [lookup_number hp, Leaf.shape_symbolic]
    constructor
    · rintro ⟨c, hcell, hx⟩
      obtain ⟨-, rfl⟩ := Shape.cellAt_eq_some.mp hcell
      obtain ⟨hc, rfl⟩ := (Leaf.element_symbolic hmany).mp hx
      exact ⟨c, hc, rfl, rfl⟩
    · rintro ⟨c, hc, rfl, rfl⟩
      exact ⟨c, Shape.cellAt_eq_some.mpr ⟨Shape.inside_of_mem hc, rfl⟩, (Leaf.element_symbolic hmany).mpr ⟨hc, rfl⟩⟩

theorem elements_found_sampleGaps :
    1 < Shape.sampleGaps.numel ∧
      (Leaf.ofFn "y" .sampleGaps Cell.col).element ⟨0, 2⟩ = some 2 ∧
      (Leaf.ofCalls (fun c m => (m, m + c.row)) "y" .sampleGaps 5).element ⟨0, 2⟩ = some 6 ∧
      (∃ l, Leaf.ofElements "y" .sampleGaps [7, 8] = .ok l ∧ l.element ⟨0, 2⟩ = some 8) ∧
      ∃ r, (empty .permissive).attach "y" (.list [.leaf (.symbolic "y" .sampleGaps)]) = .ok r ∧
        r.lookup [.name "y", .index 0, .element 4] = .ok (.element ⟨"y_4"⟩) := by
  obtain ⟨hfn, hcalls, helements, hsymbols⟩ := elements_found (α := Nat) (σ := Nat) "y" .sampleGaps
  have hmany : 1 < Shape.sampleGaps.numel := by decide
  obtain ⟨-, -, hattach, hlookup⟩ := hsymbols hmany
  obtain ⟨l, hl⟩ := (helements [7, 8]).1.mpr rfl
  obtain ⟨x, hx, hcell⟩ := (helements [7, 8]).2 l hl 1 ⟨0, 2⟩ rfl
  cases hx
  have hr : (empty .permissive).attach "y" (.list [.leaf (.symbolic "y" .sampleGaps)]) = .ok _ := rfl
  have hp := hattach _ _ "y" _ [.index 0] hr rfl
  refine ⟨hmany, hfn _ _, ?_, ⟨l, hl, hcell⟩, _, hr, (hlookup _ _ hp 4 ⟨"y_4"⟩).mpr ⟨⟨0, 2⟩, by decide, rfl, by decide⟩⟩
  rw [hcalls, Shape.search_eq_nzIndex]
  rfl

end Registry
end QuantityLayout
