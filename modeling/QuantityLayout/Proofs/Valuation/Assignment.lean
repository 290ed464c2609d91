import QuantityLayout.Proofs.Valuation.InPlace
import QuantityLayout.Proofs.Valuation.Reads

set_option autoImplicit false

namespace QuantityLayout

namespace Binary64

def negativeZero : Binary64 := ⟨0x8000000000000000⟩

theorem isZero_iff {x : Binary64} : x.isZero ↔ x = zero ∨ x = negativeZero := by
  obtain ⟨bits⟩ := x
  have hlt : bits.toNat < 2 ^ 64 := bits.toNat_lt
  have hsign : signBit = 2 ^ 63 := rfl
  simp only [isZero, magnitude, zero, negativeZero, mk.injEq, ← UInt64.toNat_inj, beq_iff_eq, hsign]
  simp only [UInt64.reduceToNat]
  omega

theorem not_isZero_of_isNaN {x : Binary64} (h : x.isNaN) : ¬ x.isZero := by
  simp only [isNaN, isZero, decide_eq_true_eq, beq_iff_eq] at h ⊢
  omega

end Binary64

/-- The matrix has the extent of the shape, and a zero of either sign wherever no cell is present. -/
structure Shape.Admits (s : Shape) (m : Matrix Binary64) : Prop where
  rows : m.rows = s.rows
  cols : m.cols = s.cols
  zeros : ∀ c x, c ∉ s.cells → m.value? c.row c.col = some x → x = .zero ∨ x = .negativeZero

/-- The matrix `g` has the entries of `m` at the present cells, bit for bit, and positive zeros at all others. -/
structure Shape.Keeps (s : Shape) (m g : Matrix Binary64) : Prop where
  rows : g.rows = s.rows
  cols : g.cols = s.cols
  present : ∀ c ∈ s.cells, ∃ x, m.value? c.row c.col = some x ∧ g.value? c.row c.col = some x
  absent : ∀ c, s.Inside c → c ∉ s.cells → g.value? c.row c.col = some .zero

namespace Valuation

open Registry

variable {α : Type} {v v' : Valuation α} {vs : List (Visit α)} {i : Nat} {u : Visit α} {p : Path} {s : Shape} {c : Cell}
  {m : Matrix Binary64} {x : Binary64} {xs : List Binary64}

theorem mem_matrixCells : (c, x) ∈ matrixCells m ↔ m.value? c.row c.col = some x := by
  simp only [matrixCells, List.mem_map, Prod.mk.injEq, Prod.exists, List.mem_zipIdx_iff_getElem?]
  constructor
  · rintro ⟨y, k, hk, rfl, rfl⟩
    have hlt : k < m.rows * m.cols := m.fits ▸ (List.getElem?_eq_some_iff.mp hk).1
    have hcols : 0 < m.cols := Nat.pos_of_mul_pos_left (Nat.zero_lt_of_lt hlt)
    rw [Matrix.value?_eq (Nat.div_lt_of_lt_mul (Nat.mul_comm .. ▸ hlt)) (Nat.mod_lt k hcols), Nat.div_add_mod']
    exact hk
  · intro h
    obtain ⟨hrow, hcol⟩ := Matrix.inside_of_value? h
    rw [Matrix.value?_eq hrow hcol] at h
    refine ⟨x, _, h, congrArg₂ Cell.mk ?_ ?_, rfl⟩
    · rw [Nat.mul_comm, Nat.mul_add_div (Nat.zero_lt_of_lt hcol), Nat.div_eq_of_lt hcol, Nat.add_zero]
    · rw [Nat.mul_add_mod', Nat.mod_eq_of_lt hcol]

theorem cellValue_map (f : Cell → Binary64) (hc : c ∈ s.cells) : cellValue s (s.cells.map f) c = f c := by
  obtain ⟨j, hj⟩ := List.getElem?_of_mem hc
  refine cellValue_of_nzIndex (Shape.nzIndex_of_getElem? hj) ?_
  rw [List.getElem?_map, hj, Option.map_some]

theorem matrixValue_leafMatrix (hlength : xs.length = s.nnz) (hc : s.Inside c) :
    matrixValue (leafMatrix s xs) c = cellValue s xs c := by
  have hvalue := value?_leafMatrix hlength hc
  rw [matrixValue_eq (m := leafMatrix s xs) hc.1 hc.2] at hvalue
  exact Option.some.inj hvalue

theorem map_matrixValue_leafMatrix (hlength : xs.length = s.nnz) : s.cells.map (matrixValue (leafMatrix s xs)) = xs := by
  refine List.ext_getElem (by simpa [Shape.nnz] using hlength.symm) fun j hj hj' => ?_
  have hcell : s.cells[j]? = some s.cells[j] := List.getElem?_eq_getElem (by simpa using hj)
  rw [List.getElem_map, matrixValue_leafMatrix hlength (Shape.inside_of_getElem? hcell)]
  exact cellValue_of_nzIndex (Shape.nzIndex_of_getElem? hcell) (List.getElem?_eq_getElem hj')

theorem admits_leafMatrix (hlength : xs.length = s.nnz) : s.Admits (leafMatrix s xs) := by
  refine ⟨rfl, rfl, fun c x hc hx => .inl ?_⟩
  have hin : s.Inside c := Matrix.inside_of_value? hx
  rw [value?_leafMatrix hlength hin, cellValue_of_absent hc] at hx
  exact (Option.some.inj hx).symm

theorem setBuffer_self (hxs : v.buffers[i]? = some xs) : v.setBuffer i xs = v := by
  obtain ⟨hi, rfl⟩ := List.getElem?_eq_some_iff.mp hxs
  exact eq_of_buffers rfl (List.set_getElem_self hi)

theorem admits_iff : s.Admits m ↔ (m.rows = s.rows ∧ m.cols = s.cols) ∧
    (matrixCells m).find? (fun (c, x) => !x.isZero && !s.contains c) = none := by
  have hscan : (matrixCells m).find? (fun (c, x) => !x.isZero && !s.contains c) = none ↔
      ∀ c x, c ∉ s.cells → m.value? c.row c.col = some x → x.isZero := by
    simp only [List.find?_eq_none, Prod.forall, mem_matrixCells, Shape.contains, Bool.and_eq_true, Bool.not_eq_true',
      List.contains_eq_mem, decide_eq_false_iff_not, not_and, not_not]
    grind
  rw [hscan]
  constructor
  · intro h
    exact ⟨⟨h.rows, h.cols⟩, fun c x hc hx => Binary64.isZero_iff.mpr (h.zeros c x hc hx)⟩
  · rintro ⟨⟨hrows, hcols⟩, hzeros⟩
    exact ⟨hrows, hcols, fun c x hc hx => Binary64.isZero_iff.mp (hzeros c x hc hx)⟩

namespace Staged

theorem set_visit (h : v.Staged vs) (hu : vs[i]? = some u) (hm : u.leaf.shape.Admits m) :
    v.set u.path m = .ok (v.setBuffer i (u.leaf.shape.cells.map (matrixValue m))) := by
  obtain ⟨hextent, hscan⟩ := admits_iff.mp hm
  simp only [set, bind, Except.bind, h.target_visit hu, slotOf, hextent, hscan, and_self, not_true_eq_false, if_false]

theorem set_visit_refused (h : v.Staged vs) (hu : vs[i]? = some u) (hm : ¬ u.leaf.shape.Admits m) :
    ∃ e, v.set u.path m = .error (.misfit u.path e) := by
  simp only [set, bind, Except.bind, h.target_visit hu, slotOf]
  split
  · exact ⟨_, rfl⟩
  · next hextent =>
    split
    · exact ⟨_, rfl⟩
    · next hscan => exact absurd (admits_iff.mpr ⟨Decidable.not_not.mp hextent, hscan⟩) hm

/-- The matrix that is read after an assignment has its numbers from the matrix that was assigned. -/
theorem get_assigned (h : v.Staged vs) (hu : vs[i]? = some u) (hm : u.leaf.shape.Admits m) :
    ∃ g, (v.setBuffer i (u.leaf.shape.cells.map (matrixValue m))).get u.path = .ok g ∧ u.leaf.shape.Keeps m g := by
  have hlength : (u.leaf.shape.cells.map (matrixValue m)).length = u.leaf.shape.nnz := List.length_map _
  have hget := (h.setBuffer hu hlength).get_visit hu
  rw [buffer_setBuffer_self (h.lt_buffers hu)] at hget
  refine ⟨_, hget, rfl, rfl, fun c hc => ⟨matrixValue m c, ?_, ?_⟩, fun c hin hc => ?_⟩
  · have hin := Shape.inside_of_mem hc
    exact matrixValue_eq (hm.rows ▸ hin.1) (hm.cols ▸ hin.2)
  · rw [value?_leafMatrix hlength (Shape.inside_of_mem hc), cellValue_map _ hc]
  · rw [value?_leafMatrix hlength hin, cellValue_of_absent hc]

theorem set_get_visit (h : v.Staged vs) (hu : vs[i]? = some u) :
    ∃ g, v.get u.path = .ok g ∧ v.set u.path g = .ok v := by
  obtain ⟨hbuffer, hlength⟩ := h.buffer_visit hu
  refine ⟨_, h.get_visit hu, ?_⟩
  rw [h.set_visit hu (admits_leafMatrix hlength), map_matrixValue_leafMatrix hlength, setBuffer_self hbuffer]

theorem set_cell (h : v.Staged vs) (hu : vs[i]? = some u) {t : Step}
    (ht : (Place.leaf u.leaf).step t = .ok (.cell u.leaf c)) (x : Binary64) :
    v.set (u.path ++ [t]) (.ofFn 1 1 fun _ _ => x) = v.setCell (u.path ++ [t]) i (slotOf vs i u) c x := by
  simp only [set, bind, Except.bind, h.target_cell hu ht]
  rfl

theorem set_get_cell (h : v.Staged vs) (hu : vs[i]? = some u) {t : Step}
    (ht : (Place.leaf u.leaf).step t = .ok (.cell u.leaf c)) (hc : c ∈ u.leaf.shape.cells) :
    ∃ g, v.get (u.path ++ [t]) = .ok g ∧ v.set (u.path ++ [t]) g = .ok v := by
  obtain ⟨hbuffer, hlength⟩ := h.buffer_visit hu
  obtain ⟨j, hj⟩ := List.getElem?_of_mem hc
  have hlt : j < (v.buffer i).length := hlength ▸ Shape.lt_nnz hj
  have hnumber : cellValue u.leaf.shape (v.buffer i) c = (v.buffer i)[j] :=
    cellValue_of_nzIndex (Shape.nzIndex_of_getElem? hj) (List.getElem?_eq_getElem hlt)
  refine ⟨_, h.get_cell hu ht, ?_⟩
  rw [h.set_cell hu ht, setCell_eq_ok]
  refine ⟨j, Shape.nzIndex_of_getElem? hj, ?_⟩
  rw [mapBuffer_eq_setBuffer hbuffer, hnumber, List.set_getElem_self, setBuffer_self hbuffer]

end Staged

/-- Just those matrices can be assigned to a leaf that have its extent and are zero beside its present cells. They are
read back, and what is read can be assigned. -/
theorem assign_and_read {r : Registry α} (hr : r.Reachable) {v : Valuation α} (hv : Reachable r v) :
    (∀ p f, r.locate p = .ok (.leaf f) →
      (∀ m, (∃ v', (InPlace.perform (.write (.set p m))).run v = .ok () v') ↔ f.shape.Admits m) ∧
      (∀ m c x, c ∉ f.shape.cells → m.value? c.row c.col = some x → x.isNaN → ¬ f.shape.Admits m) ∧
      (∀ m, ¬ f.shape.Admits m →
        ∃ e, (InPlace.perform (.write (.set p m))).run v = .error (.refused (.error (.misfit p e))) v) ∧
      (∀ m v', (InPlace.perform (.write (.set p m))).run v = .ok () v' → ∃ g, v'.get p = .ok g ∧ f.shape.Keeps m g) ∧
      ∃ g, v.get p = .ok g ∧ (InPlace.perform (.write (.set p g))).run v = .ok () v) ∧
    ∀ p f c, r.locate p = .ok (.cell f c) → c ∈ f.shape.cells →
      ∃ g, v.get p = .ok g ∧ (InPlace.perform (.write (.set p g))).run v = .ok () v := by
  obtain ⟨vs, h, rfl⟩ := hv.staged hr
  have hrun {p : Path} {m : Matrix Binary64} {v' : Valuation α} :
      (InPlace.perform (.write (.set p m))).run v = .ok () v' ↔ v.set p m = .ok v' := by
    rw [InPlace.run_perform_eq_ok h, act, Outcome.mapError_eq_ok, write]
  simp only [hrun]
  refine ⟨fun p f hp => ?_, fun p f c hp hc => ?_⟩
  · obtain ⟨i, hu⟩ := h.laid.exists_visit hp
    have hdecided (m : Matrix Binary64) {v' : Valuation α} (hset : v.set p m = .ok v') : f.shape.Admits m := by
      by_contra hm
      obtain ⟨e, he⟩ := h.set_visit_refused hu hm
      cases he.symm.trans hset
    refine ⟨fun m => ⟨fun ⟨v', hset⟩ => hdecided m hset, fun hm => ⟨_, h.set_visit hu hm⟩⟩,
      fun m c x hc hx hnan hm => ?_, fun m hm => ?_, fun m v' hset => ?_, h.set_get_visit hu⟩
    · exact Binary64.not_isZero_of_isNaN hnan (Binary64.isZero_iff.mpr (hm.zeros c x hc hx))
    · obtain ⟨e, he⟩ := h.set_visit_refused hu hm
      refine ⟨e, ?_⟩
      rw [InPlace.run_perform h, act, write, he]
      rfl
    · have hm := hdecided m hset
      cases (h.set_visit hu hm).symm.trans hset
      exact h.get_assigned hu hm
  · obtain ⟨i, u, t, hu, rfl, rfl, -, ht⟩ := h.laid.locate_eq_cell hp
    exact h.set_get_cell hu ht hc

def sampleBeside (x : Binary64) : Matrix Binary64 := ⟨2, 2, [⟨4⟩, x, .zero, ⟨6⟩], rfl⟩

/-- A negative zero off the diagonal is admitted and read back as a positive one, and what is not a number is refused there. -/
theorem assign_and_read_frozenSample :
    ∃ v v' g, Reachable frozenSample v ∧
      (InPlace.perform (.write (.set [.name "y", .index 0] (sampleBeside .negativeZero)))).run v = .ok () v' ∧
      v'.get [.name "y", .index 0] = .ok g ∧ g.value? 1 1 = some ⟨6⟩ ∧ g.value? 0 1 = some .zero ∧
      (∀ x, x.isNaN → ∃ e, (InPlace.perform (.write (.set [.name "y", .index 0] (sampleBeside x)))).run v
        = .error (.refused (.error (.misfit [.name "y", .index 0] e))) v) ∧
      ∃ h, v.get [.name "y", .index 0, .cell 1 1] = .ok h ∧
        (InPlace.perform (.write (.set [.name "y", .index 0, .cell 1 1] h))).run v = .ok () v := by
  obtain ⟨v₀, hzeros⟩ : ∃ v₀, zeros frozenSample = .ok v₀ := ⟨_, rfl⟩
  have hv : Reachable frozenSample (v₀.run sampleWrites) := ⟨v₀, sampleWrites, hzeros, rfl⟩
  obtain ⟨hleaf, hcell⟩ := assign_and_read reachable_frozenSample hv
  obtain ⟨hdecided, hnan, hrefused, hread, -⟩ := hleaf _ _ locate_sampleLeaf
  have hadmits : sampleLeaf.shape.Admits (sampleBeside .negativeZero) := admits_iff.mpr (by decide)
  obtain ⟨v', hset⟩ := (hdecided _).mpr hadmits
  obtain ⟨g, hg, hkeeps⟩ := hread _ _ hset
  obtain ⟨x, hx, hsame⟩ := hkeeps.present ⟨1, 1⟩ (by decide)
  cases hx
  have hzero := hkeeps.absent ⟨0, 1⟩ ⟨by decide, by decide⟩ (by decide)
  refine ⟨_, v', g, hv, hset, hg, hsame, hzero, fun x hx => ?_, hcell _ sampleLeaf ⟨1, 1⟩ rfl (by decide)⟩
  exact hrefused _ (hnan _ ⟨0, 1⟩ x (by decide) rfl hx)

end Valuation
end QuantityLayout
