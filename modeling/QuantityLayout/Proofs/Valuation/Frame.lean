import QuantityLayout.Proofs.Registry.ReverseLookup
import QuantityLayout.Proofs.Valuation.Reachable
import Mathlib.Algebra.BigOperators.Group.List.Basic
/-!
Which numbers a write changes. The present cells that a path covers have their numbers in the buffers one by one, in
the sequence in which the registry counts them; a write changes these alone, each to the number that is meant for it.
-/
set_option autoImplicit false

namespace QuantityLayout.Valuation

open Registry

variable {α : Type} {v v' : Valuation α} {vs : List (Visit α)} {i i' j : Nat} {u : Visit α} {p : Path}
  {supply : Nat → Option Binary64}

def number (v : Valuation α) (i j : Nat) : Option Binary64 := v.buffers[i]?.bind (·[j]?)

theorem number_eq_of_buffer {xs : List Binary64} (hxs : v.buffers[i]? = some xs) : v.number i j = xs[j]? := by
  rw [number, hxs, Option.bind_some]

theorem number_setBuffer_self {xs : List Binary64} (hi : i < v.buffers.length) :
    (v.setBuffer i xs).number i j = xs[j]? := number_eq_of_buffer (List.getElem?_set_self hi)

theorem number_setBuffer_ne {xs : List Binary64} (h : i ≠ i') : (v.setBuffer i xs).number i' j = v.number i' j := by
  rw [number, setBuffer, List.getElem?_set_ne h, number]

theorem number_mapBuffer_self {xs : List Binary64} (hxs : v.buffers[i]? = some xs)
    (f : List Binary64 → List Binary64) : (v.mapBuffer i f).number i j = (f xs)[j]? := by
  apply number_eq_of_buffer
  change (v.buffers.modify i f)[i]? = some (f xs)
  rw [List.getElem?_modify_eq, hxs]
  rfl

theorem number_mapBuffer_ne {f : List Binary64 → List Binary64} (h : i ≠ i') :
    (v.mapBuffer i f).number i' j = v.number i' j := by
  simp [number, mapBuffer, h]

theorem number_foldl_fill (x : Binary64) (es : List (Nat × Layout.Slot)) :
    (es.foldl (fun v e => v.mapBuffer e.1 (fillBuffer x)) v).number i j
      = if i ∈ es.map Prod.fst then (v.number i j).map fun _ => x else v.number i j := by
  induction es generalizing v with
  | nil => simp
  | cons e es ih =>
    rw [List.foldl_cons, ih, List.map_cons]
    by_cases hi : e.1 = i
    · have hfill : (v.mapBuffer e.1 (fillBuffer x)).number i j = (v.number i j).map fun _ => x := by
        subst hi
        cases hxs : v.buffers[e.1]? with
        | none => simp [number, mapBuffer, List.getElem?_modify_eq, hxs]
        | some xs =>
          rw [number_mapBuffer_self hxs, number_eq_of_buffer hxs, fillBuffer, List.getElem?_replicate]
          by_cases hj : j < xs.length <;> simp [hj]
      rw [hfill, if_pos (List.mem_cons.mpr (.inl hi.symm))]
      cases v.number i j <;> simp
    · rw [number_mapBuffer_ne hi]
      simp only [List.mem_cons, Ne.symm hi, false_or]

/-- The present cells that a path covers, one after the other, each by the position of its leaf and its position in
it. -/
structure Covers (v : Valuation α) (vs : List (Visit α)) (p : Path) (cells : List (Nat × Nat)) : Prop where
  inside : ∀ e ∈ cells, ∃ u, vs[e.1]? = some u ∧ e.2 < u.leaf.shape.nnz
  indices : v.registry.nonzeroIndices p = .ok (cells.map fun e => nnzBefore vs e.1 + e.2)

def cellsUnder (v : Valuation α) (p : Path) : List (Nat × Nat) :=
  (v.layout.leavesUnder p).flatMap fun e => (List.range e.2.shape.nnz).map fun j => (e.1, j)

structure Overwrites (v v' : Valuation α) (cells : List (Nat × Nat)) (supply : Nat → Option Binary64) : Prop where
  kept : ∀ i j, (i, j) ∉ cells → v'.number i j = v.number i j
  written : ∀ n i j, cells[n]? = some (i, j) → ∃ x, supply n = some x ∧ v'.number i j = some x

namespace Staged

theorem exists_number (h : v.Staged vs) (hu : vs[i]? = some u) :
    (∃ x, v.number i j = some x) ↔ j < u.leaf.shape.nnz := by
  obtain ⟨xs, hxs, hlength⟩ := h.exists_buffer hu
  rw [number_eq_of_buffer hxs, ← hlength]
  exact ⟨fun ⟨_, hx⟩ => (List.getElem?_eq_some_iff.mp hx).1, fun hj => ⟨_, List.getElem?_eq_getElem hj⟩⟩

theorem number_eq_none (h : v.Staged vs) (hu : vs[i]? = some u) (hj : u.leaf.shape.nnz ≤ j) : v.number i j = none := by
  obtain ⟨xs, hxs, hlength⟩ := h.exists_buffer hu
  rw [number_eq_of_buffer hxs]
  exact List.getElem?_eq_none (hlength ▸ hj)

theorem lt_buffers (h : v.Staged vs) (hu : vs[i]? = some u) : i < v.buffers.length :=
  h.length_buffers ▸ (List.getElem?_eq_some_iff.mp hu).1

theorem sum_take (h : v.Staged vs) (i : Nat) : ((v.buffers.map List.length).take i).sum = nnzBefore vs i := by
  rw [h.fits, ← List.map_take, nnzBefore]

theorem getElem?_flattenNonzero (h : v.Staged vs) (hu : vs[i]? = some u) (hj : j < u.leaf.shape.nnz) :
    v.flattenNonzero[nnzBefore vs i + j]? = v.number i j := by
  obtain ⟨xs, hxs, hlength⟩ := h.exists_buffer hu
  obtain ⟨hi, hget⟩ := List.getElem?_eq_some_iff.mp hxs
  rw [flattenNonzero, ← List.getElem?_drop, ← h.sum_take, List.drop_sum_flatten, List.drop_eq_getElem_cons hi,
    List.flatten_cons, hget, List.getElem?_append_left (by rwa [hlength]), number_eq_of_buffer hxs]

theorem length_flattenNonzero (h : v.Staged vs) : v.flattenNonzero.length = v.layout.totalNnz := by
  rw [flattenNonzero, List.length_flatten, h.fits, h.laid.total]

theorem covers_visit (h : v.Staged vs) (hu : vs[i]? = some u) :
    v.Covers vs u.path ((List.range u.leaf.shape.nnz).map fun j => (i, j)) := by
  refine ⟨fun e he => ?_, ?_⟩
  · obtain ⟨j, hj, rfl⟩ := List.mem_map.mp he
    exact ⟨u, hu, List.mem_range.mp hj⟩
  · rw [h.laid.nonzeroIndices_visit hu, List.map_map, List.range'_eq_map_range]
    rfl

theorem covers_cell (h : v.Staged vs) (hu : vs[i]? = some u) {s : Step} {c : Cell} {k : Nat}
    (hs : (Place.leaf u.leaf).step s = .ok (.cell u.leaf c)) (hk : u.leaf.shape.nzIndex c = some k) :
    v.Covers vs (u.path ++ [s]) [(i, k)] := by
  refine ⟨fun e he => ?_, ?_⟩
  · cases List.mem_singleton.mp he
    exact ⟨u, hu, Shape.lt_nnz (Shape.nzIndex_eq_some.mp hk)⟩
  · rw [h.laid.nonzeroIndices_cell hu hs, hk]
    rfl

theorem mem_leavesUnder (h : v.Staged vs) {e : Nat × Layout.Slot} (he : e ∈ v.layout.leavesUnder p) :
    ∃ u, vs[e.1]? = some u ∧ e.2 = slotOf vs e.1 u := by
  obtain ⟨⟨s, i⟩, hs, rfl⟩ := List.mem_map.mp he
  have hslot : v.layout.slots[i]? = some s := List.mem_zipIdx_iff_getElem?.mp (List.mem_of_mem_filter hs)
  rw [h.laid.getElem?_slots, Option.map_eq_some_iff] at hslot
  obtain ⟨u, hu, hs⟩ := hslot
  exact ⟨u, hu, hs.symm⟩

theorem mem_cellsUnder (h : v.Staged vs) :
    (i, j) ∈ v.cellsUnder p ↔ i ∈ (v.layout.leavesUnder p).map Prod.fst ∧ ∃ x, v.number i j = some x := by
  simp only [cellsUnder, List.mem_flatMap, List.mem_map]
  refine ⟨?_, ?_⟩
  · rintro ⟨e, he, j', hj, heq⟩
    cases heq
    obtain ⟨u, hu, hslot⟩ := h.mem_leavesUnder he
    rw [hslot, List.mem_range] at hj
    exact ⟨⟨e, he, rfl⟩, (h.exists_number hu).mpr hj⟩
  · rintro ⟨⟨e, he, rfl⟩, hx⟩
    obtain ⟨u, hu, hslot⟩ := h.mem_leavesUnder he
    refine ⟨e, he, j, ?_, rfl⟩
    rw [hslot, List.mem_range]
    exact (h.exists_number hu).mp hx

theorem covers_subtree (h : v.Staged vs) {m : Node α} (hp : v.registry.locate p = .ok m.place) :
    v.Covers vs p (v.cellsUnder p) := by
  refine ⟨fun (i, j) hij => ?_, ?_⟩
  · obtain ⟨hi, hx⟩ := h.mem_cellsUnder.mp hij
    obtain ⟨e, he, rfl⟩ := List.mem_map.mp hi
    obtain ⟨u, hu, -⟩ := h.mem_leavesUnder he
    exact ⟨u, hu, (h.exists_number hu).mp hx⟩
  · rw [h.laid.nonzeroIndices_node hp, ← Layout.map_snd_leavesUnder, List.flatMap_map, cellsUnder, List.map_flatMap]
    refine congrArg Except.ok (List.flatMap_congr fun e he => ?_)
    obtain ⟨u, -, hslot⟩ := h.mem_leavesUnder he
    rw [hslot, Layout.Slot.nonzeroRange, List.range'_eq_map_range, List.map_map]
    rfl

theorem overwrites_visit (h : v.Staged vs) (hu : vs[i]? = some u) {xs : List Binary64}
    (hlength : xs.length = u.leaf.shape.nnz) (hxs : ∀ n, n < xs.length → supply n = xs[n]?) :
    v.Overwrites (v.setBuffer i xs) ((List.range u.leaf.shape.nnz).map fun j => (i, j)) supply := by
  refine ⟨fun i' j hnot => ?_, fun n i' j hn => ?_⟩
  · by_cases hi : i = i'
    · subst hi
      have hj : u.leaf.shape.nnz ≤ j := by
        by_contra hj
        exact hnot (List.mem_map.mpr ⟨j, List.mem_range.mpr (Nat.lt_of_not_le hj), rfl⟩)
      rw [number_setBuffer_self (h.lt_buffers hu), List.getElem?_eq_none (hlength ▸ hj), h.number_eq_none hu hj]
    · exact number_setBuffer_ne hi
  · rw [List.getElem?_map, Option.map_eq_some_iff] at hn
    obtain ⟨j', hj', heq⟩ := hn
    cases heq
    obtain ⟨hn, rfl⟩ := List.getElem?_eq_some_iff.mp hj'
    rw [List.length_range, ← hlength] at hn
    rw [List.getElem_range, number_setBuffer_self (h.lt_buffers hu), hxs n hn]
    exact ⟨_, List.getElem?_eq_getElem hn, List.getElem?_eq_getElem hn⟩

theorem overwrites_cell (h : v.Staged vs) (hu : vs[i]? = some u) {k : Nat} (hk : k < u.leaf.shape.nnz) {x : Binary64}
    (hx : supply 0 = some x) : v.Overwrites (v.mapBuffer i (·.set k x)) [(i, k)] supply := by
  obtain ⟨xs, hxs, hlength⟩ := h.exists_buffer hu
  refine ⟨fun i' j hnot => ?_, fun n i' j hn => ?_⟩
  · by_cases hi : i = i'
    · subst hi
      have hj : k ≠ j := fun hkj => hnot (hkj ▸ List.mem_singleton_self _)
      rw [number_mapBuffer_self hxs, List.getElem?_set_ne hj, number_eq_of_buffer hxs]
    · exact number_mapBuffer_ne hi
  · obtain ⟨hlt, heq⟩ := List.getElem?_eq_some_iff.mp hn
    obtain rfl := Nat.lt_one_iff.mp hlt
    cases heq
    exact ⟨x, hx, by rw [number_mapBuffer_self hxs, List.getElem?_set_self (hlength ▸ hk)]⟩

theorem overwrites_subtree (h : v.Staged vs) {x : Binary64} (hx : ∀ n, supply n = some x) :
    v.Overwrites (v.fillUnder p x) (v.cellsUnder p) supply := by
  refine ⟨fun i j hnot => ?_, fun n i j hn => ?_⟩
  · rw [fillUnder, number_foldl_fill]
    split
    · next hi =>
      cases hj : v.number i j with
      | none => rfl
      | some y => exact absurd (h.mem_cellsUnder.mpr ⟨hi, y, hj⟩) hnot
    · rfl
  · obtain ⟨hi, y, hy⟩ := h.mem_cellsUnder.mp (List.mem_of_getElem? hn)
    refine ⟨x, hx n, ?_⟩
    rw [fillUnder, number_foldl_fill, if_pos hi, hy, Option.map_some]

end Staged

/-- A write changes the numbers of the cells that its path covers, and no others. -/
theorem Effect.overwrites (he : Effect v vs p supply v') (h : v.Staged vs) :
    ∃ cells, v.Covers vs p cells ∧ v.Overwrites v' cells supply := by
  cases he with
  | leaf hu hp hlength hxs => exact ⟨_, hp ▸ h.covers_visit hu, h.overwrites_visit hu hlength hxs⟩
  | cell hu hp hs hk hx =>
    exact ⟨_, hp ▸ h.covers_cell hu hs hk, h.overwrites_cell hu (Shape.lt_nnz (Shape.nzIndex_eq_some.mp hk)) hx⟩
  | subtree hm hp hx => exact ⟨_, h.covers_subtree hp, h.overwrites_subtree hx⟩

/-- A write changes just the numbers that the registry counts under its path, each to the number that is meant for
it. -/
theorem write_frame {r : Registry α} (hr : r.Reachable) {v v' : Valuation α} (hv : Reachable r v) {w : Write}
    (hw : v.write w = .ok v') :
    ∃ indices, r.nonzeroIndices w.path = .ok indices ∧ v'.flattenNonzero.length = v.flattenNonzero.length ∧
      (∀ k, k ∉ indices → v'.flattenNonzero[k]? = v.flattenNonzero[k]?) ∧
      ∀ n k, indices[n]? = some k → ∃ x, w.supply r n = some x ∧ v'.flattenNonzero[k]? = some x := by
  obtain ⟨vs, h, rfl⟩ := hv.staged hr
  have heffect := h.write_effect hw
  have h' := heffect.staged h
  obtain ⟨cells, hcovers, hover⟩ := heffect.overwrites h
  have hlength : v'.flattenNonzero.length = v.flattenNonzero.length := by
    rw [h'.length_flattenNonzero, h.length_flattenNonzero, h'.laid.total, h.laid.total]
  refine ⟨_, hcovers.indices, hlength, fun k hk => ?_, fun n k hn => ?_⟩
  · -- such a number is the one of another cell, or lies beyond the end
    by_cases hlt : k < v.layout.totalNnz
    · obtain ⟨q, hq⟩ := h.laid.exists_reverseLookup_iff.mpr hlt
      obtain ⟨i, j, u, c, hs, rfl, -⟩ := h.laid.reverseLookup_eq_ok.mp hq
      have hj := Shape.lt_nnz hs.cell
      rw [h'.getElem?_flattenNonzero hs.visit hj, h.getElem?_flattenNonzero hs.visit hj]
      exact hover.kept i j fun hmem => hk (List.mem_map.mpr ⟨_, hmem, rfl⟩)
    · have hnone := Nat.le_of_not_lt hlt
      rw [← h.length_flattenNonzero] at hnone
      rw [List.getElem?_eq_none hnone, List.getElem?_eq_none (hlength ▸ hnone)]
  · rw [List.getElem?_map, Option.map_eq_some_iff] at hn
    obtain ⟨⟨i, j⟩, hcell, rfl⟩ := hn
    obtain ⟨u, hu, hj⟩ := hcovers.inside _ (List.mem_of_getElem? hcell)
    rw [h'.getElem?_flattenNonzero hu hj]
    exact hover.written n i j hcell

theorem write_frame_frozenSample :
    ∃ v v', Reachable frozenSample v ∧ v.write (.fill [.name "y"] ⟨5⟩) = .ok v' ∧
      frozenSample.nonzeroIndices [.name "y"] = .ok [1, 2, 4] ∧
      v'.flattenNonzero[3]? = v.flattenNonzero[3]? ∧ v'.flattenNonzero[4]? = some ⟨5⟩ := by
  have hindices : frozenSample.nonzeroIndices [.name "y"] = .ok [1, 2, 4] := rfl
  obtain ⟨v₀, v', hzeros, hw⟩ : ∃ v₀ v', zeros frozenSample = .ok v₀ ∧
      (v₀.run sampleWrites).write (.fill [.name "y"] ⟨5⟩) = .ok v' := ⟨_, _, rfl, rfl⟩
  have hv : Reachable frozenSample (v₀.run sampleWrites) := ⟨v₀, sampleWrites, hzeros, rfl⟩
  obtain ⟨indices, hI, -, hkept, hwritten⟩ := write_frame reachable_frozenSample hv hw
  cases hI.symm.trans hindices
  obtain ⟨x, hx, hnumber⟩ := hwritten 2 4 rfl
  cases hx
  exact ⟨_, v', hv, hw, hindices, hkept 3 (by decide), hnumber⟩

end QuantityLayout.Valuation
