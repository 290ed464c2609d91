import QuantityLayout.Proofs.Registry.Contiguous
import QuantityLayout.Valuation.Run

set_option autoImplicit false

namespace QuantityLayout.Valuation

open Registry

variable {α : Type} {v : Valuation α} {vs : List (Visit α)} {i : Nat} {u : Visit α} {p : Path}

theorem buffer_setBuffer_self {xs : List Binary64} (hi : i < v.buffers.length) : (v.setBuffer i xs).buffer i = xs := by
  simp [buffer, setBuffer, hi]

theorem buffer_setBuffer_ne {xs : List Binary64} {j : Nat} (hij : i ≠ j) : (v.setBuffer i xs).buffer j = v.buffer j := by
  simp [buffer, setBuffer, hij]

structure Staged (v : Valuation α) (vs : List (Visit α)) : Prop where
  laid : v.registry.Laid vs v.layout
  fits : v.buffers.map List.length = vs.map fun u => u.leaf.shape.nnz

namespace Staged

theorem withBuffers (h : v.Staged vs) {bs : List (List Binary64)}
    (hbs : bs.map List.length = v.buffers.map List.length) : ({ v with buffers := bs } : Valuation α).Staged vs :=
  ⟨h.laid, hbs.trans h.fits⟩

theorem exists_buffer (h : v.Staged vs) (hu : vs[i]? = some u) :
    ∃ xs, v.buffers[i]? = some xs ∧ xs.length = u.leaf.shape.nnz := by
  have hlength := congrArg (·[i]?) h.fits
  simp only [List.getElem?_map, hu, Option.map_some] at hlength
  exact Option.map_eq_some_iff.mp hlength

theorem length_buffers (h : v.Staged vs) : v.buffers.length = vs.length := by
  simpa using congrArg List.length h.fits

theorem setBuffer (h : v.Staged vs) (hu : vs[i]? = some u) {xs : List Binary64}
    (hxs : xs.length = u.leaf.shape.nnz) : (v.setBuffer i xs).Staged vs := by
  obtain ⟨ys, hys, hlength⟩ := h.exists_buffer hu
  obtain ⟨hi, hy⟩ := List.getElem?_eq_some_iff.mp hys
  refine h.withBuffers ?_
  rw [List.map_set, hxs, ← hlength, ← hy, ← List.getElem_map List.length (h := by rwa [List.length_map]),
    List.set_getElem_self]

theorem mapBuffer (h : v.Staged vs) {f : List Binary64 → List Binary64} (hf : ∀ xs, (f xs).length = xs.length) :
    (v.mapBuffer i f).Staged vs := by
  refine h.withBuffers (List.ext_getElem? fun j => ?_)
  rw [List.getElem?_map, List.getElem?_map, List.getElem?_modify]
  by_cases hij : i = j
  · simp [hij, Function.comp_def, hf]
  · simp [hij]

theorem foldl_mapBuffer (h : v.Staged vs) {f : List Binary64 → List Binary64} (hf : ∀ xs, (f xs).length = xs.length)
    (es : List (Nat × Layout.Slot)) : (es.foldl (fun v e => v.mapBuffer e.1 f) v).Staged vs := by
  induction es generalizing v with
  | nil => exact h
  | cons e es ih => exact ih (h.mapBuffer hf)

theorem leafSlot_visit (h : v.Staged vs) (hu : vs[i]? = some u) : v.leafSlot u.path = .ok (i, slotOf vs i u) := by
  have hslot := h.laid.slot_visit hu
  have hpaths := h.laid.paths_slots ▸ h.laid.nodup
  have hindex : v.layout.indexOf u.path = some i := (Layout.indexOf_eq_some hpaths).mpr ⟨_, hslot, rfl⟩
  have hfind : v.layout.slot? u.path = some (slotOf vs i u) := Layout.getElem?_slot? hpaths hslot
  rw [leafSlot, hindex, hfind]

theorem target_visit (h : v.Staged vs) (hu : vs[i]? = some u) : v.target u.path = .ok (.leaf i (slotOf vs i u)) := by
  simp only [target, bind, Except.bind, h.laid.located u (List.mem_of_getElem? hu), h.leafSlot_visit hu]

theorem target_cell (h : v.Staged vs) (hu : vs[i]? = some u) {s : Step} {c : Cell}
    (hs : (Place.leaf u.leaf).step s = .ok (.cell u.leaf c)) :
    v.target (u.path ++ [s]) = .ok (.cell i (slotOf vs i u) c) := by
  simp only [target, bind, Except.bind, h.laid.locate_cell hu hs, List.dropLast_concat, h.leafSlot_visit hu]

theorem target_subtree {m : Node α} (hm : ∀ f, m ≠ .leaf f) (hp : v.registry.locate p = .ok m.place) :
    v.target p = .ok .subtree := by
  cases m with
  | leaf f => exact absurd rfl (hm f)
  | list ns | group g => simp only [target, bind, Except.bind, hp, Node.place]

theorem target_cases (h : v.Staged vs) {t : Target} (ht : v.target p = .ok t) :
    (∃ i u, vs[i]? = some u ∧ p = u.path ∧ t = .leaf i (slotOf vs i u)) ∨
      (∃ i u s c, vs[i]? = some u ∧ p = u.path ++ [s] ∧ (Place.leaf u.leaf).step s = .ok (.cell u.leaf c) ∧
        u.leaf.shape.Inside c ∧ t = .cell i (slotOf vs i u) c) ∨
      ∃ m : Node α, (∀ f, m ≠ .leaf f) ∧ v.registry.locate p = .ok m.place ∧ t = .subtree := by
  obtain ⟨x, hx, -⟩ := Outcome.bind_eq_ok.mp ht
  rcases x.node_or_cell with ⟨m, rfl⟩ | ⟨f, c, rfl⟩
  · cases m with
    | leaf f =>
      obtain ⟨i, hu⟩ := h.laid.exists_visit hx
      rw [h.target_visit hu] at ht
      exact .inl ⟨i, _, hu, rfl, (Except.ok.inj ht).symm⟩
    | list ns | group g =>
      rw [target_subtree (by simp) hx] at ht
      exact .inr (.inr ⟨_, by simp, hx, (Except.ok.inj ht).symm⟩)
  · obtain ⟨i, u, s, hu, rfl, rfl, hc, hs⟩ := h.laid.locate_eq_cell hx
    rw [h.target_cell hu hs] at ht
    exact .inr (.inl ⟨i, u, s, c, hu, rfl, hs, hc, (Except.ok.inj ht).symm⟩)

end Staged

end QuantityLayout.Valuation
