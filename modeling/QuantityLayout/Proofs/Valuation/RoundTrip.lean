import QuantityLayout.Proofs.Tree.Writable
import QuantityLayout.Proofs.Valuation.InPlace
import QuantityLayout.Proofs.Valuation.Reads
import QuantityLayout.Proofs.Valuation.Snapshot

set_option autoImplicit false

namespace QuantityLayout.Valuation

open Registry

variable {α : Type} {v v' : Valuation α} {vs vs' : List (Visit α)} {i : Nat} {u : Visit α} {s : Snapshot}

theorem stage_zipIdx (v : Valuation α) (n : Nat)
    (hs : ∀ i e, s[i]? = some e → v.checkCount e.path e.values.length = .ok (n + i)) :
    v.stage s = .ok ((s.zipIdx n).map fun e => (e.2, e.1.values)) := by
  induction s generalizing n with
  | nil => rfl
  | cons e s ih =>
    have hrest := ih (n + 1) fun i d hd => by
      rw [hs (i + 1) d hd]
      exact congrArg Except.ok (by omega)
    rw [stage, hs 0 e rfl, hrest]
    rfl

namespace Staged

theorem checkCount_visit (h : v.Staged vs) (hu : vs[i]? = some u) :
    v.checkCount u.path u.leaf.shape.nnz = .ok i := by
  simp [checkCount, bind, Except.bind, h.target_visit hu, slotOf]

theorem getElem?_snapshot (h : v.Staged vs) (i : Nat) :
    v.snapshot[i]? = vs[i]?.map fun u => ⟨u.path, v.buffer i⟩ := by
  rw [snapshot, List.getElem?_zipWith, h.laid.getElem?_slots]
  cases hu : vs[i]? with
  | none => rfl
  | some u =>
    rw [(h.buffer_visit hu).1]
    rfl

theorem map_values_snapshot (h : v.Staged vs) : v.snapshot.map Snapshot.Entry.values = v.buffers := by
  refine List.ext_getElem? fun i => ?_
  rw [List.getElem?_map, h.getElem?_snapshot]
  cases hu : vs[i]? with
  | none =>
    have hlength := h.length_buffers
    have := List.getElem?_eq_none_iff.mp hu
    simp
    omega
  | some u => simp [h.buffer_visit hu]

theorem visits_eq (h : v.Staged vs) (h' : v'.Staged vs') (hr : v'.registry = v.registry) : vs' = vs := by
  have hvisits := h.laid.visits
  have hvisits' := h'.laid.visits
  rw [hr, hvisits] at hvisits'
  exact (Except.ok.inj hvisits').symm

theorem apply_snapshot (h : v.Staged vs) (h' : v'.Staged vs) (hr : v'.registry = v.registry) :
    v'.apply v.snapshot = .ok v := by
  have hstage : v'.stage v.snapshot = .ok (v.snapshot.zipIdx.map fun e => (e.2, e.1.values)) := by
    refine stage_zipIdx v' 0 fun i e he => ?_
    rw [h.getElem?_snapshot, Option.map_eq_some_iff] at he
    obtain ⟨u, hu, rfl⟩ := he
    rw [Nat.zero_add, (h.buffer_visit hu).2]
    exact h'.checkCount_visit hu
  -- one write for each buffer, so nothing is left of what was there
  have hwritten : v'.apply v.snapshot = .ok { v' with buffers := v.buffers } := by
    have hlength : v'.buffers.length = (v.snapshot.map Snapshot.Entry.values).length := by
      rw [h.map_values_snapshot, h.length_buffers, h'.length_buffers]
    rw [apply, hstage, ← h.map_values_snapshot, ← foldl_setBuffer_zipIdx hlength, List.zipIdx_map, List.foldl_map]
    simp [Except.map, List.foldl_map]
  rw [hwritten]
  exact congrArg Except.ok (eq_of_buffers hr rfl)

theorem writable_snapshot (h : v.Staged vs) : ∀ e ∈ v.snapshot, e.path.Writable := by
  intro e he
  obtain ⟨i, hi⟩ := List.getElem?_of_mem he
  rw [h.getElem?_snapshot, Option.map_eq_some_iff] at hi
  obtain ⟨u, hu, rfl⟩ := hi
  have hlocated := h.laid.located u (List.mem_of_getElem? hu)
  exact Node.writable_walk h.laid.root (locate_eq_ok.mp hlocated)

theorem values_mem_buffers (h : v.Staged vs) {e : Snapshot.Entry} (he : e ∈ v.snapshot) : e.values ∈ v.buffers := by
  rw [← h.map_values_snapshot]
  exact List.mem_map_of_mem he

theorem readable_snapshot (h : v.Staged vs) (hnumbers : ∀ xs ∈ v.buffers, ∀ x ∈ xs, x.Restored) :
    ∀ e ∈ v.snapshot, e.Readable :=
  fun e he => ⟨h.writable_snapshot e he, hnumbers _ (h.values_mem_buffers he)⟩

end Staged

/-- What is saved of the numbers of a frozen registry is loaded bit for bit, if each number is finite and is read back
from its own text. -/
theorem load_save {r : Registry α} (hr : r.Reachable) {v v' : Valuation α} (hv : Reachable r v) (hv' : Reachable r v')
    (hnumbers : ∀ xs ∈ v.buffers, ∀ x ∈ xs, x.Restored) :
    (InPlace.perform (.load v.save)).run v' = .ok () v ∧ v'.load v.save = .ok v := by
  obtain ⟨vs, h, hregistry⟩ := hv.staged hr
  obtain ⟨vs', h', hregistry'⟩ := hv'.staged hr
  have hsame := hregistry'.trans hregistry.symm
  have hload : v'.load v.save = .ok v := by
    rw [load, save, Snapshot.decode_text (h.readable_snapshot hnumbers)]
    exact Outcome.mapError_eq_ok.mpr (h.apply_snapshot (h.visits_eq h' hsame ▸ h') hsame)
  refine ⟨?_, hload⟩
  rw [InPlace.run_perform h', act, hload]
  rfl

def savedWrites : List Action := [.write (.setNonzeros [.name "y", .index 0] [.oneAndHalf, .tenth])]

theorem restored_savedWrites {v₀ : Valuation Symbol} (h : zeros frozenSample = .ok v₀) :
    ∀ xs ∈ (v₀.run savedWrites).buffers, ∀ x ∈ xs, x.Restored := by
  obtain ⟨hzero, hhalf, htenth⟩ := Binary64.restored_samples
  have hnumbers : ∀ xs ∈ (v₀.run savedWrites).buffers, ∀ x ∈ xs,
      x = .zero ∨ x = .oneAndHalf ∨ x = .tenth := by
    cases h
    decide
  intro xs hxs x hx
  obtain rfl | rfl | rfl := hnumbers xs hxs x hx
  · exact hzero
  · exact hhalf
  · exact htenth

theorem load_save_frozenSample :
    ∃ v v', Reachable frozenSample v ∧ Reachable frozenSample v' ∧ (∀ xs ∈ v.buffers, ∀ x ∈ xs, x.Restored) ∧
      v.nonzeros [.name "y", .index 0] = .ok [.oneAndHalf, .tenth] ∧
      v'.nonzeros [.name "y", .index 0] = .ok [⟨2⟩, ⟨3⟩] ∧ v'.load v.save = .ok v := by
  obtain ⟨v₀, hzeros⟩ : ∃ v₀, zeros frozenSample = .ok v₀ := ⟨_, rfl⟩
  have hv : Reachable frozenSample (v₀.run savedWrites) := ⟨v₀, savedWrites, hzeros, rfl⟩
  have hv' : Reachable frozenSample (v₀.run sampleWrites) := ⟨v₀, sampleWrites, hzeros, rfl⟩
  have hnumbers := restored_savedWrites hzeros
  obtain ⟨-, hload⟩ := load_save reachable_frozenSample hv hv' hnumbers
  refine ⟨_, _, hv, hv', hnumbers, ?_, ?_, hload⟩
  · cases hzeros
    rfl
  · cases hzeros
    rfl

end QuantityLayout.Valuation
