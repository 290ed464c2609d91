import QuantityLayout.Proofs.Valuation.InPlace

set_option autoImplicit false

namespace QuantityLayout.Valuation

open Registry

variable {α : Type} {v v' : Valuation α} {vs : List (Visit α)} {xs : List Binary64}

/-- Stretches of slots from a place on are what the vector has from there on, as far as the slots reach. -/
theorem flatten_stretches (numel nnz : Nat) (ls : List (Path × Shape)) (xs : List Binary64) :
    ((Layout.place numel nnz ls).map (stretch xs)).flatten = (xs.drop nnz).take (ls.map (·.2.nnz)).sum := by
  induction ls generalizing numel nnz with
  | nil => simp [Layout.place]
  | cons e ls ih =>
    rw [Layout.place, List.map_cons, List.flatten_cons, ih, List.map_cons, List.sum_cons, List.take_add, List.drop_drop]
    rfl

theorem loadNonzero_eq_ok : v.loadNonzero xs = .ok v' ↔
    xs.length = v.layout.totalNnz ∧ v' = { v with buffers := v.layout.slots.map (stretch xs) } := by
  rw [loadNonzero]
  split
  · next hlength =>
    rw [Except.ok.injEq, eq_comm]
    exact (and_iff_right hlength).symm
  · next hlength => simp [hlength]

theorem exists_loadNonzero_iff : (∃ v', v.loadNonzero xs = .ok v') ↔ xs.length = v.layout.totalNnz := by
  simp [loadNonzero_eq_ok]

theorem loadNonzero_refused (hlength : xs.length ≠ v.layout.totalNnz) :
    v.loadNonzero xs = .error (.misfit [] (.count v.layout.totalNnz xs.length)) := if_neg hlength

namespace Staged

theorem flattenNonzero_load (h : v.Staged vs) (hload : v.loadNonzero xs = .ok v') : v'.flattenNonzero = xs := by
  obtain ⟨hlength, rfl⟩ := loadNonzero_eq_ok.mp hload
  have hsum : ((listed vs).map (·.2.nnz)).sum = xs.length := by
    rw [hlength, h.laid.total, listed, List.map_map]
    rfl
  rw [flattenNonzero, h.laid.slots, flatten_stretches, hsum, List.drop_zero, List.take_length]

/-- The numbers on a registry are known by their vector. -/
theorem eq_of_flattenNonzero (h : v.Staged vs) (h' : v'.Staged vs) (hr : v'.registry = v.registry)
    (hflat : v'.flattenNonzero = v.flattenNonzero) : v' = v :=
  eq_of_buffers hr (List.eq_iff_flatten_eq.mpr ⟨hflat, h'.fits.trans h.fits.symm⟩)

theorem load_flattenNonzero (h : v.Staged vs) : v.loadNonzero v.flattenNonzero = .ok v := by
  have hload : v.loadNonzero v.flattenNonzero = .ok _ := loadNonzero_eq_ok.mpr ⟨h.length_flattenNonzero, rfl⟩
  rw [hload]
  exact congrArg Except.ok (h.eq_of_flattenNonzero (h.loadNonzero hload) rfl (h.flattenNonzero_load hload))

end Staged

/-- A vector can be loaded if and only if it has one number for each present cell. It is what the numbers then make up,
and to load what they make up changes none. -/
theorem load_inverse_of_flatten {r : Registry α} (hr : r.Reachable) {v : Valuation α} (hv : Reachable r v) :
    ∃ l, r.layout = .ok l ∧
      (∀ xs, (∃ v', (InPlace.perform (.loadNonzero xs)).run v = .ok () v') ↔ xs.length = l.totalNnz) ∧
      (∀ xs, xs.length ≠ l.totalNnz → (InPlace.perform (.loadNonzero xs)).run v
        = .error (.refused (.error (.misfit [] (.count l.totalNnz xs.length)))) v) ∧
      (∀ xs v', (InPlace.perform (.loadNonzero xs)).run v = .ok () v' → v'.flattenNonzero = xs) ∧
      (InPlace.perform (.loadNonzero v.flattenNonzero)).run v = .ok () v := by
  obtain ⟨vs, h, rfl⟩ := hv.staged hr
  have hrun {xs : List Binary64} {v' : Valuation α} :
      (InPlace.perform (.loadNonzero xs)).run v = .ok () v' ↔ v.loadNonzero xs = .ok v' := by
    rw [InPlace.run_perform_eq_ok h, act, Outcome.mapError_eq_ok]
  refine ⟨v.layout, h.laid.layout, fun xs => ?_, fun xs hlength => ?_, fun xs v' hv' => ?_, ?_⟩
  · simp only [hrun, exists_loadNonzero_iff]
  · rw [InPlace.run_perform h, act, loadNonzero_refused hlength]
    rfl
  · exact h.flattenNonzero_load (hrun.mp hv')
  · exact hrun.mpr h.load_flattenNonzero

theorem load_inverse_of_flatten_frozenSample :
    ∃ v v', Reachable frozenSample v ∧
      (InPlace.perform (.loadNonzero [⟨1⟩, ⟨2⟩, ⟨3⟩, ⟨4⟩, ⟨5⟩, ⟨6⟩, ⟨7⟩])).run v = .ok () v' ∧
      v'.flattenNonzero = [⟨1⟩, ⟨2⟩, ⟨3⟩, ⟨4⟩, ⟨5⟩, ⟨6⟩, ⟨7⟩] ∧
      (∀ w, (InPlace.perform (.loadNonzero [⟨1⟩])).run v ≠ .ok () w) ∧
      (InPlace.perform (.loadNonzero v.flattenNonzero)).run v = .ok () v := by
  obtain ⟨v₀, hzeros⟩ : ∃ v₀, zeros frozenSample = .ok v₀ := ⟨_, rfl⟩
  have hv : Reachable frozenSample (v₀.run sampleWrites) := ⟨v₀, sampleWrites, hzeros, rfl⟩
  obtain ⟨l, hl, hiff, -, hflat, hself⟩ := load_inverse_of_flatten reachable_frozenSample hv
  have htotal : frozenSample.layout.map (·.totalNnz) = .ok 7 := rfl
  rw [hl] at htotal
  have hseven : l.totalNnz = 7 := Except.ok.inj htotal
  obtain ⟨v', hload⟩ := (hiff [⟨1⟩, ⟨2⟩, ⟨3⟩, ⟨4⟩, ⟨5⟩, ⟨6⟩, ⟨7⟩]).mpr hseven.symm
  refine ⟨_, v', hv, hload, hflat _ _ hload, fun w hw => ?_, hself⟩
  have hone := (hiff [⟨1⟩]).mp ⟨w, hw⟩
  rw [hseven] at hone
  cases hone

end QuantityLayout.Valuation
