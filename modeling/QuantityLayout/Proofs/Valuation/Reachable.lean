import QuantityLayout.Proofs.Valuation.Effect

set_option autoImplicit false

namespace QuantityLayout.Valuation

open Registry

variable {α : Type} {r : Registry α} {v v' : Valuation α} {vs : List (Visit α)} {p : Path}

theorem registry_foldl {β : Type} {f : Valuation α → β → Valuation α} (hf : ∀ v b, (f v b).registry = v.registry)
    (bs : List β) : (bs.foldl f v).registry = v.registry := by
  induction bs generalizing v with
  | nil => rfl
  | cons b bs ih => exact ih.trans (hf v b)

theorem Effect.registry {supply : Nat → Option Binary64} (he : Effect v vs p supply v') :
    v'.registry = v.registry := by
  cases he with
  | leaf | cell => rfl
  | subtree => exact registry_foldl (f := fun v (e : Nat × Layout.Slot) => v.mapBuffer e.1 _) (fun _ _ => rfl) _

theorem zeros_eq_ok (hv : zeros r = .ok v) : v.registry = r ∧ r.layout = .ok v.layout ∧
    v.buffers = v.layout.slots.map fun s => List.replicate s.shape.nnz .zero := by
  unfold zeros at hv
  split at hv
  · next hl =>
    cases hv
    exact ⟨rfl, layout_eq_ok.mpr hl, rfl⟩
  · cases hv

theorem staged_zeros (hr : r.Sound) (hv : zeros r = .ok v) : ∃ vs, v.Staged vs ∧ v.registry = r := by
  obtain ⟨hregistry, hl, hbuffers⟩ := zeros_eq_ok hv
  obtain ⟨vs, h⟩ := hr.laid_of_layout hl
  refine ⟨vs, ⟨hregistry.symm ▸ h, ?_⟩, hregistry⟩
  rw [hbuffers, ← h.nnz_slots, List.map_map]
  exact List.map_congr_left fun s _ => List.length_replicate

def stretch (xs : List Binary64) (s : Layout.Slot) : List Binary64 := (xs.drop s.nnzOffset).take s.shape.nnz

theorem length_stretch {i : Nat} {u : Visit α} (hu : vs[i]? = some u) {xs : List Binary64}
    (hlength : xs.length = (vs.map (·.leaf.shape.nnz)).sum) :
    nnzBefore vs i + u.leaf.shape.nnz ≤ xs.length ∧ (stretch xs (slotOf vs i u)).length = u.leaf.shape.nnz := by
  have hfits := nnzBefore_add_le hu
  rw [← hlength] at hfits
  refine ⟨hfits, ?_⟩
  simp only [stretch, slotOf, List.length_take, List.length_drop]
  omega

namespace Staged

theorem loadNonzero (h : v.Staged vs) {xs : List Binary64} (hv : v.loadNonzero xs = .ok v') : v'.Staged vs := by
  unfold Valuation.loadNonzero at hv
  split at hv
  · next hlength =>
    cases hv
    refine ⟨h.laid, List.ext_getElem? fun i => ?_⟩
    rw [List.map_map, List.getElem?_map, List.getElem?_map, h.laid.getElem?_slots]
    cases hu : vs[i]? with
    | none => rfl
    | some u => exact congrArg some (length_stretch hu (hlength.trans h.laid.total)).2
  · cases hv

theorem stage_fits (h : v.Staged vs) {s : Snapshot} {writes : List (Nat × List Binary64)}
    (hs : v.stage s = .ok writes) : ∀ e ∈ writes, ∃ u, vs[e.1]? = some u ∧ e.2.length = u.leaf.shape.nnz := by
  induction s generalizing writes with
  | nil =>
    cases hs
    exact fun _ he => nomatch he
  | cons e s ih =>
    obtain ⟨i, hi, hs⟩ := Outcome.bind_eq_ok.mp hs
    obtain ⟨rest, hrest, hs⟩ := Outcome.bind_eq_ok.mp hs
    cases hs
    obtain ⟨u, hu, -, hcount⟩ := h.checkCount_eq_ok hi
    exact List.forall_mem_cons.mpr ⟨⟨u, hu, hcount⟩, ih hrest⟩

theorem foldl_setBuffer (h : v.Staged vs) {writes : List (Nat × List Binary64)}
    (hw : ∀ e ∈ writes, ∃ u, vs[e.1]? = some u ∧ e.2.length = u.leaf.shape.nnz) :
    (writes.foldl (fun v e => v.setBuffer e.1 e.2) v).Staged vs := by
  induction writes generalizing v with
  | nil => exact h
  | cons e writes ih =>
    obtain ⟨⟨u, hu, hlength⟩, hrest⟩ := List.forall_mem_cons.mp hw
    exact ih (h.setBuffer hu hlength) hrest

theorem reset (h : v.Staged vs) : v.reset.Staged vs := by
  refine h.withBuffers ?_
  rw [List.map_map]
  exact List.map_congr_left fun xs _ => length_fillBuffer .zero xs

theorem act (h : v.Staged vs) {a : Action} (hv : v.act a = .ok v') : v'.Staged vs ∧ v'.registry = v.registry := by
  cases a with
  | write w =>
    have heffect := h.write_effect (Outcome.mapError_eq_ok.mp hv)
    exact ⟨heffect.staged h, heffect.registry⟩
  | loadNonzero xs =>
    have hload := Outcome.mapError_eq_ok.mp hv
    refine ⟨h.loadNonzero hload, ?_⟩
    unfold Valuation.loadNonzero at hload
    split at hload
    · cases hload
      rfl
    · cases hload
  | load text =>
    change v.load text = .ok v' at hv
    unfold Valuation.load at hv
    split at hv
    · cases hv
    · obtain ⟨writes, hwrites, rfl⟩ := Outcome.map_eq_ok.mp (Outcome.mapError_eq_ok.mp hv)
      refine ⟨h.foldl_setBuffer (h.stage_fits hwrites), ?_⟩
      exact registry_foldl (f := fun v (e : Nat × List Binary64) => v.setBuffer e.1 e.2) (fun _ _ => rfl) writes
  | reset =>
    cases hv
    exact ⟨h.reset, rfl⟩

theorem after (h : v.Staged vs) (a : Action) : (v.after a).Staged vs ∧ (v.after a).registry = v.registry := by
  unfold Valuation.after
  split
  · next hv => exact h.act hv
  · exact ⟨h, rfl⟩

theorem run (h : v.Staged vs) (as : List Action) : (v.run as).Staged vs ∧ (v.run as).registry = v.registry := by
  induction as generalizing v with
  | nil => exact ⟨h, rfl⟩
  | cons a as ih =>
    obtain ⟨hstaged, hregistry⟩ := h.after a
    obtain ⟨hrun, hsame⟩ := ih hstaged
    exact ⟨hrun, hsame.trans hregistry⟩

end Staged

theorem Reachable.staged (hr : r.Reachable) (hv : Reachable r v) : ∃ vs, v.Staged vs ∧ v.registry = r := by
  obtain ⟨v₀, as, hzeros, rfl⟩ := hv
  obtain ⟨vs, hstaged, hregistry⟩ := staged_zeros hr.sound hzeros
  obtain ⟨hrun, hsame⟩ := hstaged.run as
  exact ⟨vs, hrun, hsame.trans hregistry⟩

def sampleWrites : List Action :=
  [.write (.setNonzeros [.name "y", .index 0] [⟨2⟩, ⟨3⟩]), .write (.fill [.name "absent"] ⟨9⟩)]

end QuantityLayout.Valuation
