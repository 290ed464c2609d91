import QuantityLayout.Proofs.Json.Range
import QuantityLayout.Proofs.Valuation.RoundTrip

set_option autoImplicit false

namespace QuantityLayout

open Json

namespace Binary64

variable {x : Binary64}

def nan : Binary64 := ⟨0x7FF8000000000000⟩

/-- The number that is read from the text of a number. What is not finite has no text. -/
def reread? (x : Binary64) : Option Binary64 := (Number.ofBinary64? x).bind Number.toBinary64?

def reread (x : Binary64) : Binary64 := x.reread?.getD .zero

theorem exists_text (h : x.isFinite) : ∃ n, Number.ofBinary64? x = some n ∧ n.toBinary64? = some x.reread := by
  obtain ⟨n, y, hn, hy⟩ := Number.exists_reread h
  have hread : x.reread = y := by rw [reread, reread?, hn, Option.bind_some, hy, Option.getD_some]
  exact ⟨n, hn, hread ▸ hy⟩

theorem reread?_of_isFinite (h : x.isFinite) : x.reread? = some x.reread := by
  obtain ⟨n, hn, hread⟩ := exists_text h
  rw [reread?, hn, Option.bind_some, hread]

theorem decode_of_isFinite (h : x.isFinite) : Decoder.binary64 (.ofBinary64 x) = .ok x.reread := by
  obtain ⟨n, hn, hread⟩ := exists_text h
  rw [Value.ofBinary64, hn, Decoder.binary64, hread]

theorem ofBinary64_of_not_isFinite (h : ¬ x.isFinite) : Value.ofBinary64 x = .null := by
  have hnone : Number.ofBinary64? x = none := by simp [Number.ofBinary64?, h]
  rw [Value.ofBinary64, hnone]

theorem decode_of_not_isFinite (h : ¬ x.isFinite) : Decoder.binary64 (.ofBinary64 x) = .error .form := by
  rw [ofBinary64_of_not_isFinite h]
  rfl

theorem isPlain_ofBinary64 (x : Binary64) (depth : Nat) : (Value.ofBinary64 x).isPlain depth := by
  by_cases h : x.isFinite
  · obtain ⟨n, hn, hread⟩ := exists_text h
    rw [Value.ofBinary64, hn, Value.isPlain, hread]
    rfl
  · rw [ofBinary64_of_not_isFinite h, Value.isPlain]

end Binary64

namespace Snapshot

variable {s : Snapshot} {e : Entry}

def Entry.Finite (e : Entry) : Prop := ∀ x ∈ e.values, x.isFinite

instance (e : Entry) : Decidable e.Finite := inferInstanceAs (Decidable (∀ x ∈ e.values, x.isFinite))

def Entry.reread (e : Entry) : Entry := ⟨e.path, e.values.map Binary64.reread⟩

theorem Entry.ofJson_of_finite (hpath : e.path.Writable) (h : e.Finite) : Entry.ofJson e.toJson = .ok e.reread := by
  have hvalues : Decoder.list Decoder.binary64 (.list (e.values.map .ofBinary64)) = .ok (e.values.map Binary64.reread) :=
    Decoder.all_map_eq_ok fun x hx => Binary64.decode_of_isFinite (h x hx)
  rw [ofJson_of_writable hpath, hvalues]
  rfl

theorem Entry.ofJson_of_not_finite (hpath : e.path.Writable) (h : ¬ e.Finite) : Entry.ofJson e.toJson = .error .form := by
  simp only [Finite, not_forall] at h
  obtain ⟨x, hx, hbad⟩ := h
  have hvalues : Decoder.list Decoder.binary64 (.list (e.values.map .ofBinary64)) = .error .form := by
    refine Decoder.all_map_eq_error (fun y _ => ?_) ⟨x, hx, Binary64.decode_of_not_isFinite hbad⟩
    by_cases hy : y.isFinite
    · exact .inl ⟨_, Binary64.decode_of_isFinite hy⟩
    · exact .inr (Binary64.decode_of_not_isFinite hy)
  rw [ofJson_of_writable hpath, hvalues]
  rfl

theorem Entry.isPlain_toJson (e : Entry) (depth : Nat) : e.toJson.isPlain (depth + 2) := by
  have hvalues : (Value.list (e.values.map .ofBinary64)).isPlain (depth + 1) :=
    Value.isPlain_map fun x _ => Binary64.isPlain_ofBinary64 x depth
  rw [Value.isPlain] at hvalues
  simp [toJson, Value.ofFields, Value.isPlain, Value.membersPlain, Path.toJson, Value.ofText, hvalues]

theorem decode_of_finite (hpaths : ∀ e ∈ s, e.path.Writable) (h : ∀ e ∈ s, e.Finite) :
    decode ofJson ((toJson s).render .pretty) = .ok (s.map Entry.reread) :=
  decode_render (standard_toJson s) (Decoder.all_map_eq_ok fun e he => Entry.ofJson_of_finite (hpaths e he) (h e he))

theorem decode_of_not_finite (hpaths : ∀ e ∈ s, e.path.Writable) (h : ¬ ∀ e ∈ s, e.Finite) :
    decode ofJson ((toJson s).render .pretty) = .error (.unfit .form) := by
  simp only [not_forall] at h
  obtain ⟨e, he, hbad⟩ := h
  refine decode_render_error (standard_toJson s) (Value.isPlain_map fun d _ => d.isPlain_toJson 124) ?_
  refine Decoder.all_map_eq_error (fun d hd => ?_) ⟨e, he, Entry.ofJson_of_not_finite (hpaths e he) hbad⟩
  by_cases hfinite : d.Finite
  · exact .inl ⟨_, Entry.ofJson_of_finite (hpaths d hd) hfinite⟩
  · exact .inr (Entry.ofJson_of_not_finite (hpaths d hd) hfinite)

end Snapshot

namespace Valuation

open Registry

variable {α : Type} {v v' : Valuation α} {vs : List (Visit α)}

def Finite (v : Valuation α) : Prop := ∀ xs ∈ v.buffers, ∀ x ∈ xs, x.isFinite

instance (v : Valuation α) : Decidable v.Finite := inferInstanceAs (Decidable (∀ xs ∈ v.buffers, ∀ x ∈ xs, x.isFinite))

def reread (v : Valuation α) : Valuation α := { v with buffers := v.buffers.map (List.map Binary64.reread) }

theorem snapshot_reread (v : Valuation α) : v.reread.snapshot = v.snapshot.map Snapshot.Entry.reread := by
  rw [snapshot, snapshot, List.map_zipWith, reread, List.zipWith_map_right]
  rfl

namespace Staged

theorem reread (h : v.Staged vs) : v.reread.Staged vs := by
  refine h.withBuffers ?_
  rw [List.map_map]
  exact List.map_congr_left fun xs _ => List.length_map Binary64.reread

theorem finite_iff (h : v.Staged vs) : v.Finite ↔ ∀ e ∈ v.snapshot, e.Finite := by
  rw [Finite, ← h.map_values_snapshot, List.forall_mem_map]
  rfl

theorem load_of_finite (h : v.Staged vs) (h' : v'.Staged vs) (hr : v'.registry = v.registry) (hfinite : v.Finite) :
    v'.load v.save = .ok v.reread := by
  have hdecode := Snapshot.decode_of_finite h.writable_snapshot (h.finite_iff.mp hfinite)
  rw [← snapshot_reread] at hdecode
  rw [load, save, hdecode]
  exact Outcome.mapError_eq_ok.mpr (h.reread.apply_snapshot h' hr)

theorem load_of_not_finite (h : v.Staged vs) (hbad : ¬ v.Finite) : v'.load v.save = .error (.json (.unfit .form)) := by
  rw [h.finite_iff] at hbad
  rw [load, save, Snapshot.decode_of_not_finite h.writable_snapshot hbad]

end Staged

theorem map_reread? (h : v.Finite) : v.reread.buffers.map (List.map some) = v.buffers.map (List.map Binary64.reread?) := by
  rw [reread, List.map_map]
  refine List.map_congr_left fun xs hxs => ?_
  rw [Function.comp_apply, List.map_map]
  exact List.map_congr_left fun x hx => (Binary64.reread?_of_isFinite (h xs hxs x hx)).symm

/-- What is saved is accepted again if and only if all numbers are finite, each then being the one that its text is read
as. Otherwise nothing is written. -/
theorem load_save_iff_finite {r : Registry α} (hr : r.Reachable) (hv : Reachable r v) (hv' : Reachable r v') :
    (v.Finite → ∃ w, (InPlace.perform (.load v.save)).run v' = .ok () w ∧
      w.buffers.map (List.map some) = v.buffers.map (List.map Binary64.reread?)) ∧
    (¬ v.Finite → (InPlace.perform (.load v.save)).run v' = .error (.refused (.json (.unfit .form))) v') := by
  obtain ⟨vs, h, hregistry⟩ := hv.staged hr
  obtain ⟨vs', h', hregistry'⟩ := hv'.staged hr
  have hsame := hregistry'.trans hregistry.symm
  refine ⟨fun hfinite => ⟨v.reread, ?_, map_reread? hfinite⟩, fun hbad => ?_⟩
  · rw [InPlace.run_perform h', act, h.load_of_finite (h.visits_eq h' hsame ▸ h') hsame hfinite]
    rfl
  · rw [InPlace.run_perform h', act, h.load_of_not_finite hbad]
    rfl

/-- The numbers of the sample are loaded again as long as they are finite, and refused once one of them is not. -/
theorem load_save_iff_finite_frozenSample :
    ∃ v v', Reachable frozenSample v ∧ Reachable frozenSample v' ∧ v.Finite ∧ ¬ v'.Finite ∧
      (∃ w, (InPlace.perform (.load v.save)).run v' = .ok () w) ∧
      (InPlace.perform (.load v'.save)).run v = .error (.refused (.json (.unfit .form))) v := by
  obtain ⟨v₀, hzeros⟩ : ∃ v₀, zeros frozenSample = .ok v₀ := ⟨_, rfl⟩
  have hv : Reachable frozenSample (v₀.run sampleWrites) := ⟨v₀, sampleWrites, hzeros, rfl⟩
  have hv' : Reachable frozenSample (v₀.run [.write (.setScalar [.name "w"] .nan)]) := ⟨v₀, _, hzeros, rfl⟩
  have hfinite : (v₀.run sampleWrites).Finite := by
    cases hzeros
    decide
  have hbad : ¬ (v₀.run [.write (.setScalar [.name "w"] .nan)]).Finite := by
    cases hzeros
    decide
  obtain ⟨w, haccepted, -⟩ := (load_save_iff_finite reachable_frozenSample hv hv').1 hfinite
  exact ⟨_, _, hv, hv', hfinite, hbad, ⟨w, haccepted⟩, (load_save_iff_finite reachable_frozenSample hv' hv).2 hbad⟩

/-- One number that is not finite, and the text that was saved is refused where it comes from. -/
theorem load_refuses_saved_nan :
    ∃ v, Reachable frozenSample v ∧ v.nonzeros [.name "w"] = .ok [.nan] ∧
      ∀ w, (InPlace.perform (.load v.save)).run v ≠ .ok () w := by
  obtain ⟨v₀, hzeros⟩ : ∃ v₀, zeros frozenSample = .ok v₀ := ⟨_, rfl⟩
  have hv : Reachable frozenSample (v₀.run [.write (.setScalar [.name "w"] .nan)]) := ⟨v₀, _, hzeros, rfl⟩
  have hbad : ¬ (v₀.run [.write (.setScalar [.name "w"] .nan)]).Finite := by
    cases hzeros
    decide
  obtain ⟨vs, h, -⟩ := hv.staged reachable_frozenSample
  refine ⟨_, hv, ?_, fun w hrun => ?_⟩
  · cases hzeros
    rfl
  · rw [InPlace.run_perform h, act, h.load_of_not_finite hbad] at hrun
    cases hrun

end Valuation
end QuantityLayout
