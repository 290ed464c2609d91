import QuantityLayout.Proofs.Layout.Json
import QuantityLayout.Valuation.Snapshot

set_option autoImplicit false

namespace QuantityLayout

open Json

/-- The number is finite, and its text is read as the same bits. -/
structure Binary64.Restored (x : Binary64) : Prop where
  finite : x.isFinite
  text : decode Decoder.binary64 ((Value.ofBinary64 x).render .pretty) = .ok x

theorem Binary64.restored_iff {x : Binary64} :
    x.Restored ↔ x.isFinite ∧ Decoder.binary64 (.ofBinary64 x) = .ok x := by
  rw [← decode_render_iff (Value.standard_ofBinary64 x)]
  exact ⟨fun h => ⟨h.finite, h.text⟩, fun h => ⟨h.1, h.2⟩⟩

theorem Binary64.restored_of_number {x : Binary64} {n : Number} (hx : x.isFinite) (hn : Number.ofBinary64? x = some n)
    (hread : n.toBinary64? = some x) : x.Restored := by
  refine restored_iff.mpr ⟨hx, ?_⟩
  rw [Value.ofBinary64, hn]
  simp [Decoder.binary64, hread]

def Binary64.oneAndHalf : Binary64 := ⟨0x3FF8000000000000⟩

def Binary64.tenth : Binary64 := ⟨0x3FB999999999999A⟩

theorem Binary64.restored_samples : zero.Restored ∧ oneAndHalf.Restored ∧ tenth.Restored := by
  refine ⟨?_, ?_, ?_⟩
  · refine restored_of_number (n := ⟨false, ['0'], ['0'], none⟩) (by decide) (by decide) ?_
    rw [Number.toBinary64?_point false rfl rfl (by decide) (by decide)]
    decide +kernel
  · refine restored_of_number (n := ⟨false, ['1'], ['5'], none⟩) (by decide) (by decide +kernel) ?_
    rw [Number.toBinary64?_point false rfl rfl (by decide) (by decide)]
    decide +kernel
  · refine restored_of_number (n := ⟨false, ['0'], ['1'], none⟩) (by decide) (by decide +kernel) ?_
    rw [Number.toBinary64?_point false rfl rfl (by decide) (by decide)]
    decide +kernel

namespace Snapshot

structure Entry.Readable (e : Entry) : Prop where
  writable : e.path.Writable
  restored : ∀ x ∈ e.values, x.Restored

theorem Entry.ofJson_of_writable {e : Entry} (hpath : e.path.Writable) :
    Entry.ofJson e.toJson
      = (Decoder.list Decoder.binary64 (.list (e.values.map .ofBinary64))).map fun xs => ⟨e.path, xs⟩ := by
  cases hvalues : Decoder.list Decoder.binary64 (.list (e.values.map .ofBinary64)) <;>
    simp [ofJson, toJson, Value.ofFields, Decoder.record, Decoder.members, Fields.all, Fields.entry, bind, Except.bind,
      Path.ofJson_toJson hpath, hvalues, Except.map]

theorem Entry.ofJson_toJson {e : Entry} (h : e.Readable) : Entry.ofJson e.toJson = .ok e := by
  have hvalues : Decoder.list Decoder.binary64 (.list (e.values.map .ofBinary64)) = .ok e.values :=
    Decoder.list_map fun x hx => (Binary64.restored_iff.mp (h.restored x hx)).2
  rw [ofJson_of_writable h.writable, hvalues]
  rfl

theorem Entry.standard_toJson (e : Entry) : e.toJson.Standard := by
  refine Value.standard_ofFields fun f hf => ?_
  rcases List.mem_pair.mp hf with rfl | rfl
  · exact Value.standard_ofText _
  · exact Value.standard_map fun x _ => Value.standard_ofBinary64 x

theorem standard_toJson (s : Snapshot) : (toJson s).Standard := Value.standard_map fun e _ => e.standard_toJson

theorem decode_text {s : Snapshot} (h : ∀ e ∈ s, e.Readable) :
    decode ofJson ((toJson s).render .pretty) = .ok s :=
  decode_render (standard_toJson s) (Decoder.list_map fun e he => Entry.ofJson_toJson (h e he))

end Snapshot
end QuantityLayout
