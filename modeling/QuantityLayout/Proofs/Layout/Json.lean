import QuantityLayout.Layout.Json
import QuantityLayout.Proofs.Json.Decode
import QuantityLayout.Proofs.Layout.Offsets
import QuantityLayout.Proofs.Path.RoundTrip
import QuantityLayout.Proofs.Shape.Cells
import Mathlib.Algebra.Order.BigOperators.Group.List
import Mathlib.Algebra.Order.Group.Nat

set_option autoImplicit false

namespace QuantityLayout

open Json

namespace Path

theorem ofJson_toJson {p : Path} (hp : p.Writable) : ofJson p.toJson = .ok p := by
  simp only [ofJson, toJson, Value.ofText, Decoder.text, bind, Except.bind, parse_render_writable hp]

theorem writable_of_ofJson {v : Value} {p : Path} (h : ofJson v = .ok p) : p.Writable := by
  obtain ⟨text, -, h⟩ := Outcome.bind_eq_ok.mp h
  split at h
  · next hp =>
    cases h
    exact writable_of_parse hp
  · cases h

end Path

namespace Cell

theorem ofJson_toJson {c : Cell} (hrow : c.row < countBound) (hcol : c.col < countBound) : ofJson c.toJson = .ok c := by
  simp only [ofJson, toJson, Decoder.pair, Decoder.count_ofCount hrow, Decoder.count_ofCount hcol, bind, Except.bind]

theorem standard_toJson (c : Cell) : c.toJson.Standard := by
  refine .list fun v hv => ?_
  rcases List.mem_pair.mp hv with rfl | rfl
  · exact Value.standard_ofCount c.row
  · exact Value.standard_ofCount c.col

end Cell

namespace Shape

theorem ofJson_toJson (s : Shape) : ofJson s.toJson = .ok s := by
  have hcells : Decoder.list Cell.ofJson (.list (s.cells.map Cell.toJson)) = .ok s.cells := by
    refine Decoder.list_map fun c hc => Cell.ofJson_toJson ?_ ?_
    · exact Nat.lt_trans (s.inside c hc).1 s.rows_lt
    · exact Nat.lt_trans (s.inside c hc).2 s.cols_lt
  simp [ofJson, toJson, Value.ofFields, Decoder.record, Decoder.members, Fields.all, Fields.shape, bind, Except.bind,
    Decoder.count_ofCount s.rows_lt, Decoder.count_ofCount s.cols_lt, hcells, s.ofCells_cells]

theorem standard_toJson (s : Shape) : s.toJson.Standard := by
  refine Value.standard_ofFields fun f hf => ?_
  simp only [List.mem_cons, List.not_mem_nil, or_false] at hf
  rcases hf with rfl | rfl | rfl
  · exact Value.standard_ofCount s.rows
  · exact Value.standard_ofCount s.cols
  · exact Value.standard_map fun c _ => c.standard_toJson

end Shape

namespace Layout

theorem Slot.ofJson_toJson {s : Slot} (hpath : s.path.Writable) (hnumel : s.numelOffset < countBound)
    (hnnz : s.nnzOffset < countBound) : ofJson s.toJson = .ok s := by
  simp [ofJson, toJson, Value.ofFields, Decoder.record, Decoder.members, Fields.all, Fields.slot, bind, Except.bind,
    Path.ofJson_toJson hpath, Shape.ofJson_toJson, Decoder.count_ofCount hnumel, Decoder.count_ofCount hnnz]

theorem Slot.standard_toJson (s : Slot) : s.toJson.Standard := by
  refine Value.standard_ofFields fun f hf => ?_
  simp only [List.mem_cons, List.not_mem_nil, or_false] at hf
  rcases hf with rfl | rfl | rfl | rfl
  · exact Value.standard_ofText _
  · exact s.shape.standard_toJson
  · exact Value.standard_ofCount _
  · exact Value.standard_ofCount _

theorem standard_toJson (l : Layout) : l.toJson.Standard := by
  refine Value.standard_ofFields fun f hf => ?_
  simp only [List.mem_cons, List.not_mem_nil, or_false] at hf
  rcases hf with rfl | rfl | rfl
  · exact Value.standard_ofCount _
  · exact Value.standard_ofCount _
  · exact Value.standard_map fun s _ => s.standard_toJson

def Fields.unchecked : Fields → Except Complaint Layout
  | ⟨some totalNumel, some totalNnz, some slots⟩ => .ok ⟨slots, totalNumel, totalNnz⟩
  | _ => .error .form

def ofJsonUnchecked : Decoder Layout := Decoder.record Fields.all ⟨none, none, none⟩ Fields.unchecked

/-- The layout as it stands in a text. -/
def loadUnchecked (text : String) : Except Rejection Layout := decode ofJsonUnchecked text

theorem ofJson_eq (v : Value) : ofJson v = ofJsonUnchecked v >>= check := by
  have hfinish : Fields.layout = fun fields => fields.unchecked >>= check := by
    funext ⟨totalNumel, totalNnz, slots⟩
    cases totalNumel <;> cases totalNnz <;> cases slots <;> rfl
  rw [ofJson, hfinish, Decoder.record_bind, ofJsonUnchecked]

structure Readable (l : Layout) : Prop where
  writable : ∀ s ∈ l.slots, s.path.Writable
  offsets : ∀ s ∈ l.slots, s.numelOffset < countBound ∧ s.nnzOffset < countBound
  totals : l.totalNumel < countBound ∧ l.totalNnz < countBound

namespace Readable

variable {l : Layout}

theorem ofJsonUnchecked_toJson (h : l.Readable) : ofJsonUnchecked l.toJson = .ok l := by
  have hslots : Decoder.list Slot.ofJson (.list (l.slots.map Slot.toJson)) = .ok l.slots :=
    Decoder.list_map fun s hs => Slot.ofJson_toJson (h.writable s hs) (h.offsets s hs).1 (h.offsets s hs).2
  simp [ofJsonUnchecked, toJson, Value.ofFields, Decoder.record, Decoder.members, Fields.all, Fields.unchecked, bind,
    Except.bind, Decoder.count_ofCount h.totals.1, Decoder.count_ofCount h.totals.2, hslots]

theorem loadUnchecked_text (h : l.Readable) : loadUnchecked l.save = .ok l :=
  decode_render l.standard_toJson h.ofJsonUnchecked_toJson

end Readable

/-- The layout is the one of its leaves, its paths can be written, and its present cells can be counted. -/
structure Storable (l : Layout) : Prop where
  computed : ofLeaves l.leaves = .ok l
  writable : ∀ s ∈ l.slots, s.path.Writable
  counted : l.totalNnz < countBound

namespace Storable

variable {l : Layout}

theorem fields (h : l.Storable) : l.slots = place 0 0 l.leaves ∧
    l.totalNumel = word (l.leaves.map (·.2.numel)).sum ∧ l.totalNnz = (l.leaves.map (·.2.nnz)).sum := by
  obtain ⟨-, hl⟩ := ofLeaves_eq_ok.mp h.computed
  exact ⟨congrArg Layout.slots hl, congrArg totalNumel hl, congrArg totalNnz hl⟩

theorem paths (h : l.Storable) :
    (l.slots.map (·.path)).Nodup ∧ ∀ s ∈ l.slots, ∀ t ∈ l.slots, ¬ encloses t.path s.path := by
  obtain ⟨hnodup, hapart⟩ := conflict?_eq_none.mp (ofLeaves_eq_ok.mp h.computed).1
  have hpaths : l.leaves.map Prod.fst = l.slots.map (·.path) := List.map_map
  rw [hpaths] at hnodup hapart
  exact ⟨hnodup, fun s hs t ht => hapart _ (List.mem_map_of_mem hs) _ (List.mem_map_of_mem ht)⟩

/-- All cells are counted in 64 bits, and no more present ones stand before a leaf than there are. -/
theorem offsets_lt (h : l.Storable) {s : Slot} (hs : s ∈ l.slots) :
    s.numelOffset < countBound ∧ s.nnzOffset ≤ l.totalNnz := by
  obtain ⟨hslots, -, hnnz⟩ := h.fields
  rw [hslots] at hs
  obtain ⟨i, hi⟩ := List.getElem?_of_mem hs
  rw [getElem?_place countBound_pos, Option.map_eq_some_iff] at hi
  obtain ⟨e, -, rfl⟩ := hi
  have hle : ((l.leaves.take i).map (·.2.nnz)).sum ≤ (l.leaves.map (·.2.nnz)).sum :=
    ((List.take_sublist i l.leaves).map _).sum_le_sum fun _ _ => Nat.zero_le _
  exact ⟨word_lt _, by simpa only [hnnz, Nat.zero_add] using hle⟩

theorem readable (h : l.Storable) : l.Readable := by
  obtain ⟨-, hnumel, -⟩ := h.fields
  refine ⟨h.writable, fun s hs => ?_, hnumel ▸ word_lt _, h.counted⟩
  obtain ⟨hlt, hle⟩ := h.offsets_lt hs
  exact ⟨hlt, Nat.lt_of_le_of_lt hle h.counted⟩

theorem ofJson_toJson (h : l.Storable) : ofJson l.toJson = .ok l := by
  have hcheck : check l = .ok l := by
    simp only [check, h.computed, if_true]
  rw [ofJson_eq, h.readable.ofJsonUnchecked_toJson]
  exact hcheck

/-- A layout is loaded from the text to which it is saved. -/
theorem load_text (h : l.Storable) : load l.save = .ok l := decode_render l.standard_toJson h.ofJson_toJson

end Storable

theorem Slot.writable_of_ofJson {v : Value} {s : Slot} (h : ofJson v = .ok s) : s.path.Writable := by
  have hread : ∀ f ∈ Fields.all, ∀ (s : Fields) v s', (∀ p, s.path = some p → p.Writable) → f.read s v = .ok s' →
      ∀ p, s'.path = some p → p.Writable := by
    simp only [Fields.all, List.forall_mem_cons, Outcome.bind_eq_ok]
    refine ⟨?_, ?_, ?_, ?_, fun _ hf => nomatch hf⟩
    all_goals
      rintro s v s' hs ⟨x, hx, hs'⟩ p hp
      cases hs'
    · cases hp
      exact Path.writable_of_ofJson hx
    all_goals exact hs p hp
  obtain ⟨fields, hpath, hfinish⟩ := Decoder.record_eq_ok (fun _ hp => nomatch hp) hread h
  unfold Fields.slot at hfinish
  split at hfinish
  · cases hfinish
    exact hpath _ rfl
  · cases hfinish

theorem check_eq_ok {read l : Layout} : check read = .ok l ↔ ofLeaves read.leaves = .ok read ∧ l = read := by
  unfold check
  split
  · next h => simp [h]
  · next l' h =>
    by_cases heq : l' = read
    · simp [h, heq, eq_comm]
    · simp [h, heq]

/-- What is loaded is the layout of its leaves, and all that it consists of can be written. -/
theorem storable_of_load {text : String} {l : Layout} (h : load text = .ok l) : l.Storable := by
  obtain ⟨v, -, h⟩ := decode_eq_ok.mp h
  -- the fields come in any sequence, so each reading keeps what the others have found
  have hread : ∀ f ∈ Fields.all, ∀ (s : Fields) v s',
      ((∀ n, s.totalNnz = some n → n < countBound) ∧ ∀ ss, s.slots = some ss → ∀ t ∈ ss, t.path.Writable) →
      f.read s v = .ok s' →
      (∀ n, s'.totalNnz = some n → n < countBound) ∧ ∀ ss, s'.slots = some ss → ∀ t ∈ ss, t.path.Writable := by
    simp only [Fields.all, List.forall_mem_cons, Outcome.bind_eq_ok]
    refine ⟨?_, ?_, ?_, fun _ hf => nomatch hf⟩
    all_goals
      rintro s v s' ⟨hcount, hslots⟩ ⟨x, hx, hs'⟩
      cases hs'
    · exact ⟨hcount, hslots⟩
    · exact ⟨fun n hn => Option.some.inj hn ▸ Decoder.lt_of_count hx, hslots⟩
    · refine ⟨hcount, fun ss hss => ?_⟩
      cases hss
      exact Decoder.forall_mem_of_list (fun _ _ => Slot.writable_of_ofJson) hx
  obtain ⟨fields, ⟨hcount, hslots⟩, hfinish⟩ :=
    Decoder.record_eq_ok ⟨fun _ hn => (nomatch hn), fun _ hss => nomatch hss⟩ hread h
  unfold Fields.layout at hfinish
  split at hfinish
  · obtain ⟨hcomputed, rfl⟩ := check_eq_ok.mp hfinish
    exact ⟨hcomputed, hslots _ rfl, hcount _ rfl⟩
  · cases hfinish

end Layout
end QuantityLayout
