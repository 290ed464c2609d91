import QuantityLayout.Json.Decode
import QuantityLayout.Json.Forms
import QuantityLayout.Proofs.Json.Value
import QuantityLayout.Proofs.Outcome

set_option autoImplicit false

namespace QuantityLayout.Json

variable {α β σ : Type}

namespace Value

theorem standard_ofText (s : String) : (ofText s).Standard := .text s

theorem standard_ofCount (n : Nat) : (ofCount n).Standard := .number (Number.standard_ofCount n)

theorem standard_ofBinary64 (x : Binary64) : (ofBinary64 x).Standard := by
  unfold ofBinary64
  split
  · next hn => exact .number (Number.standard_of_ofBinary64? hn)
  · exact .null

theorem standard_map {xs : List α} {encode : α → Value} (h : ∀ x ∈ xs, (encode x).Standard) :
    (Value.list (xs.map encode)).Standard := by
  refine .list fun v hv => ?_
  obtain ⟨x, hx, rfl⟩ := List.mem_map.mp hv
  exact h x hx

theorem standard_ofFields {fields : List (String × Value)} (h : ∀ f ∈ fields, f.2.Standard) :
    (ofFields fields).Standard := by
  refine .record (fun m hm => ?_) fun m hm => ?_ <;> obtain ⟨f, hf, rfl⟩ := List.mem_map.mp hm
  · rfl
  · exact h f hf

theorem allPlain_iff {depth : Nat} {vs : List Value} : allPlain depth vs ↔ ∀ v ∈ vs, v.isPlain depth := by
  induction vs with
  | nil => simp [allPlain]
  | cons v vs ih => simp [allPlain, ih]

theorem isPlain_map {depth : Nat} {xs : List α} {encode : α → Value} (h : ∀ x ∈ xs, (encode x).isPlain depth) :
    (Value.list (xs.map encode)).isPlain (depth + 1) := by
  rw [isPlain, allPlain_iff]
  intro v hv
  obtain ⟨x, hx, rfl⟩ := List.mem_map.mp hv
  exact h x hx

end Value

theorem decode_eq_ok {read : Decoder α} {text : String} {a : α} :
    decode read text = .ok a ↔ ∃ v, Value.parse? text.toList = some v ∧ read v = .ok a := by
  unfold decode
  cases Value.parse? text.toList with
  | none => simp
  | some v =>
    cases hread : read v with
    | ok b => simp [hread]
    | error c =>
      simp only [Option.some.injEq, exists_eq_left', hread]
      split <;> simp

theorem map_decode {read : Decoder α} {read' : Decoder β} {f : α → β} (h : ∀ v, (read v).map f = read' v)
    (text : String) : (decode read text).map f = decode read' text := by
  unfold decode
  cases Value.parse? text.toList with
  | none => rfl
  | some v =>
    simp only [← h v]
    cases read v with
    | ok a => rfl
    | error c =>
      simp only [Except.map]
      cases v.isPlain Value.maxDepth <;> rfl

theorem parse?_render {style : Style} (hs : style.Blank) {v : Value} (hv : v.Standard) :
    Value.parse? (v.render style).toList = some v := by
  rw [Value.render, String.toList_ofList]
  exact Value.parse?_chars hs hv

/-- What is decoded from a text that was written is decoded from the value. -/
theorem decode_render_iff {read : Decoder α} {v : Value} {a : α} (hv : v.Standard) :
    decode read (v.render .pretty) = .ok a ↔ read v = .ok a := by
  rw [decode_eq_ok, parse?_render Style.blank_pretty hv]
  simp

theorem decode_render_error {read : Decoder α} {v : Value} {c : Complaint} (hv : v.Standard)
    (hplain : v.isPlain Value.maxDepth) (h : read v = .error c) :
    decode read (v.render .pretty) = .error (.unfit c) := by
  simp only [decode, parse?_render Style.blank_pretty hv, h, hplain, if_true]

theorem decode_render {read : Decoder α} {v : Value} {a : α} (hv : v.Standard) (h : read v = .ok a) :
    decode read (v.render .pretty) = .ok a := (decode_render_iff hv).mpr h

namespace Decoder

theorem count_ofCount {n : Nat} (hn : n < countBound) : count (.ofCount n) = .ok n := by
  rw [Value.ofCount, count, Number.count?_ofCount hn]

theorem lt_of_count {v : Value} {n : Nat} (h : count v = .ok n) : n < countBound := by
  unfold count at h
  split at h
  · split at h
    · next hk =>
      cases h
      exact Number.lt_of_count? hk
    · cases h
  · cases h

theorem all_map_eq_ok {item : Decoder β} {encode : α → Value} {f : α → β} {xs : List α}
    (h : ∀ x ∈ xs, item (encode x) = .ok (f x)) : all item (xs.map encode) = .ok (xs.map f) := by
  induction xs with
  | nil => rfl
  | cons x xs ih =>
    obtain ⟨hx, hxs⟩ := List.forall_mem_cons.mp h
    simp only [List.map_cons, all, hx, ih hxs, bind, Except.bind]

/-- Where elements are refused with one complaint only, the list is refused with it as soon as one of them is. -/
theorem all_map_eq_error {item : Decoder β} {encode : α → Value} {c : Complaint} {xs : List α}
    (h : ∀ x ∈ xs, (∃ y, item (encode x) = .ok y) ∨ item (encode x) = .error c)
    (hbad : ∃ x ∈ xs, item (encode x) = .error c) : all item (xs.map encode) = .error c := by
  induction xs with
  | nil =>
    obtain ⟨x, hx, -⟩ := hbad
    cases hx
  | cons x xs ih =>
    obtain ⟨hx, hxs⟩ := List.forall_mem_cons.mp h
    rw [List.map_cons, all]
    rcases hx with ⟨y, hy⟩ | hx
    · have hlater : ∃ z ∈ xs, item (encode z) = .error c := by
        obtain ⟨z, hz, hbad⟩ := hbad
        rcases List.mem_cons.mp hz with rfl | hz
        · rw [hy] at hbad
          cases hbad
        · exact ⟨z, hz, hbad⟩
      rw [hy, ih hxs hlater]
      rfl
    · rw [hx]
      rfl

theorem all_map {item : Decoder α} {encode : α → Value} {xs : List α} (h : ∀ x ∈ xs, item (encode x) = .ok x) :
    all item (xs.map encode) = .ok xs := by
  have hall := all_map_eq_ok (f := id) h
  rwa [List.map_id] at hall

theorem list_map {item : Decoder α} {encode : α → Value} {xs : List α} (h : ∀ x ∈ xs, item (encode x) = .ok x) :
    list item (.list (xs.map encode)) = .ok xs := all_map h

theorem forall_mem_of_all {item : Decoder α} {P : α → Prop} (hitem : ∀ v x, item v = .ok x → P x) {vs : List Value}
    {xs : List α} (h : all item vs = .ok xs) : ∀ x ∈ xs, P x := by
  induction vs generalizing xs with
  | nil =>
    cases h
    exact fun _ hx => nomatch hx
  | cons v vs ih =>
    obtain ⟨x, hx, h⟩ := Outcome.bind_eq_ok.mp h
    obtain ⟨rest, hrest, h⟩ := Outcome.bind_eq_ok.mp h
    cases h
    exact List.forall_mem_cons.mpr ⟨hitem v x hx, ih hrest⟩

theorem forall_mem_of_list {item : Decoder α} {P : α → Prop} (hitem : ∀ v x, item v = .ok x → P x) {v : Value}
    {xs : List α} (h : list item v = .ok xs) : ∀ x ∈ xs, P x := by
  cases v with
  | list vs => exact forall_mem_of_all hitem h
  | _ => cases h

section Record

variable {fields : List (Field σ)} {P : σ → Prop}

theorem members_preserves (hread : ∀ f ∈ fields, ∀ s v s', P s → f.read s v = .ok s' → P s')
    {ms : List (Option String × Value)} {s s' : σ} (hs : P s) (h : members fields s ms = .ok s') : P s' := by
  induction ms generalizing s with
  | nil =>
    cases h
    exact hs
  | cons m ms ih =>
    obtain ⟨k, v⟩ := m
    cases k with
    | none => cases h
    | some k =>
      rw [members] at h
      split at h
      · exact ih hs h
      · next f hf =>
        split at h
        · cases h
        · obtain ⟨s₁, hs₁, h⟩ := Outcome.bind_eq_ok.mp h
          exact ih (hread f (List.mem_of_find?_eq_some hf) s v s₁ hs hs₁) h

theorem inSequence_preserves (hread : ∀ f ∈ fields, ∀ s v s', P s → f.read s v = .ok s' → P s') {vs : List Value}
    {s s' : σ} (hs : P s) (h : inSequence fields s vs = .ok s') : P s' := by
  induction fields generalizing s vs with
  | nil =>
    cases vs with
    | nil =>
      cases h
      exact hs
    | cons => cases h
  | cons f fields ih =>
    cases vs with
    | nil => cases h
    | cons v vs =>
      obtain ⟨hf, hfields⟩ := List.forall_mem_cons.mp hread
      obtain ⟨s₁, hs₁, h⟩ := Outcome.bind_eq_ok.mp h
      exact ih hfields (hf s v s₁ hs hs₁) h

/-- A record that is accepted is finished from fields of which everything holds that each reading of a field keeps. -/
theorem record_eq_ok {blank : σ} {finish : σ → Except Complaint α} (hblank : P blank)
    (hread : ∀ f ∈ fields, ∀ s v s', P s → f.read s v = .ok s' → P s') {v : Value} {a : α}
    (h : record fields blank finish v = .ok a) : ∃ s, P s ∧ finish s = .ok a := by
  cases v with
  | record ms =>
    obtain ⟨s, hs, hfinish⟩ := Outcome.bind_eq_ok.mp h
    exact ⟨s, members_preserves hread hblank hs, hfinish⟩
  | list vs =>
    obtain ⟨s, hs, hfinish⟩ := Outcome.bind_eq_ok.mp h
    exact ⟨s, inSequence_preserves hread hblank hs, hfinish⟩
  | _ => cases h

theorem map_record {blank : σ} {finish : σ → Except Complaint α} {finish' : σ → Except Complaint β} {f : α → β}
    (h : ∀ s, (finish s).map f = finish' s) (v : Value) :
    (record fields blank finish v).map f = record fields blank finish' v := by
  cases v with
  | record ms =>
    simp only [record]
    cases members fields blank ms with
    | error c => rfl
    | ok s => exact h s
  | list vs =>
    simp only [record]
    cases inSequence fields blank vs with
    | error c => rfl
    | ok s => exact h s
  | _ => rfl

theorem record_bind {blank : σ} {finish : σ → Except Complaint α} {f : α → Except Complaint β} (v : Value) :
    record fields blank (fun s => finish s >>= f) v = record fields blank finish v >>= f := by
  cases v with
  | record ms => simp only [record, bind_assoc]
  | list vs => simp only [record, bind_assoc]
  | _ => rfl

end Record

end Decoder
end QuantityLayout.Json
