import QuantityLayout.Path.Basic
import QuantityLayout.Proofs.Path.Grammar

set_option autoImplicit false

namespace QuantityLayout

open Text (numeral isBlank)

def Step.Writable : Step → Prop
  | .name n => Text.isIdentifier n
  | .index i => i < countBound
  | .cell r c => r < countBound ∧ c < countBound
  | .element k => k < countBound

instance (s : Step) : Decidable s.Writable :=
  match s with
  | .name n => inferInstanceAs (Decidable (Text.isIdentifier n))
  | .index i => inferInstanceAs (Decidable (i < countBound))
  | .cell r c => inferInstanceAs (Decidable (r < countBound ∧ c < countBound))
  | .element k => inferInstanceAs (Decidable (k < countBound))

def Path.Writable (p : Path) : Prop := ∀ s ∈ p, s.Writable

theorem Path.writable_cons {s : Step} {p : Path} : Path.Writable (s :: p) ↔ s.Writable ∧ Path.Writable p :=
  List.forall_mem_cons

namespace Text

theorem counts_numeral {n : Nat} (hn : n < countBound) : Counts n (numeral n) := by
  have hdigits : (numeral n).all Char.isDigit := List.all_eq_true.mpr fun c hc => isDigit_of_mem_numeral hc
  have hbound : numeralValue (numeral n) < countBound := by rwa [numeralValue_numeral]
  have h : Counts (numeralValue (numeral n)) ([] ++ numeral n ++ []) :=
    .digits rfl hdigits Nat.toDigits_ne_nil hbound rfl
  rwa [numeralValue_numeral, List.nil_append, List.append_nil] at h

theorem Counts.lt {n : Nat} {t : List Char} (h : Counts n t) : n < countBound := by
  cases h
  assumption

end Text

namespace Step

variable {s : Step} {t : List Char}

theorem follows_chars (hs : s.Writable) : s.Follows s.chars := by
  cases s with
  | name n => exact .name hs
  | index i => exact .bracketed (.index (Text.counts_numeral hs))
  | cell r c => exact .bracketed (.cell (Text.counts_numeral hs.1) (Text.counts_numeral hs.2))
  | element k => exact .bracketed (.element (Text.counts_numeral hs))

theorem Bracketed.writable (h : Bracketed s t) : s.Writable := by
  cases h with
  | index ht => exact ht.lt
  | element ht => exact ht.lt
  | cell ht hu => exact ⟨ht.lt, hu.lt⟩

theorem Opens.writable (h : s.Opens t) : s.Writable := by
  cases h with
  | name hn => exact hn
  | bracketed h => exact h.writable

theorem Follows.writable (h : s.Follows t) : s.Writable := by
  cases h with
  | name hn => exact hn
  | bracketed h => exact h.writable

theorem isBlank_of_mem_chars {s : Step} (hs : s.Writable) {c : Char} (hc : c ∈ s.chars) : isBlank c = false := by
  have hnum {n : Nat} (h : c ∈ numeral n) : isBlank c = false :=
    Text.isBlank_of_isDigit (Text.isDigit_of_mem_numeral h)
  cases s with
  | name n =>
    simp only [chars, List.mem_cons] at hc
    rcases hc with rfl | hc
    · decide
    · exact Text.isBlank_of_continues (Text.continues_of_mem hs hc)
  | index i =>
    simp only [chars, List.cons_append, List.mem_cons, List.mem_append, List.not_mem_nil, or_false] at hc
    rcases hc with rfl | hc | rfl
    · decide
    · exact hnum hc
    · decide
  | cell r k =>
    simp only [chars, List.cons_append, List.mem_cons, List.mem_append, List.not_mem_nil, or_false] at hc
    rcases hc with rfl | (hc | rfl | hc) | rfl
    · decide
    · exact hnum hc
    · decide
    · exact hnum hc
    · decide
  | element k =>
    simp only [chars, List.cons_append, List.mem_cons, List.mem_append, List.not_mem_nil, or_false] at hc
    rcases hc with rfl | hc | rfl
    · decide
    · exact hnum hc
    · decide

end Step

namespace Path

variable {p : Path} {t : List Char}

theorem follows_flatMap (hp : p.Writable) : Follows p (p.flatMap Step.chars) := by
  induction p with
  | nil => exact .nil
  | cons s p ih =>
    obtain ⟨hs, hp⟩ := writable_cons.mp hp
    rw [List.flatMap_cons]
    exact .cons (Step.follows_chars hs) (ih hp)

theorem denotes_chars (hp : p.Writable) : Denotes p p.chars := by
  cases p with
  | nil => exact .root
  | cons s p =>
    obtain ⟨hs, hp⟩ := writable_cons.mp hp
    have hrest := follows_flatMap hp
    -- Only a name is written differently at the front.
    cases s with
    | name n => exact .steps (.name hs) hrest
    | _ =>
      cases Step.follows_chars hs with
      | bracketed h => exact .steps (.bracketed h) hrest

theorem isBlank_of_mem_chars {p : Path} (hp : p.Writable) {c : Char} (hc : c ∈ p.chars) : isBlank c = false := by
  have hrest {q : Path} (hq : q.Writable) (h : c ∈ q.flatMap Step.chars) : isBlank c = false := by
    obtain ⟨s, hs, hc⟩ := List.mem_flatMap.mp h
    exact Step.isBlank_of_mem_chars (hq s hs) hc
  cases p with
  | nil => cases hc
  | cons s p =>
    obtain ⟨hs, htail⟩ := writable_cons.mp hp
    cases s with
    | name n =>
      rcases List.mem_append.mp hc with hc | hc
      · exact Text.isBlank_of_continues (Text.continues_of_mem hs hc)
      · exact hrest htail hc
    | _ =>
      rcases List.mem_append.mp hc with hc | hc
      · exact Step.isBlank_of_mem_chars hs hc
      · exact hrest htail hc

/-- A path whose names are identifiers and whose numbers are counts is read back from its text. -/
theorem parse_render_writable (hp : p.Writable) : parse p.render = .ok p := by
  rw [parse_eq_ok_iff, toList_render, Text.trim_eq_self fun c => isBlank_of_mem_chars hp]
  exact denotes_chars hp

theorem Follows.writable (h : Follows p t) : p.Writable := by
  induction h with
  | nil => exact List.forall_mem_nil _
  | cons hs _ ih => exact writable_cons.mpr ⟨hs.writable, ih⟩

theorem Denotes.writable (h : Denotes p t) : p.Writable := by
  cases h with
  | root => exact List.forall_mem_nil _
  | steps hs hp => exact writable_cons.mpr ⟨hs.writable, hp.writable⟩

/-- Whatever is read as a path can be written. -/
theorem writable_of_parse {input : String} (h : parse input = .ok p) : p.Writable := (parse_eq_ok_iff.mp h).writable

end Path
end QuantityLayout
