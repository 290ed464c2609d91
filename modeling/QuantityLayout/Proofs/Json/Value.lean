import QuantityLayout.Json.Printer
import QuantityLayout.Proofs.Json.Token
/-!
A value reads back from its text, in any style that puts nothing but gaps between tokens. The text spells the tokens
of the value, and the builder makes the value from them.
-/
set_option autoImplicit false

namespace QuantityLayout.Json

open Text (isGap Stops)

/-- Numbers have the form of the grammar, and strings denote texts. -/
inductive Value.Standard : Value → Prop where
  | null : Standard .null
  | bool (b : Bool) : Standard (.bool b)
  | number {n : Number} (hn : n.Standard) : Standard (.number n)
  | text (s : String) : Standard (.text (some s))
  | list {vs : List Value} (hvs : ∀ v ∈ vs, Standard v) : Standard (.list vs)
  | record {ms : List (Option String × Value)} (hkeys : ∀ m ∈ ms, m.1.isSome) (hvs : ∀ m ∈ ms, Standard m.2) :
    Standard (.record ms)

structure Style.Blank (style : Style) : Prop where
  newline : ∀ depth, ∀ c ∈ style.newline depth, isGap c
  gap : ∀ c ∈ style.gap, isGap c

theorem Style.blank_compact : compact.Blank := ⟨fun _ _ h => (nomatch h), fun _ h => nomatch h⟩

theorem Style.blank_pretty : pretty.Blank := by
  refine ⟨fun depth c hc => ?_, fun c hc => ?_⟩
  · rcases List.mem_cons.mp hc with rfl | hc
    · decide
    · cases List.eq_of_mem_replicate hc
      decide
  · cases List.mem_singleton.mp hc
    decide

namespace Value

mutual
def tokens : Value → List Token
  | .null => [.null]
  | .bool b => [.bool b]
  | .number n => [.number n]
  | .text s => [.text s]
  | .list [] => [.openList, .closeList]
  | .list (v :: vs) => .openList :: v.tokens ++ itemTokens vs ++ [.closeList]
  | .record [] => [.openRecord, .closeRecord]
  | .record ((k, v) :: ms) => .openRecord :: .text k :: .colon :: v.tokens ++ memberTokens ms ++ [.closeRecord]

def itemTokens : List Value → List Token
  | [] => []
  | v :: vs => .comma :: v.tokens ++ itemTokens vs

def memberTokens : List (Option String × Value) → List Token
  | [] => []
  | (k, v) :: ms => .comma :: .text k :: .colon :: v.tokens ++ memberTokens ms
end

section Spelling

variable {style : Style} {rest : List Char} {ts : List Token}

/-- The text of the value spells its tokens, if no number goes on after it. -/
def Spelled (style : Style) (v : Value) : Prop :=
  ∀ depth rest ts, Stops Number.continues rest → Token.readAll rest = some ts →
    Token.readAll (v.chars style depth ++ rest) = some (v.tokens ++ ts)

theorem stops_gap {gap : List Char} (hgap : ∀ c ∈ gap, isGap c) (h : Stops Number.continues rest) :
    Stops Number.continues (gap ++ rest) := by
  cases gap with
  | nil => exact h
  | cons c gap =>
    refine Text.stops_cons ?_ _
    have hc := hgap c List.mem_cons_self
    simp only [isGap, Bool.or_eq_true, beq_iff_eq] at hc
    rcases hc with ((rfl | rfl) | rfl) | rfl <;> decide

theorem stops_itemChars (style : Style) (depth : Nat) (vs : List Value) (h : Stops Number.continues rest) :
    Stops Number.continues (itemChars style depth vs ++ rest) := by
  cases vs with
  | nil => exact h
  | cons v vs => exact Text.stops_cons (by decide) _

theorem stops_memberChars (style : Style) (depth : Nat) (ms : List (Option String × Value))
    (h : Stops Number.continues rest) : Stops Number.continues (memberChars style depth ms ++ rest) := by
  cases ms with
  | nil => exact h
  | cons m ms => exact Text.stops_cons (by decide) _

theorem readAll_itemChars (hs : style.Blank) {vs : List Value} (hvs : ∀ v ∈ vs, Spelled style v) (depth : Nat)
    (hstop : Stops Number.continues rest) (hrest : Token.readAll rest = some ts) :
    Token.readAll (itemChars style depth vs ++ rest) = some (itemTokens vs ++ ts) := by
  induction vs with
  | nil => exact hrest
  | cons v vs ih =>
    obtain ⟨hv, hvs⟩ := List.forall_mem_cons.mp hvs
    have hv := hv depth _ _ (stops_itemChars style depth vs hstop) (ih hvs)
    rw [itemChars, itemTokens]
    simp only [List.cons_append, List.append_assoc]
    exact Token.readAll_comma ((Token.readAll_gap (hs.newline depth)).trans hv)

theorem readAll_memberChars (hs : style.Blank) {ms : List (Option String × Value)} (hkeys : ∀ m ∈ ms, m.1.isSome)
    (hvs : ∀ m ∈ ms, Spelled style m.2) (depth : Nat) (hstop : Stops Number.continues rest)
    (hrest : Token.readAll rest = some ts) :
    Token.readAll (memberChars style depth ms ++ rest) = some (memberTokens ms ++ ts) := by
  induction ms with
  | nil => exact hrest
  | cons m ms ih =>
    obtain ⟨k, v⟩ := m
    obtain ⟨hk, hks⟩ := List.forall_mem_cons.mp hkeys
    obtain ⟨hv, hlater⟩ := List.forall_mem_cons.mp hvs
    obtain ⟨k, rfl⟩ := Option.isSome_iff_exists.mp hk
    have hread := hv depth _ _ (stops_memberChars style depth ms hstop) (ih hks hlater)
    have hvalue := Token.readAll_colon ((Token.readAll_gap hs.gap).trans hread)
    rw [memberChars, memberTokens]
    simp only [List.cons_append, List.append_assoc]
    exact Token.readAll_comma ((Token.readAll_gap (hs.newline depth)).trans (Token.readAll_quoted k hvalue))

theorem Standard.spelled (hs : style.Blank) {v : Value} (hv : v.Standard) : Spelled style v := by
  intro depth rest ts hstop hrest
  -- on the form of the value, with any text after it: what comes after an inner value is the rest of the outer one
  induction hv generalizing depth rest ts with
  | null => exact Token.readAll_cons (by decide) rfl hrest
  | bool b => cases b <;> exact Token.readAll_cons (by decide) rfl hrest
  | number hn => exact Token.readAll_number hn hstop hrest
  | text s => exact Token.readAll_quoted s hrest
  | @list vs _ ih =>
    have hclose := Token.readAll_closeList hrest
    cases vs with
    | nil => exact Token.readAll_cons (by decide) rfl hclose
    | cons v vs =>
      obtain ⟨hv, hvs⟩ := List.forall_mem_cons.mp ih
      have hend := (Token.readAll_gap (hs.newline depth)).trans hclose
      have hafter := stops_gap (hs.newline depth) (Text.stops_cons (c := ']') (by decide) rest)
      have hitems := readAll_itemChars hs hvs (depth + 1) hafter hend
      have hvalue := hv (depth + 1) _ _ (stops_itemChars style (depth + 1) vs hafter) hitems
      rw [chars, tokens]
      simp only [List.cons_append, List.append_assoc, List.nil_append]
      exact Token.readAll_cons (by decide) rfl ((Token.readAll_gap (hs.newline _)).trans hvalue)
  | @record ms hkeys _ ih =>
    have hclose := Token.readAll_closeRecord hrest
    cases ms with
    | nil => exact Token.readAll_cons (by decide) rfl hclose
    | cons m ms =>
      obtain ⟨k, v⟩ := m
      obtain ⟨hk, hks⟩ := List.forall_mem_cons.mp hkeys
      obtain ⟨hv, hvs⟩ := List.forall_mem_cons.mp ih
      obtain ⟨k, rfl⟩ := Option.isSome_iff_exists.mp hk
      have hend := (Token.readAll_gap (hs.newline depth)).trans hclose
      have hafter := stops_gap (hs.newline depth) (Text.stops_cons (c := '}') (by decide) rest)
      have hmembers := readAll_memberChars hs hks hvs (depth + 1) hafter hend
      have hvalue := hv (depth + 1) _ _ (stops_memberChars style (depth + 1) ms hafter) hmembers
      have hkey := Token.readAll_quoted k (Token.readAll_colon ((Token.readAll_gap hs.gap).trans hvalue))
      rw [chars, tokens]
      simp only [List.cons_append, List.append_assoc, List.nil_append]
      exact Token.readAll_cons (by decide) rfl ((Token.readAll_gap (hs.newline _)).trans hkey)

end Spelling

section Building

open Builder

/-- From wherever a value may begin, its tokens lead the builder to the value. -/
def Built (v : Value) : Prop :=
  ∀ b outer, (∀ t, t ≠ .closeList → Builder.step b t = enter outer t) →
    v.tokens.foldlM Builder.step b = some (.built v outer)

theorem foldlM_cons_of_step {b b' : Builder} {t : Token} (h : Builder.step b t = some b') (ts : List Token) :
    (t :: ts).foldlM Builder.step b = ts.foldlM Builder.step b' := by
  rw [List.foldlM_cons, h]
  rfl

theorem foldlM_append_of_foldlM {b b' : Builder} {ts : List Token} (h : ts.foldlM Builder.step b = some b')
    (ts' : List Token) : (ts ++ ts').foldlM Builder.step b = ts'.foldlM Builder.step b' := by
  rw [List.foldlM_append, h]
  rfl

theorem foldlM_itemTokens {vs : List Value} (hvs : ∀ v ∈ vs, Built v) (v : Value) (before : List Value)
    (outer : List Frame) :
    (itemTokens vs ++ [Token.closeList]).foldlM Builder.step (.built v (.items before :: outer))
      = some (.built (.list (before.reverse ++ v :: vs)) outer) := by
  induction vs generalizing v before with
  | nil => simp [itemTokens, Builder.step, leave]
  | cons w vs ih =>
    obtain ⟨hw, hlater⟩ := List.forall_mem_cons.mp hvs
    have hitem := hw (.value (.items (v :: before) :: outer)) _ fun _ _ => rfl
    rw [itemTokens, List.append_assoc, List.cons_append, foldlM_cons_of_step rfl, foldlM_append_of_foldlM hitem,
      ih hlater]
    simp

theorem foldlM_memberTokens {ms : List (Option String × Value)} (hms : ∀ m ∈ ms, Built m.2) (k : Option String)
    (v : Value) (before : List (Option String × Value)) (outer : List Frame) :
    (memberTokens ms ++ [Token.closeRecord]).foldlM Builder.step (.built v (.members before k :: outer))
      = some (.built (.record (before.reverse ++ (k, v) :: ms)) outer) := by
  induction ms generalizing k v before with
  | nil => simp [memberTokens, Builder.step, leave]
  | cons m ms ih =>
    obtain ⟨k', w⟩ := m
    obtain ⟨hw, hlater⟩ := List.forall_mem_cons.mp hms
    have hmember := hw (.value (.members ((k, v) :: before) k' :: outer)) _ fun _ _ => rfl
    rw [memberTokens, List.append_assoc, List.cons_append, List.cons_append, List.cons_append, foldlM_cons_of_step rfl,
      foldlM_cons_of_step rfl, foldlM_cons_of_step rfl, foldlM_append_of_foldlM hmember, ih hlater]
    simp

theorem Standard.built {v : Value} (hv : v.Standard) : Built v := by
  intro b outer hb
  -- the first item of a list begins where the list may also be closed, so the builder is not the same for all items
  induction hv generalizing b outer with
  | null | bool | number | text => simp [tokens, hb, enter]
  | @list vs _ ih =>
    have hopen : Builder.step b .openList = some (.firstItem outer) := hb _ (by simp)
    cases vs with
    | nil => rw [tokens, foldlM_cons_of_step hopen, foldlM_cons_of_step rfl]; rfl
    | cons v vs =>
      obtain ⟨hv, hvs⟩ := List.forall_mem_cons.mp ih
      have hitem := hv (.firstItem outer) (.items [] :: outer) fun t ht => by
        cases t with
        | closeList => exact absurd rfl ht
        | _ => rfl
      rw [tokens, List.append_assoc, List.cons_append, foldlM_cons_of_step hopen, foldlM_append_of_foldlM hitem,
        foldlM_itemTokens hvs]
      rfl
  | @record ms hkeys _ ih =>
    have hopen : Builder.step b .openRecord = some (.firstKey outer) := hb _ (by simp)
    cases ms with
    | nil => rw [tokens, foldlM_cons_of_step hopen, foldlM_cons_of_step rfl]; rfl
    | cons m ms =>
      obtain ⟨k, v⟩ := m
      obtain ⟨hv, hvs⟩ := List.forall_mem_cons.mp ih
      have hmember := hv (.value (.members [] k :: outer)) _ fun _ _ => rfl
      rw [tokens, List.append_assoc, List.cons_append, List.cons_append, List.cons_append, foldlM_cons_of_step hopen,
        foldlM_cons_of_step rfl, foldlM_cons_of_step rfl, foldlM_append_of_foldlM hmember, foldlM_memberTokens hvs]
      rfl

end Building

/-- A value is read back from its text. -/
theorem parse?_chars {style : Style} (hs : style.Blank) {v : Value} (hv : v.Standard) :
    parse? (v.chars style 0) = some v := by
  have hspelled := hv.spelled hs 0 [] [] (fun _ h => nomatch h) Token.readAll_nil
  have hbuilt := hv.built (.value []) [] fun _ _ => rfl
  rw [List.append_nil, List.append_nil] at hspelled
  rw [parse?, hspelled, Option.bind_some, ofTokens?, hbuilt, Option.bind_some, Builder.result?]

end Value
end QuantityLayout.Json
