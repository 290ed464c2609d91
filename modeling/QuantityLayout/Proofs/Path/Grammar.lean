import QuantityLayout.Error.Message
import QuantityLayout.Path.Grammar
import QuantityLayout.Path.Reader
import QuantityLayout.Proofs.Text.Reading
/-!
The reader of paths against their grammar. It takes nothing but what the grammar has, and where it stops, no initial part
of the text that goes on further denotes a path: only a name can be prolonged, and names are read as far as they go.
-/
set_option autoImplicit false

namespace QuantityLayout

open Text (isGap isBlank continuesIdentifier Stops)

namespace Text

theorem stops_iff {p : Char → Bool} {cs : List Char} : Stops p cs ↔ cs.head?.any p = false := by
  cases cs <;> simp [Stops]

theorem stops_dropWhile (p : Char → Bool) (cs : List Char) : Stops p (cs.dropWhile p) := by
  intro c hc
  have h := List.head?_dropWhile_not p cs
  rw [Option.mem_def.mp hc] at h
  exact h

theorem Stops.of_append {p : Char → Bool} {cs rest : List Char} (h : Stops p (cs ++ rest)) : Stops p cs := by
  cases cs with
  | nil => simp [Stops]
  | cons c cs => exact h

theorem trimmed_trim (cs : List Char) : Trimmed cs (trim cs) := by
  obtain ⟨before, after, hbefore, hafter, hcs⟩ := blank_trim_blank cs
  obtain ⟨after', -, hleft⟩ := trimRight_blank (trimLeft cs)
  have hstarts : Stops isBlank (trim cs ++ after') := by
    rw [trim, ← hleft]
    exact stops_dropWhile isBlank cs
  refine ⟨⟨before, after, hcs, hbefore, hafter⟩, stops_iff.mp hstarts.of_append, ?_⟩
  rw [trim, trimRight, List.getLast?_reverse]
  exact stops_iff.mp (stops_dropWhile isBlank _)

theorem trim_of_trimmed {cs body : List Char} (h : Trimmed cs body) : trim cs = body := by
  obtain ⟨⟨before, after, rfl, hbefore, hafter⟩, hstarts, hends⟩ := h
  rw [List.all_eq_true] at hbefore hafter
  cases body with
  | nil =>
    have hall : trimLeft (before ++ [] ++ after) = [] := by
      simp only [trimLeft, List.append_nil, List.dropWhile_append_of_pos hbefore]
      have hnone : Stops isBlank [] := by simp [Stops]
      have h := dropWhile_stops hafter hnone
      rwa [List.append_nil] at h
    rw [trim, hall]
    rfl
  | cons c body =>
    have hfront : trimLeft (before ++ c :: body ++ after) = c :: body ++ after := by
      rw [List.append_assoc]
      exact dropWhile_stops hbefore (stops_cons hstarts _)
    have hback : Stops isBlank (c :: body).reverse := by
      rw [stops_iff, List.head?_reverse]
      exact hends
    rw [trim, hfront, trimRight, List.reverse_append,
      dropWhile_stops (fun d hd => hafter d (List.mem_reverse.mp hd)) hback, List.reverse_reverse]

theorem trimmed_iff {cs body : List Char} : Trimmed cs body ↔ body = trim cs := by
  constructor
  · intro h
    exact (trim_of_trimmed h).symm
  · rintro rfl
    exact trimmed_trim cs

theorem isDigit_of_isGap {c : Char} (h : isGap c) : c.isDigit = false := by
  cases hd : c.isDigit with
  | false => rfl
  | true =>
    rw [isGap_of_isDigit hd] at h
    cases h

theorem stops_append {p : Char → Bool} {cs rest : List Char} (hcs : ∀ c ∈ cs, p c = false) (hrest : Stops p rest) :
    Stops p (cs ++ rest) := by
  cases cs with
  | nil => exact hrest
  | cons c cs => exact stops_cons (hcs c List.mem_cons_self) _

theorem counts_of_readNumeral {cs rest : List Char} {n : Nat} (h : readNumeral cs = some (n, rest)) :
    ∃ t, cs = t ++ rest ∧ Counts n t := by
  simp only [readNumeral] at h
  split at h
  · cases h
  · next hd =>
    simp only [Bool.or_eq_true, List.isEmpty_iff, decide_eq_true_eq, not_or, Nat.not_le] at hd
    cases h
    refine ⟨_, ?_, .digits (List.all_takeWhile (l := cs)) List.all_takeWhile hd.1 hd.2
      (List.all_takeWhile (l := (skipGap cs).dropWhile Char.isDigit))⟩
    simp only [skipGap, List.append_assoc, List.takeWhile_append_dropWhile]

theorem readNumeral_counts {t rest : List Char} {n : Nat} (h : Counts n t) (hdigit : Stops Char.isDigit rest)
    (hgap : Stops isGap rest) : readNumeral (t ++ rest) = some (n, rest) := by
  cases h with
  | @digits before ds after hbefore hds hne hbound hafter =>
    rw [List.all_eq_true] at hbefore hds hafter
    have hfront : Stops isGap (ds ++ (after ++ rest)) := by
      cases ds with
      | nil => exact absurd rfl hne
      | cons d ds => exact stops_cons (isGap_of_isDigit (hds d List.mem_cons_self)) _
    have hback : Stops Char.isDigit (after ++ rest) := stops_append (fun c hc => isDigit_of_isGap (hafter c hc)) hdigit
    have hskip : skipGap (before ++ (ds ++ (after ++ rest))) = ds ++ (after ++ rest) := dropWhile_stops hbefore hfront
    have htake := takeWhile_stops hds hback
    have hdrop := dropWhile_stops hds hback
    have hempty : ds.isEmpty = false := List.isEmpty_eq_false_iff.mpr hne
    have hafter : skipGap (after ++ rest) = rest := dropWhile_stops hafter hgap
    simp only [List.append_assoc, readNumeral, hskip, htake, hdrop, hempty, hafter, Bool.false_or, decide_eq_true_eq,
      Nat.not_le.mpr hbound, if_false]

end Text

namespace Step

variable {s : Step} {cs rest t : List Char}

theorem readName_toList {n : String} (hn : Text.isIdentifier n) (hrest : Stops continuesIdentifier rest) :
    readName (n.toList ++ rest) = some (.name n, rest) := by
  simp [readName, Text.readIdentifier_toList hn hrest]

theorem readNext_open {c : Char} (hc : c ≠ '.') (cs : List Char) :
    readNext (c :: cs) = (readIndex (c :: cs)).or (readCell (c :: cs)) := by
  rw [readNext]
  intro ds h
  exact hc (List.cons.inj h).1

theorem bracketed_of_readIndex (h : readIndex cs = some (s, rest)) : ∃ t, cs = t ++ rest ∧ Bracketed s t := by
  unfold readIndex at h
  split at h
  · split at h
    · next hi =>
      cases h
      obtain ⟨t, rfl, ht⟩ := Text.counts_of_readNumeral hi
      exact ⟨_, by simp, .index ht⟩
    · cases h
  · cases h

theorem bracketed_of_readCell (h : readCell cs = some (s, rest)) : ∃ t, cs = t ++ rest ∧ Bracketed s t := by
  unfold readCell at h
  split at h
  · split at h
    · next hk =>
      cases h
      obtain ⟨t, rfl, ht⟩ := Text.counts_of_readNumeral hk
      exact ⟨_, by simp, .element ht⟩
    · next hr =>
      split at h
      · next hc =>
        cases h
        obtain ⟨t, rfl, ht⟩ := Text.counts_of_readNumeral hr
        obtain ⟨u, rfl, hu⟩ := Text.counts_of_readNumeral hc
        exact ⟨_, by simp, .cell ht hu⟩
      · cases h
    · cases h
  · cases h

theorem bracketed_of_read (h : (readIndex cs).or (readCell cs) = some (s, rest)) : ∃ t, cs = t ++ rest ∧ Bracketed s t := by
  rcases Option.or_eq_some_iff.mp h with h | ⟨-, h⟩
  · exact bracketed_of_readIndex h
  · exact bracketed_of_readCell h

theorem name_of_readName (h : readName cs = some (s, rest)) :
    ∃ n, s = .name n ∧ Text.isIdentifier n ∧ cs = n.toList ++ rest := by
  obtain ⟨⟨n, r⟩, hn, he⟩ := Option.map_eq_some_iff.mp h
  cases he
  exact ⟨n, rfl, Text.isIdentifier_of_read hn, Text.readIdentifier_append hn⟩

theorem opens_of_readFirst (h : readFirst cs = some (s, rest)) : ∃ t, cs = t ++ rest ∧ s.Opens t := by
  rcases Option.or_eq_some_iff.mp h with h | ⟨-, h⟩
  · obtain ⟨n, rfl, hn, hcs⟩ := name_of_readName h
    exact ⟨n.toList, hcs, .name hn⟩
  · obtain ⟨t, hcs, ht⟩ := bracketed_of_read h
    exact ⟨t, hcs, .bracketed ht⟩

theorem follows_of_readNext (h : readNext cs = some (s, rest)) : ∃ t, cs = t ++ rest ∧ s.Follows t := by
  unfold readNext at h
  split at h
  · obtain ⟨n, rfl, hn, rfl⟩ := name_of_readName h
    exact ⟨'.' :: n.toList, rfl, .name hn⟩
  · obtain ⟨t, hcs, ht⟩ := bracketed_of_read h
    exact ⟨t, hcs, .bracketed ht⟩

theorem readIndex_bracketed {i : Nat} (ht : Text.Counts i t) (rest : List Char) :
    readIndex ('[' :: (t ++ ']' :: rest)) = some (.index i, rest) := by
  have hnum := Text.readNumeral_counts ht (Text.stops_cons (c := ']') (by decide) rest)
    (Text.stops_cons (by decide) rest)
  simp [readIndex, hnum]

theorem readCell_element {k : Nat} (ht : Text.Counts k t) (rest : List Char) :
    readCell ('(' :: (t ++ ')' :: rest)) = some (.element k, rest) := by
  have hnum := Text.readNumeral_counts ht (Text.stops_cons (c := ')') (by decide) rest)
    (Text.stops_cons (by decide) rest)
  simp [readCell, hnum]

theorem readCell_cell {r c : Nat} {u : List Char} (ht : Text.Counts r t) (hu : Text.Counts c u) (rest : List Char) :
    readCell ('(' :: (t ++ ',' :: (u ++ ')' :: rest))) = some (.cell r c, rest) := by
  have hrow := Text.readNumeral_counts ht (Text.stops_cons (c := ',') (by decide) (u ++ ')' :: rest))
    (Text.stops_cons (by decide) _)
  have hcol := Text.readNumeral_counts hu (Text.stops_cons (c := ')') (by decide) rest)
    (Text.stops_cons (by decide) rest)
  simp [readCell, hrow, hcol]

theorem read_bracketed (h : Bracketed s t) (rest : List Char) :
    readNext (t ++ rest) = some (s, rest) ∧ readFirst (t ++ rest) = some (s, rest) := by
  have hnone {cs : List Char} : readIndex ('(' :: cs) = none := by
    rw [readIndex]
    intro ds e
    cases e
  cases h with
  | index ht =>
    have hread := readIndex_bracketed ht rest
    simp only [List.cons_append, List.append_assoc, List.nil_append]
    rw [readNext_open (by decide), readFirst, readName, Text.readIdentifier, if_neg (by decide), hread]
    exact ⟨rfl, rfl⟩
  | element ht =>
    have hread := readCell_element ht rest
    simp only [List.cons_append, List.append_assoc, List.nil_append]
    rw [readNext_open (by decide), readFirst, readName, Text.readIdentifier, if_neg (by decide), hnone, hread]
    exact ⟨rfl, rfl⟩
  | cell ht hu =>
    have hread := readCell_cell ht hu rest
    simp only [List.cons_append, List.append_assoc, List.nil_append]
    rw [readNext_open (by decide), readFirst, readName, Text.readIdentifier, if_neg (by decide), hnone, hread]
    exact ⟨rfl, rfl⟩

theorem readName_prolonged {n : String} (hn : Text.isIdentifier n) (rest : List Char) :
    readName (n.toList ++ rest) =
      some (.name (n ++ String.ofList (rest.takeWhile continuesIdentifier)), rest.dropWhile continuesIdentifier) := by
  have hlong : Text.isIdentifier (n ++ String.ofList (rest.takeWhile continuesIdentifier)) := by
    unfold Text.isIdentifier at hn ⊢
    cases hcs : n.toList with
    | nil => simp [hcs, Text.isIdentifierChars] at hn
    | cons c cs =>
      rw [hcs] at hn
      simp only [Text.isIdentifierChars, Bool.and_eq_true] at hn
      simp [hcs, Text.isIdentifierChars, hn]
  have h := readName_toList hlong (Text.stops_dropWhile continuesIdentifier rest)
  rwa [String.toList_append, String.toList_ofList, List.append_assoc, List.takeWhile_append_dropWhile] at h

theorem readNext_follows (h : s.Follows t) (hrest : Stops continuesIdentifier rest) :
    readNext (t ++ rest) = some (s, rest) := by
  cases h with
  | name hn => exact readName_toList hn hrest
  | bracketed h => exact (read_bracketed h rest).1

theorem readFirst_opens (h : s.Opens t) (hrest : Stops continuesIdentifier rest) :
    readFirst (t ++ rest) = some (s, rest) := by
  cases h with
  | name hn => rw [readFirst, readName_toList hn hrest, Option.some_or]
  | bracketed h => exact (read_bracketed h rest).2

/-- Whatever comes after a step, the reader gets past the step. -/
theorem readNext_reaches (h : s.Follows t) (rest : List Char) :
    ∃ s' rest', readNext (t ++ rest) = some (s', rest') ∧ rest'.length ≤ rest.length := by
  cases h with
  | name hn => exact ⟨_, _, readName_prolonged hn rest, (List.dropWhile_suffix _).length_le⟩
  | bracketed h => exact ⟨s, rest, (read_bracketed h rest).1, Nat.le_refl _⟩

theorem readFirst_reaches (h : s.Opens t) (rest : List Char) :
    ∃ s' rest', readFirst (t ++ rest) = some (s', rest') ∧ rest'.length ≤ rest.length := by
  cases h with
  | @name n hn =>
    have hread : readFirst (n.toList ++ rest) = readName (n.toList ++ rest) := by
      rw [readFirst, readName_prolonged hn rest, Option.some_or]
    exact ⟨_, _, hread.trans (readName_prolonged hn rest), (List.dropWhile_suffix _).length_le⟩
  | bracketed h => exact ⟨s, rest, (read_bracketed h rest).2, Nat.le_refl _⟩

theorem Follows.stops (h : s.Follows t) (rest : List Char) : Stops continuesIdentifier (t ++ rest) := by
  cases h with
  | name hn => exact Text.stops_cons (by decide) _
  | bracketed h => cases h <;> exact Text.stops_cons (by decide) _

end Step

namespace Path

variable {p : Path} {s : Step} {cs rest t : List Char}

theorem readNexts_of_readNext (h : Step.readNext cs = some (s, rest)) :
    readNexts cs = (s :: (readNexts rest).1, (readNexts rest).2) := by
  rw [readNexts]
  split
  · next hnone =>
    rw [h] at hnone
    cases hnone
  · next hsome =>
    rw [h] at hsome
    cases hsome
    rfl

theorem readNexts_of_none (h : Step.readNext cs = none) : readNexts cs = ([], cs) := by
  rw [readNexts]
  split
  · rfl
  · next hsome =>
    rw [h] at hsome
    cases hsome

theorem readSteps_of_readFirst (h : Step.readFirst cs = some (s, rest)) :
    readSteps cs = (s :: (readNexts rest).1, (readNexts rest).2) := by
  rw [readSteps, h]

theorem follows_readNexts (cs : List Char) : ∃ t, cs = t ++ (readNexts cs).2 ∧ Follows (readNexts cs).1 t := by
  fun_induction readNexts cs with
  | case1 cs h => exact ⟨[], rfl, .nil⟩
  | case2 cs s rest h ih =>
    obtain ⟨t, rfl, ht⟩ := Step.follows_of_readNext h
    obtain ⟨ts, hrest, hts⟩ := ih
    refine ⟨t ++ ts, ?_, .cons ht hts⟩
    rw [List.append_assoc, ← hrest]

theorem denotes_readSteps (cs : List Char) : ∃ t, cs = t ++ (readSteps cs).2 ∧ Denotes (readSteps cs).1 t := by
  unfold readSteps
  split
  · exact ⟨[], rfl, .root⟩
  · next s rest h =>
    obtain ⟨t, rfl, ht⟩ := Step.opens_of_readFirst h
    obtain ⟨ts, hrest, hts⟩ := follows_readNexts rest
    refine ⟨t ++ ts, ?_, .steps ht hts⟩
    rw [List.append_assoc, ← hrest]

theorem Follows.stops (h : Follows p t) : Stops continuesIdentifier t := by
  cases h with
  | nil => simp [Stops]
  | cons hs => exact hs.stops _

theorem readNexts_follows (h : Follows p t) : readNexts t = (p, []) := by
  induction h with
  | nil => exact readNexts_of_none rfl
  | cons hs hp ih => rw [readNexts_of_readNext (Step.readNext_follows hs hp.stops), ih]

theorem readSteps_denotes (h : Denotes p t) : readSteps t = (p, []) := by
  cases h with
  | root => rfl
  | steps hs hp => rw [readSteps_of_readFirst (Step.readFirst_opens hs hp.stops), readNexts_follows hp]

theorem length_readNexts_le (cs : List Char) : (readNexts cs).2.length ≤ cs.length := by
  obtain ⟨t, hcs, -⟩ := follows_readNexts cs
  have h := congrArg List.length hcs
  rw [List.length_append] at h
  omega

-- The last step is the only one that the text after the path can change.
theorem readNexts_reaches (h : Follows p t) (rest : List Char) :
    (readNexts (t ++ rest)).2.length ≤ rest.length := by
  induction h with
  | nil => exact length_readNexts_le rest
  | @cons s p t ts hs hp ih =>
    rw [List.append_assoc]
    cases hp with
    | nil =>
      obtain ⟨s', rest', hread, hle⟩ := Step.readNext_reaches hs rest
      rw [List.nil_append, readNexts_of_readNext hread]
      exact Nat.le_trans (length_readNexts_le rest') hle
    | cons hs' hp' =>
      rw [readNexts_of_readNext (Step.readNext_follows hs (List.append_assoc .. ▸ hs'.stops _))]
      exact ih

theorem readSteps_reaches (h : Denotes p t) (rest : List Char) :
    (readSteps (t ++ rest)).2.length ≤ rest.length := by
  cases h with
  | root =>
    obtain ⟨t, hrest, -⟩ := denotes_readSteps rest
    have h := congrArg List.length hrest
    rw [List.length_append] at h
    simp only [List.nil_append]
    omega
  | @steps s p t ts hs hp =>
    rw [List.append_assoc]
    cases hp with
    | nil =>
      obtain ⟨s', rest', hread, hle⟩ := Step.readFirst_reaches hs rest
      rw [List.nil_append, readSteps_of_readFirst hread]
      exact Nat.le_trans (length_readNexts_le rest') hle
    | cons hs' hp' =>
      rw [readSteps_of_readFirst (Step.readFirst_opens hs (List.append_assoc .. ▸ hs'.stops _))]
      exact readNexts_reaches (.cons hs' hp') rest

/-- The reader stops after the longest initial part that denotes a path, and this path is what it gives. -/
theorem longest_readSteps (cs : List Char) :
    ∃ taken, cs = taken ++ (readSteps cs).2 ∧ Longest (readSteps cs).1 taken (readSteps cs).2 := by
  obtain ⟨taken, hcs, hdenotes⟩ := denotes_readSteps cs
  refine ⟨taken, hcs, hdenotes, ?_⟩
  intro q t r hsplit hq
  have hle := readSteps_reaches hq r
  rw [hsplit, ← hcs] at hle
  have hlength := congrArg List.length hsplit
  simp only [List.length_append] at hlength
  omega

theorem parse_eq_ok_iff {input : String} : parse input = .ok p ↔ Denotes p (Text.trim input.toList) := by
  obtain ⟨t, hcs, ht⟩ := denotes_readSteps (Text.trim input.toList)
  constructor
  · intro h
    unfold parse at h
    split at h
    · next hread =>
      cases h
      rw [hread] at hcs ht
      rw [hcs, List.append_nil]
      exact ht
    · cases h
  · intro h
    simp only [parse, readSteps_denotes h]

theorem parse_eq_error {input : String} {f : Fault} (h : parse input = .error f) :
    ∃ p taken rest, Text.trim input.toList = taken ++ rest ∧ rest ≠ [] ∧ Longest p taken rest ∧
      f = .trailing input (String.ofList rest) := by
  obtain ⟨taken, hcs, hlongest⟩ := longest_readSteps (Text.trim input.toList)
  cases hread : readSteps (Text.trim input.toList) with
  | mk p rest =>
    rw [hread] at hcs hlongest
    cases rest with
    | nil => simp [parse, hread] at h
    | cons c rest =>
      simp only [parse, hread, Except.error.injEq] at h
      exact ⟨p, taken, c :: rest, hcs, List.cons_ne_nil c rest, hlongest, h.symm⟩

theorem message_trailing (input rest : String) : (Error.path (.trailing input rest)).message =
    "Invalid path '" ++ input ++ "': unexpected trailing characters '" ++ rest ++ "'" := by
  have hmessage : (Error.path (.trailing input rest)).message =
      "Invalid path '" ++ input ++ "': " ++ ("unexpected trailing characters '" ++ rest ++ "'") := rfl
  have hjoin : "': unexpected trailing characters '" = "': " ++ "unexpected trailing characters '" := by decide
  simp only [hmessage, hjoin, String.append_assoc]

/-- A text is read just when it denotes a path. Any other text is refused, and the message names what comes after the
longest initial part that denotes one. -/
theorem parse_follows_grammar (input : String) :
    ∃ body, (∀ b, Text.Trimmed input.toList b ↔ b = body) ∧ (∀ p, parse input = .ok p ↔ Denotes p body) ∧
      ∀ f, parse input = .error f → (Error.path f).kind = .invalidPath ∧
        ∃ p taken rest, body = taken ++ rest ∧ rest ≠ [] ∧ Longest p taken rest ∧
          f = .trailing input (String.ofList rest) ∧
          (Error.path f).message = "Invalid path '" ++ input ++ "': unexpected trailing characters '" ++
            String.ofList rest ++ "'" := by
  refine ⟨Text.trim input.toList, fun b => Text.trimmed_iff, fun p => parse_eq_ok_iff, fun f h => ?_⟩
  obtain ⟨p, taken, rest, hsplit, hne, hlongest, rfl⟩ := parse_eq_error h
  exact ⟨rfl, p, taken, rest, hsplit, hne, hlongest, rfl, message_trailing input _⟩

theorem parse_follows_grammar_samples :
    parse " x[ 01\t](2 , 3).y_0\n" = .ok [.name "x", .index 1, .cell 2 3, .name "y_0"] ∧
      Denotes [.name "x", .index 1, .cell 2 3, .name "y_0"] "x[ 01\t](2 , 3).y_0".toList ∧
      parse "a.b(1,)[2]" = .error (.trailing "a.b(1,)[2]" "(1,)[2]") ∧
      ∃ p, Longest p "a.b".toList "(1,)[2]".toList := by
  have hread : parse " x[ 01\t](2 , 3).y_0\n" = .ok [.name "x", .index 1, .cell 2 3, .name "y_0"] := by
    have htrim : Text.trim " x[ 01\t](2 , 3).y_0\n".toList = "x[ 01\t](2 , 3).y_0".toList := by decide
    have hx : Step.readFirst "x[ 01\t](2 , 3).y_0".toList = some (.name "x", "[ 01\t](2 , 3).y_0".toList) := by decide
    have hindex : Step.readNext "[ 01\t](2 , 3).y_0".toList = some (.index 1, "(2 , 3).y_0".toList) := by decide
    have hcell : Step.readNext "(2 , 3).y_0".toList = some (.cell 2 3, ".y_0".toList) := by decide
    have hy : Step.readNext ".y_0".toList = some (.name "y_0", []) := by decide
    have hend : Step.readNext [] = none := rfl
    simp only [parse, htrim, readSteps_of_readFirst hx, readNexts_of_readNext hindex, readNexts_of_readNext hcell,
      readNexts_of_readNext hy, readNexts_of_none hend]
  have hrefused : parse "a.b(1,)[2]" = .error (.trailing "a.b(1,)[2]" "(1,)[2]") := by
    have htrim : Text.trim "a.b(1,)[2]".toList = "a.b(1,)[2]".toList := by decide
    have ha : Step.readFirst "a.b(1,)[2]".toList = some (.name "a", ".b(1,)[2]".toList) := by decide
    have hb : Step.readNext ".b(1,)[2]".toList = some (.name "b", "(1,)[2]".toList) := by decide
    have hnone : Step.readNext "(1,)[2]".toList = none := by decide
    simp only [parse, htrim, readSteps_of_readFirst ha, readNexts_of_readNext hb, readNexts_of_none hnone]
    rfl
  have htrimmed : Text.Trimmed " x[ 01\t](2 , 3).y_0\n".toList "x[ 01\t](2 , 3).y_0".toList :=
    ⟨⟨[' '], ['\n'], by decide⟩, by decide, by decide⟩
  obtain ⟨body, hbody, hdenotes, -⟩ := parse_follows_grammar " x[ 01\t](2 , 3).y_0\n"
  obtain rfl := (hbody _).mp htrimmed
  refine ⟨hread, (hdenotes _).mp hread, hrefused, ?_⟩
  have htrimmed : Text.Trimmed "a.b(1,)[2]".toList "a.b(1,)[2]".toList := ⟨⟨[], [], by decide⟩, by decide, by decide⟩
  obtain ⟨body, hbody, -, hrejected⟩ := parse_follows_grammar "a.b(1,)[2]"
  obtain rfl := (hbody _).mp htrimmed
  obtain ⟨-, p, taken, rest, hsplit, -, hlongest, hfault, -⟩ := hrejected _ hrefused
  have hrest : "(1,)[2]" = String.ofList rest := (Fault.trailing.inj hfault).2
  obtain rfl : "(1,)[2]".toList = rest := by rw [hrest, String.toList_ofList]
  have hfront : "a.b".toList ++ "(1,)[2]".toList = taken ++ "(1,)[2]".toList := hsplit
  obtain rfl := List.append_cancel_right hfront
  exact ⟨p, hlongest⟩

end Path
end QuantityLayout
