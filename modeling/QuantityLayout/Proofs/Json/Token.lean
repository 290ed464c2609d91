import QuantityLayout.Json.Token
import QuantityLayout.Proofs.Json.Number
import QuantityLayout.Proofs.Json.Quoted

set_option autoImplicit false

namespace QuantityLayout.Json.Token

open Text (isGap skipGap Stops)

variable {c : Char} {cs gap rest : List Char} {t : Token} {ts : List Token}

theorem readAll_eq (cs : List Char) : readAll cs = match skipGap cs with
    | [] => some []
    | c :: cs => (read (c :: cs)).bind fun e => (readAll e.2).map (e.1 :: ·) := by
  rw [readAll]
  split
  · next h => rw [h]
  · next c r h =>
    rw [h]
    split
    · next ht => simp only [ht, Option.bind_some]
    · next ht => simp only [ht, Option.bind_none]

theorem readAll_nil : readAll [] = some [] := readAll_eq []

theorem readAll_gap (hgap : ∀ c ∈ gap, isGap c) : readAll (gap ++ cs) = readAll cs := by
  have hskip : skipGap (gap ++ cs) = skipGap cs := List.dropWhile_append_of_pos hgap
  rw [readAll_eq, hskip, ← readAll_eq]

theorem readAll_cons (hc : isGap c = false) (ht : read (c :: cs) = some (t, rest)) (hrest : readAll rest = some ts) :
    readAll (c :: cs) = some (t :: ts) := by
  have hskip : skipGap (c :: cs) = c :: cs := List.dropWhile_cons_of_neg (by simp [hc])
  rw [readAll_eq, hskip]
  simp only [ht, Option.bind_some, hrest, Option.map_some]

theorem readAll_comma (hrest : readAll rest = some ts) : readAll (',' :: rest) = some (.comma :: ts) :=
  readAll_cons (by decide) rfl hrest

theorem readAll_colon (hrest : readAll rest = some ts) : readAll (':' :: rest) = some (.colon :: ts) :=
  readAll_cons (by decide) rfl hrest

theorem readAll_closeList (hrest : readAll rest = some ts) : readAll (']' :: rest) = some (.closeList :: ts) :=
  readAll_cons (by decide) rfl hrest

theorem readAll_closeRecord (hrest : readAll rest = some ts) : readAll ('}' :: rest) = some (.closeRecord :: ts) :=
  readAll_cons (by decide) rfl hrest

theorem readAll_quoted (s : String) (hrest : readAll rest = some ts) :
    readAll (Quoted.chars s.toList ++ rest) = some (.text (some s) :: ts) := by
  obtain ⟨ps, hjoin, hread⟩ := Quoted.read_chars s.toList
  have htext : read (Quoted.chars s.toList ++ rest) = some (.text (some s), rest) := by
    have hback : String.ofList s.toList = s := String.ofList_toList
    simp [Quoted.chars, read, readText, hread, hjoin, hback]
  exact readAll_cons (by decide) htext hrest

theorem read_eq_readNumber (hc : c.isDigit ∨ c = '-') (cs : List Char) : read (c :: cs) = readNumber (c :: cs) := by
  rw [read]
  all_goals
    intro _ heq
    cases heq
    revert hc
    decide

theorem isGap_of_front (hc : c.isDigit ∨ c = '-') : isGap c = false := by
  rcases hc with hdigit | rfl
  · exact Text.isGap_of_isDigit hdigit
  · decide

theorem readAll_number {n : Number} (hn : n.Standard) (hstop : Stops Number.continues rest)
    (hrest : readAll rest = some ts) : readAll (n.chars ++ rest) = some (.number n :: ts) := by
  obtain ⟨c, cs, hcs, hc⟩ := Number.exists_front hn rest
  have hread := Number.read_chars hn hstop
  rw [hcs] at hread ⊢
  refine readAll_cons (isGap_of_front hc) ?_ hrest
  rw [read_eq_readNumber hc, readNumber, hread]

end QuantityLayout.Json.Token
