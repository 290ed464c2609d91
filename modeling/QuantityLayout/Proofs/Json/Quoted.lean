import QuantityLayout.Json.Quoted

set_option autoImplicit false

namespace QuantityLayout.Json.Quoted

def Piece.Makes (p : Piece) (c : Char) : Prop := ∀ ps, join (p :: ps) = (join ps).map (c :: ·)

theorem makes_char (c : Char) : (Piece.char c).Makes c := fun ps => by rw [join]

theorem makes_control {c : Char} (hc : c.toNat < 0x20) : (Piece.unit c.toNat).Makes c := by
  have hhigh : isHigh c.toNat = false := by
    rw [isHigh, Bool.and_eq_false_imp]
    intro h
    have := of_decide_eq_true h
    omega
  have hlow : isLow c.toNat = false := by
    rw [isLow, Bool.and_eq_false_imp]
    intro h
    have := of_decide_eq_true h
    omega
  intro ps
  rcases ps with _ | ⟨_ | _, ps⟩ <;> simp [join, hhigh, hlow]

theorem codeUnit_hexDigit {n : Nat} (hn : n < 0x20) :
    codeUnit '0' '0' (hexDigit (n / 16)) (hexDigit (n % 16)) = some n := by
  have hall : ∀ n < 0x20, codeUnit '0' '0' (hexDigit (n / 16)) (hexDigit (n % 16)) = some n := by decide
  exact hall n hn

variable {c e : Char} {cs rest : List Char} {ps : List Piece}

theorem readPieces_short (hback : unescape e = some c) (h : readPieces cs = some (ps, rest)) :
    readPieces ('\\' :: e :: cs) = some (.char c :: ps, rest) := by
  have hu : e ≠ 'u' := by
    rintro rfl
    cases hback
  rw [readPieces, hback, h]
  intro _ _ _ _ _ heq
  exact absurd heq hu

theorem readPieces_control (hc : c.toNat < 0x20) (h : readPieces cs = some (ps, rest)) :
    readPieces ('\\' :: 'u' :: '0' :: '0' :: hexDigit (c.toNat / 16) :: hexDigit (c.toNat % 16) :: cs)
      = some (.unit c.toNat :: ps, rest) := by
  rw [readPieces, codeUnit_hexDigit hc, h]

theorem readPieces_plain (hquote : c ≠ '"') (hslash : c ≠ '\\') (hc : ¬ c.toNat < 0x20)
    (h : readPieces cs = some (ps, rest)) : readPieces (c :: cs) = some (.char c :: ps, rest) := by
  rw [readPieces, if_neg (by simp [hslash, hc]), h]
  · exact fun heq => absurd heq hquote
  · exact fun _ _ _ _ _ heq => absurd heq hslash
  · exact fun _ _ heq => absurd heq hslash

theorem escape_cases (c : Char) :
    (∃ e, escape c = ['\\', e] ∧ unescape e = some c) ∨
      (c.toNat < 0x20 ∧ escape c = ['\\', 'u', '0', '0', hexDigit (c.toNat / 16), hexDigit (c.toNat % 16)]) ∨
      (c ≠ '"' ∧ c ≠ '\\' ∧ ¬ c.toNat < 0x20 ∧ escape c = [c]) := by
  by_cases hquote : c = '"'
  · subst hquote
    exact .inl ⟨_, rfl, rfl⟩
  by_cases hslash : c = '\\'
  · subst hslash
    exact .inl ⟨_, rfl, rfl⟩
  by_cases hback : c = '\x08'
  · subst hback
    exact .inl ⟨_, rfl, rfl⟩
  by_cases hfeed : c = '\x0c'
  · subst hfeed
    exact .inl ⟨_, rfl, rfl⟩
  by_cases hline : c = '\n'
  · subst hline
    exact .inl ⟨_, rfl, rfl⟩
  by_cases hreturn : c = '\r'
  · subst hreturn
    exact .inl ⟨_, rfl, rfl⟩
  by_cases htab : c = '\t'
  · subst htab
    exact .inl ⟨_, rfl, rfl⟩
  rw [escape, if_neg hquote, if_neg hslash, if_neg hback, if_neg hfeed, if_neg hline, if_neg hreturn, if_neg htab]
  by_cases hc : c.toNat < 0x20
  · exact .inr (.inl ⟨hc, if_pos hc⟩)
  · exact .inr (.inr ⟨hquote, hslash, hc, if_neg hc⟩)

theorem exists_piece (c : Char) : ∃ p : Piece, p.Makes c ∧
    ∀ cs ps rest, readPieces cs = some (ps, rest) → readPieces (escape c ++ cs) = some (p :: ps, rest) := by
  obtain ⟨e, he, hback⟩ | ⟨hc, he⟩ | ⟨hquote, hslash, hc, he⟩ := escape_cases c <;> rw [he]
  · exact ⟨.char c, makes_char c, fun _ _ _ => readPieces_short hback⟩
  · exact ⟨.unit c.toNat, makes_control hc, fun _ _ _ => readPieces_control hc⟩
  · exact ⟨.char c, makes_char c, fun _ _ _ => readPieces_plain hquote hslash hc⟩

theorem read_chars (s : List Char) : ∃ ps, join ps = some s ∧
    ∀ rest, readPieces (s.flatMap escape ++ '"' :: rest) = some (ps, rest) := by
  induction s with
  | nil => exact ⟨[], rfl, fun rest => by rw [List.flatMap_nil, List.nil_append, readPieces]⟩
  | cons c s ih =>
    obtain ⟨ps, hjoin, hread⟩ := ih
    obtain ⟨p, hmakes, hpiece⟩ := exists_piece c
    refine ⟨p :: ps, by rw [hmakes, hjoin, Option.map_some], fun rest => ?_⟩
    rw [List.flatMap_cons, List.append_assoc]
    exact hpiece _ _ _ (hread rest)

end QuantityLayout.Json.Quoted
