import QuantityLayout.Path.Basic
import QuantityLayout.Text.Blank
/-!
Reading the text of a path. White space around the whole text does not count, and gaps may surround a number.
Reading goes as far as it can; what is left over is the complaint.
-/
set_option autoImplicit false

namespace QuantityLayout

open Text (readIdentifier readNumeral)

namespace Step

def readIndex : List Char → Option (Step × List Char)
  | '[' :: cs =>
    match readNumeral cs with
    | some (i, ']' :: rest) => some (.index i, rest)
    | _ => none
  | _ => none

def readCell : List Char → Option (Step × List Char)
  | '(' :: cs =>
    match readNumeral cs with
    | some (k, ')' :: rest) => some (.element k, rest)
    | some (r, ',' :: cs) =>
      match readNumeral cs with
      | some (c, ')' :: rest) => some (.cell r c, rest)
      | _ => none
    | _ => none
  | _ => none

def readName (cs : List Char) : Option (Step × List Char) :=
  (readIdentifier cs).map fun (n, rest) => (.name n, rest)

def readFirst (cs : List Char) : Option (Step × List Char) :=
  (readName cs).or ((readIndex cs).or (readCell cs))

def readNext : List Char → Option (Step × List Char)
  | '.' :: cs => readName cs
  | cs => (readIndex cs).or (readCell cs)

theorem readIndex_shorter {cs rest : List Char} {s : Step}
    (h : readIndex cs = some (s, rest)) : rest.length < cs.length := by
  unfold readIndex at h
  split at h
  · split at h
    · next hn =>
      simp only [Option.some.injEq, Prod.mk.injEq] at h
      have := Text.readNumeral_shorter hn
      simp only [List.length_cons, ← h.2] at this ⊢
      omega
    · simp at h
  · simp at h

theorem readCell_shorter {cs rest : List Char} {s : Step}
    (h : readCell cs = some (s, rest)) : rest.length < cs.length := by
  unfold readCell at h
  split at h
  · split at h
    · next hn =>
      simp only [Option.some.injEq, Prod.mk.injEq] at h
      have := Text.readNumeral_shorter hn
      simp only [List.length_cons, ← h.2] at this ⊢
      omega
    · next hn =>
      split at h
      · next hm =>
        simp only [Option.some.injEq, Prod.mk.injEq] at h
        have h1 := Text.readNumeral_shorter hn
        have h2 := Text.readNumeral_shorter hm
        simp only [List.length_cons, ← h.2] at h1 h2 ⊢
        omega
      · simp at h
    · simp at h
  · simp at h

theorem readName_shorter {cs rest : List Char} {s : Step}
    (h : readName cs = some (s, rest)) : rest.length < cs.length := by
  simp only [readName, Option.map_eq_some_iff] at h
  obtain ⟨⟨n, r⟩, hr, he⟩ := h
  cases he
  exact Text.readIdentifier_shorter hr

theorem readNext_shorter {cs rest : List Char} {s : Step}
    (h : readNext cs = some (s, rest)) : rest.length < cs.length := by
  unfold readNext at h
  split at h
  · exact Nat.lt_succ_of_lt (readName_shorter h)
  · rcases Option.or_eq_some_iff.mp h with h | ⟨_, h⟩
    · exact readIndex_shorter h
    · exact readCell_shorter h

end Step

namespace Path

def readNexts (cs : List Char) : Path × List Char :=
  match _h : Step.readNext cs with
  | none => ([], cs)
  | some (s, rest) => ((s :: (readNexts rest).1), (readNexts rest).2)
termination_by cs.length
decreasing_by all_goals exact Step.readNext_shorter _h

def readSteps (cs : List Char) : Path × List Char :=
  match Step.readFirst cs with
  | none => ([], cs)
  | some (s, rest) => ((s :: (readNexts rest).1), (readNexts rest).2)

def parse (input : String) : Except Fault Path :=
  match readSteps (Text.trim input.toList) with
  | (p, []) => .ok p
  | (_, rest) => .error (.trailing input (String.ofList rest))

end Path
end QuantityLayout
