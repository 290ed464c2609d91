import QuantityLayout.Text.Numeral

set_option autoImplicit false

namespace QuantityLayout

inductive Policy.Omission where
  | appendOmitted
  | requireComplete
  deriving DecidableEq, Repr

inductive Policy.Interleaving where
  | allowRagged
  | requireEqual
  deriving DecidableEq, Repr

structure Policy where
  omission : Policy.Omission
  interleaving : Policy.Interleaving
  deriving DecidableEq, Repr

namespace Policy

def permissive : Policy := ⟨.appendOmitted, .allowRagged⟩

def strict : Policy := ⟨.requireComplete, .requireEqual⟩

def descending : List Nat → Bool
  | a :: b :: cs => b ≤ a && descending (b :: cs)
  | _ => true

/-- Ragged counts never grow along the tuple, and the first is not above any of them with one added. -/
def Interleaving.acceptsBy (succ : Nat → Nat) : Interleaving → List Nat → Bool
  | _, [] => true
  | .requireEqual, c :: cs => (c :: cs).all (· == c)
  | .allowRagged, c :: cs => descending (c :: cs) && (c :: cs).all (c ≤ succ ·)

/-- The check of any counts. One is added in 64 bits, which leaves nothing of the greatest count. -/
def Interleaving.accepts : Interleaving → List Nat → Bool := acceptsBy fun c => word (c + 1)

/-- The check of lengths of stored lists, which never reach the greatest count. -/
def Interleaving.acceptsLengths : Interleaving → List Nat → Bool := acceptsBy (· + 1)

theorem descending_iff (cs : List Nat) : descending cs ↔ cs.Pairwise (fun a b => b ≤ a) := by
  induction cs with
  | nil => simp [descending]
  | cons a cs ih =>
    cases cs with
    | nil => simp [descending]
    | cons b cs =>
      simp only [descending, Bool.and_eq_true, decide_eq_true_eq, ih, List.pairwise_cons, List.mem_cons]
      constructor
      · rintro ⟨hb, h, hc⟩
        refine ⟨?_, h, hc⟩
        rintro x (rfl | hx)
        · exact hb
        · exact Nat.le_trans (h x hx) hb
      · rintro ⟨h, h', hc⟩
        exact ⟨h b (.inl rfl), h', hc⟩

end Policy
end QuantityLayout
