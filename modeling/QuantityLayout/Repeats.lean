set_option autoImplicit false

namespace QuantityLayout

variable {β : Type} [DecidableEq β]

/-- Looks for the first element that is among the ones seen or is a repeat. -/
def firstRepeatAfter (seen : List β) : List β → Option β
  | [] => none
  | x :: xs => if x ∈ seen then some x else firstRepeatAfter (x :: seen) xs

def firstRepeat (xs : List β) : Option β := firstRepeatAfter [] xs

theorem firstRepeatAfter_eq_none {seen xs : List β} :
    firstRepeatAfter seen xs = none ↔ xs.Nodup ∧ ∀ x ∈ xs, x ∉ seen := by
  induction xs generalizing seen with
  | nil => simp [firstRepeatAfter]
  | cons x xs ih =>
    unfold firstRepeatAfter
    split
    · next h => simp [h]
    · next h =>
      rw [ih, List.nodup_cons]
      grind

theorem firstRepeat_eq_none {xs : List β} : firstRepeat xs = none ↔ xs.Nodup := by
  simp [firstRepeat, firstRepeatAfter_eq_none]

theorem of_firstRepeatAfter {seen xs : List β} {x : β} (h : firstRepeatAfter seen xs = some x) :
    x ∈ xs ∧ (x ∈ seen ∨ 2 ≤ xs.count x) := by
  induction xs generalizing seen with
  | nil => cases h
  | cons y ys ih =>
    unfold firstRepeatAfter at h
    split at h
    · next hseen =>
      cases h
      exact ⟨List.mem_cons_self, .inl hseen⟩
    · obtain ⟨hmem, hx⟩ := ih h
      have hcount := List.count_cons (a := x) (b := y) (l := ys)
      refine ⟨List.mem_cons_of_mem y hmem, ?_⟩
      rcases hx with hx | hx
      · rcases List.mem_cons.mp hx with rfl | hx
        · have honce := List.count_pos_iff.mpr hmem
          rw [beq_self_eq_true] at hcount
          exact .inr (hcount ▸ Nat.succ_le_succ honce)
        · exact .inl hx
      · exact .inr (Nat.le_trans hx (hcount ▸ Nat.le_add_right ..))

theorem two_le_count_of_firstRepeat {xs : List β} {x : β} (h : firstRepeat xs = some x) : 2 ≤ xs.count x :=
  (of_firstRepeatAfter h).2.resolve_left List.not_mem_nil

theorem firstRepeatAfter_append {seen xs : List β} {x : β} (h : firstRepeatAfter seen xs = some x) (ys : List β) :
    firstRepeatAfter seen (xs ++ ys) = some x := by
  induction xs generalizing seen with
  | nil => cases h
  | cons y xs ih =>
    unfold firstRepeatAfter at h
    rw [List.cons_append, firstRepeatAfter]
    split at h
    · next hseen => rw [if_pos hseen, h]
    · next hseen => rw [if_neg hseen, ih h]

/-- What follows without a repeat of its own, and with nothing that was there before, makes no difference. -/
theorem firstRepeat_append {xs ys : List β} (hys : ys.Nodup) (hnew : ∀ y ∈ ys, y ∉ xs) :
    firstRepeat (xs ++ ys) = firstRepeat xs := by
  cases h : firstRepeat xs with
  | some x => exact firstRepeatAfter_append h ys
  | none =>
    have hxs := firstRepeat_eq_none.mp h
    exact firstRepeat_eq_none.mpr (List.nodup_append.mpr ⟨hxs, hys, fun x hx y hy heq => hnew y hy (heq ▸ hx)⟩)

end QuantityLayout
