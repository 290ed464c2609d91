import QuantityLayout.Matrix

set_option autoImplicit false

namespace QuantityLayout

variable {β γ : Type}

theorem grid_injective {n i i' j j' : Nat} (hj : j < n) (hj' : j' < n) (h : i * n + j = i' * n + j') :
    i = i' ∧ j = j' := by
  have hmod := congrArg (· % n) h
  simp only [Nat.mul_add_mod', Nat.mod_eq_of_lt hj, Nat.mod_eq_of_lt hj'] at hmod
  rw [hmod] at h
  exact ⟨Nat.eq_of_mul_eq_mul_right (Nat.zero_lt_of_lt hj) (Nat.add_right_cancel h), hmod⟩

theorem getElem?_rows {f : γ → List β} {n : Nat} (hf : ∀ x, (f x).length = n) (xs : List γ) (i : Nat) {j : Nat}
    (hj : j < n) : (xs.flatMap f)[i * n + j]? = xs[i]?.bind fun x => (f x)[j]? := by
  induction xs generalizing i with
  | nil => simp
  | cons x xs ih =>
    rw [List.flatMap_cons]
    cases i with
    | zero =>
      rw [Nat.zero_mul, Nat.zero_add, List.getElem?_append_left (by rwa [hf])]
      rfl
    | succ i =>
      have hnext : (i + 1) * n + j = (f x).length + (i * n + j) := by rw [hf, Nat.succ_mul]; omega
      rw [hnext, List.getElem?_append_right (Nat.le_add_right ..), Nat.add_sub_cancel_left, ih]
      rfl

theorem getElem?_grid_finRange {m n : Nat} (f : Fin m → Fin n → β) (i : Fin m) (j : Fin n) :
    ((List.finRange m).flatMap fun i => (List.finRange n).map (f i))[i.val * n + j.val]? = some (f i j) := by
  rw [getElem?_rows (fun i => by rw [List.length_map, List.length_finRange]) _ _ j.isLt]
  simp

namespace Matrix

theorem value?_eq {m : Matrix β} {r c : Nat} (hr : r < m.rows) (hc : c < m.cols) :
    m.value? r c = m.data[r * m.cols + c]? := by
  rw [value?, dif_pos ⟨hr, hc⟩]
  exact (List.getElem?_eq_getElem _).symm

theorem inside_of_value? {m : Matrix β} {r c : Nat} {x : β} (h : m.value? r c = some x) : r < m.rows ∧ c < m.cols := by
  rw [value?] at h
  split at h
  · next hin => exact hin
  · cases h

theorem entry_ofFn {rows cols : Nat} (f : Fin rows → Fin cols → β) (r : Fin rows) (c : Fin cols) :
    (ofFn rows cols f).entry r c = f r c := by
  apply Option.some.inj
  rw [← getElem?_grid_finRange f r c]
  exact (List.getElem?_eq_getElem _).symm

theorem value?_ofFn {rows cols r c : Nat} (f : Fin rows → Fin cols → β) (hr : r < rows) (hc : c < cols) :
    (ofFn rows cols f).value? r c = some (f ⟨r, hr⟩ ⟨c, hc⟩) := by
  have h : r < (ofFn rows cols f).rows ∧ c < (ofFn rows cols f).cols := ⟨hr, hc⟩
  rw [value?, dif_pos h]
  exact congrArg some (entry_ofFn f ⟨r, hr⟩ ⟨c, hc⟩)

end Matrix

namespace ColumnMatrix

theorem value?_eq {m : ColumnMatrix β} {r c : Nat} (hr : r < m.rows) (hc : c < m.cols) :
    m.value? r c = m.data[c * m.rows + r]? := by
  rw [value?, dif_pos ⟨hr, hc⟩]
  exact (List.getElem?_eq_getElem _).symm

theorem value?_ofFn {rows cols r c : Nat} (f : Fin rows → Fin cols → β) (hr : r < rows) (hc : c < cols) :
    (ofFn rows cols f).value? r c = some (f ⟨r, hr⟩ ⟨c, hc⟩) := by
  rw [value?_eq (m := ofFn rows cols f) hr hc]
  exact getElem?_grid_finRange (fun c r => f r c) ⟨c, hc⟩ ⟨r, hr⟩

theorem value?_toRows (m : ColumnMatrix β) (r c : Nat) : m.toRows.value? r c = m.value? r c := by
  by_cases h : r < m.rows ∧ c < m.cols
  · rw [ColumnMatrix.value?, dif_pos h]
    exact Matrix.value?_ofFn m.entry h.1 h.2
  · rw [ColumnMatrix.value?, dif_neg h]
    exact dif_neg h

end ColumnMatrix

namespace Matrix

end Matrix

end QuantityLayout
