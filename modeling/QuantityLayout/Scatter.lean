set_option autoImplicit false

namespace QuantityLayout

def scatter {β : Type} (size : Nat) (default : β) (entries : List (Nat × β)) : List β :=
  (entries.foldl (fun m (i, x) => m.setIfInBounds i x) (Array.replicate size default)).toList

/-- A write outside the list stops the program. -/
def scatter? {β : Type} (size : Nat) (default : β) (entries : List (Nat × β)) : Option (List β) :=
  if ∀ e ∈ entries, e.1 < size then some (scatter size default entries) else none

theorem scatter?_eq_some {β : Type} {size : Nat} {default : β} {entries : List (Nat × β)} {xs : List β} :
    scatter? size default entries = some xs ↔ (∀ e ∈ entries, e.1 < size) ∧ scatter size default entries = xs := by
  simp [scatter?]

theorem length_scatter {β : Type} (size : Nat) (default : β) (entries : List (Nat × β)) :
    (scatter size default entries).length = size := by
  suffices h : ∀ m : Array β,
      (entries.foldl (fun m (i, x) => m.setIfInBounds i x) m).size = m.size by
    simp [scatter, h]
  induction entries with
  | nil => simp
  | cons e es ih => intro m; simp [ih]

theorem getElem?_writes_of_not_mem {β : Type} {entries : List (Nat × β)} {i : Nat} (h : i ∉ entries.map Prod.fst)
    (m : Array β) : (entries.foldl (fun m (i, x) => m.setIfInBounds i x) m)[i]? = m[i]? := by
  induction entries generalizing m with
  | nil => rfl
  | cons e es ih =>
    rw [List.map_cons, List.mem_cons, not_or] at h
    rw [List.foldl_cons, ih h.2, Array.getElem?_setIfInBounds_ne (Ne.symm h.1)]

theorem getElem?_writes_of_mem {β : Type} {entries : List (Nat × β)} (hkeys : (entries.map Prod.fst).Nodup) {i : Nat}
    {x : β} (hx : (i, x) ∈ entries) {m : Array β} (hi : i < m.size) :
    (entries.foldl (fun m (i, x) => m.setIfInBounds i x) m)[i]? = some x := by
  induction entries generalizing m with
  | nil => cases hx
  | cons e es ih =>
    obtain ⟨he, hes⟩ := List.nodup_cons.mp hkeys
    rcases List.mem_cons.mp hx with rfl | hx
    · rw [List.foldl_cons, getElem?_writes_of_not_mem he, Array.getElem?_setIfInBounds_self_of_lt hi]
    · exact ih hes hx (by rwa [Array.size_setIfInBounds])

theorem getElem?_scatter_of_not_mem {β : Type} {size : Nat} {default : β} {entries : List (Nat × β)} {i : Nat}
    (h : i ∉ entries.map Prod.fst) (hi : i < size) : (scatter size default entries)[i]? = some default := by
  rw [scatter, Array.getElem?_toList, getElem?_writes_of_not_mem h, Array.getElem?_replicate, if_pos hi]

/-- Where no position is written twice, what was written stays. -/
theorem getElem?_scatter_of_mem {β : Type} {size : Nat} {default : β} {entries : List (Nat × β)}
    (hkeys : (entries.map Prod.fst).Nodup) {i : Nat} {x : β} (hx : (i, x) ∈ entries) (hi : i < size) :
    (scatter size default entries)[i]? = some x := by
  rw [scatter, Array.getElem?_toList, getElem?_writes_of_mem hkeys hx (by rwa [Array.size_replicate])]

end QuantityLayout
