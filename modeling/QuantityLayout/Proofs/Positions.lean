import Std.Data.HashMap

set_option autoImplicit false

namespace QuantityLayout

theorem getElem?_push_iff {β : Type} {l : List β} {a b : β} {i : Nat} :
    (l ++ [a])[i]? = some b ↔ l[i]? = some b ∨ i = l.length ∧ a = b := by
  rw [List.getElem?_append]
  by_cases hlt : i < l.length
  · have hne : i ≠ l.length := by omega
    simp [hlt, hne]
  · have hnone : l[i]? = none := List.getElem?_eq_none (by omega)
    simp only [hlt, if_false, hnone, List.getElem?_singleton]
    by_cases heq : i = l.length
    · simp [heq]
    · have hpos : i - l.length ≠ 0 := by omega
      simp [heq, hpos]

variable {κ : Type} [BEq κ] [LawfulBEq κ] [Hashable κ]

def Positions (m : Std.HashMap κ Nat) (keys : List κ) : Prop :=
  ∀ (k : κ) (i : Nat), m[k]? = some i ↔ keys[i]? = some k

namespace Positions

variable {m : Std.HashMap κ Nat} {keys : List κ} {k : κ}

theorem empty : Positions (∅ : Std.HashMap κ Nat) [] := fun k i => by simp

theorem contains_iff (h : Positions m keys) (k : κ) : m.contains k ↔ k ∈ keys := by
  rw [Std.HashMap.contains_eq_isSome_getElem?, Option.isSome_iff_exists, List.mem_iff_getElem?]
  exact exists_congr fun i => h k i

theorem insert (h : Positions m keys) (hk : k ∉ keys) : Positions (m.insert k keys.length) (keys ++ [k]) := by
  intro k' i
  rw [getElem?_push_iff, ← h, Std.HashMap.getElem?_insert]
  by_cases heq : k = k'
  · subst heq
    have hnone : ∀ i, m[k]? ≠ some i := fun i hi => hk (List.mem_of_getElem? ((h k i).mp hi))
    simp [hnone, eq_comm]
  · simp [heq]

end Positions
end QuantityLayout
