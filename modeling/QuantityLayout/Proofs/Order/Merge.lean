import QuantityLayout.Order.Resolve

set_option autoImplicit false

namespace QuantityLayout.RoundRobin

variable {β : Type}

theorem length_le_longest {columns : List (List β)} {c : List β} (h : c ∈ columns) :
    c.length ≤ longest columns := by
  induction columns with
  | nil => simp at h
  | cons d ds ih =>
    have hd : longest (d :: ds) = max d.length (longest ds) := rfl
    rw [hd]
    rcases List.mem_cons.mp h with rfl | h
    · exact Nat.le_max_left ..
    · exact Nat.le_trans (ih h) (Nat.le_max_right ..)

theorem heads_tails_perm (columns : List (List β)) :
    (columns.filterMap List.head? ++ (columns.map List.tail).flatten).Perm columns.flatten := by
  induction columns with
  | nil => simp
  | cons c cs ih =>
    cases c with
    | nil => simpa [List.filterMap_cons] using ih
    | cons x c =>
      have hmove : (cs.filterMap List.head? ++ (c ++ (cs.map List.tail).flatten)).Perm
          (c ++ (cs.filterMap List.head? ++ (cs.map List.tail).flatten)) := List.perm_append_comm_assoc ..
      simpa using (hmove.trans (ih.append_left c)).cons x

theorem length_tails_le {n : Nat} {columns : List (List β)} (h : ∀ c ∈ columns, c.length ≤ n + 1) :
    ∀ c ∈ columns.map List.tail, c.length ≤ n := by
  intro c hc
  obtain ⟨d, hd, rfl⟩ := List.mem_map.mp hc
  have hlength := h d hd
  rw [List.length_tail]
  omega

theorem rounds_perm (n : Nat) (columns : List (List β)) (h : ∀ c ∈ columns, c.length ≤ n) :
    (rounds n columns).Perm columns.flatten := by
  induction n generalizing columns with
  | zero =>
    have hnil : ∀ c ∈ columns, c = [] := fun c hc => List.length_eq_zero_iff.mp (Nat.le_zero.mp (h c hc))
    rw [List.flatten_eq_nil_iff.mpr hnil]
    exact .refl _
  | succ n ih => exact ((ih _ (length_tails_le h)).append_left _).trans (heads_tails_perm columns)

theorem merge_perm (columns : List (List β)) : (merge columns).Perm columns.flatten :=
  rounds_perm _ _ fun _ hc => length_le_longest hc

theorem sublist_rounds (n : Nat) {columns : List (List β)} {c : List β} (hc : c ∈ columns) (hn : c.length ≤ n) :
    c.Sublist (rounds n columns) := by
  induction n generalizing columns c with
  | zero =>
    rw [List.length_eq_zero_iff.mp (Nat.le_zero.mp hn)]
    exact List.nil_sublist _
  | succ n ih =>
    have htail : c.tail.Sublist (rounds n (columns.map List.tail)) := by
      refine ih (List.mem_map_of_mem hc) ?_
      rw [List.length_tail]
      omega
    cases c with
    | nil => exact List.nil_sublist _
    | cons x c =>
      have hhead : [x].Sublist (columns.filterMap List.head?) :=
        List.singleton_sublist.mpr (List.mem_filterMap.mpr ⟨_, hc, rfl⟩)
      exact hhead.append htail

/-- However the turns of the other columns fall, a column is met in its own sequence. -/
theorem sublist_merge {columns : List (List β)} {c : List β} (hc : c ∈ columns) : c.Sublist (merge columns) :=
  sublist_rounds _ hc (length_le_longest hc)

theorem rounds_singleton (c : List β) : rounds c.length [c] = c := by
  induction c with
  | nil => rfl
  | cons x c ih => exact congrArg (x :: ·) ih

theorem merge_singleton (c : List β) : merge [c] = c := by
  have hlongest : longest [c] = c.length := Nat.max_zero _
  rw [merge, hlongest, rounds_singleton]

variable {γ : Type}

theorem longest_map (g : β → γ) (columns : List (List β)) : longest (columns.map (List.map g)) = longest columns := by
  rw [longest, longest, List.foldr_map]
  simp only [List.length_map]

theorem rounds_map (g : β → γ) (n : Nat) (columns : List (List β)) :
    rounds n (columns.map (List.map g)) = (rounds n columns).map g := by
  induction n generalizing columns with
  | zero => rfl
  | succ n ih =>
    have htails : (columns.map (List.map g)).map List.tail = (columns.map List.tail).map (List.map g) := by
      simp [Function.comp_def]
    have hheads : (columns.map (List.map g)).filterMap List.head? = (columns.filterMap List.head?).map g := by
      rw [List.filterMap_map, List.map_filterMap]
      exact congrArg (List.filterMap · columns) (funext fun c => List.head?_map)
    rw [rounds, rounds, htails, ih, hheads, List.map_append]

theorem merge_map (g : β → γ) (columns : List (List β)) :
    merge (columns.map (List.map g)) = (merge columns).map g := by
  rw [merge, merge, longest_map, rounds_map]

end QuantityLayout.RoundRobin
