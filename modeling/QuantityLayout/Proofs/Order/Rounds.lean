import QuantityLayout.Policy
import QuantityLayout.Proofs.Order.Merge
/-!
Numbers of slots that fill every round but the last one. If the columns have such numbers, taking turns leaves no gap:
with `k` columns, slot `i` of column `j` comes at position `i * k + j`.
-/
set_option autoImplicit false

namespace QuantityLayout

namespace Policy

/-- The counts never grow, and no two of them differ by more than one. -/
structure Even (counts : List Nat) : Prop where
  descending : counts.Pairwise fun a b => b ≤ a
  close : ∀ a ∈ counts, ∀ b ∈ counts, a ≤ b + 1

theorem even_of_accepts {policy : Interleaving} {counts : List Nat} (h : policy.acceptsLengths counts) : Even counts := by
  cases counts with
  | nil => exact ⟨List.Pairwise.nil, nofun⟩
  | cons c cs =>
    cases policy with
    | allowRagged =>
      simp only [Interleaving.acceptsLengths, Interleaving.acceptsBy, Bool.and_eq_true, descending_iff, List.all_eq_true,
        decide_eq_true_eq] at h
      obtain ⟨hdescending, hlast⟩ := h
      have hfirst : ∀ a ∈ c :: cs, a ≤ c := List.forall_mem_cons.mpr ⟨Nat.le_refl c, (List.pairwise_cons.mp hdescending).1⟩
      exact ⟨hdescending, fun a ha b hb => Nat.le_trans (hfirst a ha) (hlast b hb)⟩
    | requireEqual =>
      simp only [Interleaving.acceptsLengths, Interleaving.acceptsBy, List.all_eq_true, beq_iff_eq] at h
      have hsame : ∀ a ∈ c :: cs, a = c := h
      have hreplicate : c :: cs = List.replicate (cs.length + 1) c := List.eq_replicate_iff.mpr ⟨rfl, hsame⟩
      refine ⟨hreplicate ▸ List.pairwise_replicate.mpr (.inr (Nat.le_refl c)), fun a ha b hb => ?_⟩
      rw [hsame a ha, hsame b hb]
      exact Nat.le_succ c

end Policy

namespace RoundRobin

open Policy (Even)

variable {β : Type} {columns : List (List β)}

theorem even_tails (h : Even (columns.map List.length)) : Even ((columns.map List.tail).map List.length) := by
  have htails : (columns.map List.tail).map List.length = (columns.map List.length).map (· - 1) := by
    simp only [List.map_map, Function.comp_def, List.length_tail]
  rw [htails]
  refine ⟨List.pairwise_map.mpr (h.descending.imp fun hab => Nat.sub_le_sub_right hab 1), fun a' ha' b' hb' => ?_⟩
  obtain ⟨a, ha, rfl⟩ := List.mem_map.mp ha'
  obtain ⟨b, hb, rfl⟩ := List.mem_map.mp hb'
  have hclose := h.close a ha b hb
  omega

/-- The columns that still have a slot come first, so the heads of a round stand at the positions of their columns. -/
theorem getElem?_heads (h : (columns.map List.length).Pairwise fun a b => b ≤ a) (j : Nat) :
    (columns.filterMap List.head?)[j]? = columns[j]?.bind (·[0]?) := by
  induction columns generalizing j with
  | nil => rfl
  | cons c cs ih =>
    obtain ⟨hc, hcs⟩ := List.pairwise_cons.mp h
    cases c with
    | nil =>
      have hnil : ∀ d ∈ [] :: cs, d = [] := List.forall_mem_cons.mpr
        ⟨rfl, fun d hd => List.length_eq_zero_iff.mp (Nat.le_zero.mp (hc _ (List.mem_map_of_mem hd)))⟩
      have hheads : ([] :: cs).filterMap List.head? = [] :=
        List.filterMap_eq_nil_iff.mpr fun d hd => hnil d hd ▸ rfl
      rw [hheads]
      cases hd : ([] :: cs)[j]? with
      | none => rfl
      | some d =>
        rw [hnil d (List.mem_of_getElem? hd)]
        rfl
    | cons x c =>
      cases j with
      | zero => rfl
      | succ j => exact ih hcs j

theorem length_heads (h : ∀ c ∈ columns, c ≠ []) : (columns.filterMap List.head?).length = columns.length := by
  induction columns with
  | nil => rfl
  | cons c cs ih =>
    obtain ⟨hc, hcs⟩ := List.forall_mem_cons.mp h
    obtain ⟨x, c, rfl⟩ := List.exists_cons_of_ne_nil hc
    simp [ih hcs]

theorem length_le_one (h : Even (columns.map List.length)) (hnil : [] ∈ columns) : ∀ c ∈ columns, c.length ≤ 1 :=
  fun _ hc => h.close _ (List.mem_map_of_mem hc) _ (List.mem_map_of_mem hnil)

theorem rounds_tails_eq_nil (h : Even (columns.map List.length)) (hnil : [] ∈ columns) (n : Nat) :
    rounds n (columns.map List.tail) = [] := by
  have hempty := length_tails_le (length_le_one h hnil)
  have hperm := rounds_perm n _ fun c hc => Nat.le_trans (hempty c hc) (Nat.zero_le n)
  rw [List.flatten_eq_nil_iff.mpr fun c hc => List.length_eq_zero_iff.mp (Nat.le_zero.mp (hempty c hc))] at hperm
  exact hperm.eq_nil

theorem getElem?_rounds (n : Nat) (h : Even (columns.map List.length)) (hn : ∀ c ∈ columns, c.length ≤ n) {i j : Nat}
    (hj : j < columns.length) : (rounds n columns)[i * columns.length + j]? = columns[j]?.bind (·[i]?) := by
  induction n generalizing columns i with
  | zero =>
    have hnil : columns[j] = [] := List.length_eq_zero_iff.mp (Nat.le_zero.mp (hn _ (List.getElem_mem hj)))
    rw [List.getElem?_eq_getElem hj, Option.bind_some, hnil]
    rfl
  | succ n ih =>
    have hheads := getElem?_heads h.descending j
    rw [rounds]
    -- a full round moves all positions by the number of columns; after a round that is short nothing comes
    by_cases hnil : [] ∈ columns
    · rw [rounds_tails_eq_nil h hnil, List.append_nil]
      cases i with
      | zero => rwa [Nat.zero_mul, Nat.zero_add]
      | succ i =>
        -- this is the last round, and no column has a slot for a later one
        have hone := length_le_one h hnil _ (List.getElem_mem hj)
        have hle : (columns.filterMap List.head?).length ≤ columns.length := List.length_filterMap_le ..
        have hbeyond : columns.length ≤ (i + 1) * columns.length + j := by
          rw [Nat.succ_mul]
          omega
        rw [List.getElem?_eq_none (Nat.le_trans hle hbeyond), List.getElem?_eq_getElem hj, Option.bind_some,
          List.getElem?_eq_none (Nat.le_trans hone (Nat.le_add_left 1 i))]
    · have hlength : (columns.filterMap List.head?).length = columns.length :=
        length_heads fun c hc heq => hnil (heq ▸ hc)
      cases i with
      | zero => rwa [Nat.zero_mul, Nat.zero_add, List.getElem?_append_left (hlength ▸ hj)]
      | succ i =>
        have hrest := ih (even_tails h) (length_tails_le hn) (i := i) (by rwa [List.length_map])
        have hposition : (i + 1) * columns.length + j = (columns.filterMap List.head?).length + (i * columns.length + j) := by
          rw [hlength, Nat.succ_mul]
          omega
        rw [List.length_map] at hrest
        rw [hposition, List.getElem?_append_right (Nat.le_add_right ..), Nat.add_sub_cancel_left, hrest, List.getElem?_map]
        cases columns[j]? with
        | none => rfl
        | some c => exact List.getElem?_tail

/-- At position `i * k + j` there is slot `i` of column `j`, if the column has one. -/
theorem getElem?_merge (h : Even (columns.map List.length)) {i j : Nat} (hj : j < columns.length) :
    (merge columns)[i * columns.length + j]? = columns[j]?.bind (·[i]?) :=
  getElem?_rounds _ h (fun _ hc => length_le_longest hc) hj

end RoundRobin
end QuantityLayout
