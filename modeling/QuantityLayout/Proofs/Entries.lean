import Mathlib.Algebra.BigOperators.Group.List.Basic

set_option autoImplicit false

namespace QuantityLayout.Entries

variable {ν μ M : Type}

theorem mem_of_lookup {es : List (String × ν)} {n : String} {x : ν} (h : es.lookup n = some x) :
    (n, x) ∈ es := by
  obtain ⟨before, after, rfl, -⟩ := List.lookup_eq_some_iff.mp h
  simp

theorem lookup_of_mem {es : List (String × ν)} (hes : (es.map Prod.fst).Nodup) {n : String} {x : ν}
    (h : (n, x) ∈ es) : es.lookup n = some x := by
  induction es with
  | nil => simp at h
  | cons e es ih =>
    obtain ⟨m, y⟩ := e
    obtain ⟨hm, hes⟩ := List.nodup_cons.mp hes
    rcases List.mem_cons.mp h with hx | hx
    · cases hx
      exact List.lookup_cons_self
    · have hne : (n == m) = false := by
        rw [beq_eq_false_iff_ne]
        intro hnm
        exact hm (List.mem_map.mpr ⟨_, hx, hnm⟩)
      rw [List.lookup_cons, hne]
      exact ih hes hx

theorem lookup_iff_mem {es : List (String × ν)} (hes : (es.map Prod.fst).Nodup) {n : String} {x : ν} :
    es.lookup n = some x ↔ (n, x) ∈ es :=
  ⟨mem_of_lookup, lookup_of_mem hes⟩

theorem lookup_map (f : String → ν → μ) (es : List (String × ν)) (n : String) :
    (es.map fun e => (e.1, f e.1 e.2)).lookup n = (es.lookup n).map (f n) := by
  induction es with
  | nil => rfl
  | cons e es ih =>
    obtain ⟨m, x⟩ := e
    simp only [List.map_cons, List.lookup_cons, ih]
    cases h : n == m with
    | false => rfl
    | true => rw [eq_of_beq h, Option.map_some]

theorem lookup_renamed (f : String → String) (g : ν → μ) {es : List (String × ν)} {n : String}
    (hn : ∀ m ∈ es.map Prod.fst, f m = f n → m = n) :
    (es.map fun e => (f e.1, g e.2)).lookup (f n) = (es.lookup n).map g := by
  induction es with
  | nil => rfl
  | cons e es ih =>
    obtain ⟨m, x⟩ := e
    obtain ⟨hm, hes⟩ := List.forall_mem_cons.mp hn
    simp only [List.map_cons, List.lookup_cons, ih hes]
    by_cases h : n = m
    · subst h
      simp
    · have hne : f n ≠ f m := fun heq => h (hm heq.symm).symm
      simp [beq_false_of_ne h, beq_false_of_ne hne]

theorem lookup_perm {es es' : List (String × ν)} (hes : (es.map Prod.fst).Nodup) (hperm : es.Perm es') (n : String) :
    es.lookup n = es'.lookup n := by
  have hes' := (hperm.map Prod.fst).nodup_iff.mp hes
  refine Option.ext fun x => ?_
  rw [lookup_iff_mem hes, lookup_iff_mem hes', hperm.mem_iff]

theorem lookup_concat_ne {es : List (String × ν)} {n m : String} (x : ν) (h : n ≠ m) :
    (es ++ [(m, x)]).lookup n = es.lookup n := by
  simp [List.lookup_append, List.lookup_cons, beq_false_of_ne h]

theorem exists_lookup {es : List (String × ν)} {n : String} (h : n ∈ es.map Prod.fst) :
    ∃ x, es.lookup n = some x := by
  obtain ⟨e, he, rfl⟩ := List.mem_map.mp h
  exact Option.isSome_iff_exists.mp (List.lookup_isSome_iff.mpr ⟨e, he, beq_self_eq_true e.1⟩)

theorem name_mem_of_lookup {es : List (String × ν)} {n : String} {x : ν} (h : es.lookup n = some x) :
    n ∈ es.map Prod.fst :=
  List.mem_map_of_mem (mem_of_lookup h)

theorem lookup_eq_none_iff {es : List (String × ν)} {n : String} : es.lookup n = none ↔ n ∉ es.map Prod.fst := by
  refine ⟨fun hnone hn => ?_, fun hn => Option.eq_none_iff_forall_ne_some.mpr fun x hx => hn (name_mem_of_lookup hx)⟩
  obtain ⟨x, hx⟩ := exists_lookup hn
  rw [hnone] at hx
  cases hx

section Sums

variable [AddCommMonoid M]

def part (f : ν → M) (es : List (String × ν)) (n : String) : M := ((es.lookup n).map f).getD 0

theorem part_of_mem (f : ν → M) {es : List (String × ν)} (hes : (es.map Prod.fst).Nodup) {e : String × ν}
    (h : e ∈ es) : part f es e.1 = f e.2 := by
  rw [part, lookup_of_mem hes h, Option.map_some, Option.getD_some]

theorem sum_part (f : ν → M) {es : List (String × ν)} (hes : (es.map Prod.fst).Nodup)
    (p : String × ν → Bool) :
    (((es.filter p).map Prod.fst).map (part f es)).sum = ((es.filter p).map fun e => f e.2).sum := by
  rw [List.map_map]
  exact congrArg List.sum (List.map_congr_left fun e he => part_of_mem f hes (List.mem_of_mem_filter he))

/-- The entries that are mentioned, once each, and the ones that are left out make up all entries. -/
theorem sum_mentioned_omitted (f : ν → M) {es : List (String × ν)} (hes : (es.map Prod.fst).Nodup)
    {ns : List String} (hns : ns.Nodup) (hin : ∀ n ∈ ns, n ∈ es.map Prod.fst) :
    (ns.map (part f es)).sum + ((es.filter fun e => e.1 ∉ ns).map fun e => f e.2).sum
      = (es.map fun e => f e.2).sum := by
  have hmentioned : (ns.map (part f es)).sum = ((es.filter fun e => e.1 ∈ ns).map fun e => f e.2).sum := by
    rw [← sum_part f hes]
    refine List.Perm.sum_eq (List.Perm.map _ ?_)
    refine (List.perm_ext_iff_of_nodup hns (hes.sublist (List.filter_sublist.map _))).mpr fun n => ?_
    constructor
    · intro hn
      obtain ⟨e, he, rfl⟩ := List.mem_map.mp (hin n hn)
      exact List.mem_map_of_mem (List.mem_filter.mpr ⟨he, decide_eq_true hn⟩)
    · intro hn
      obtain ⟨e, he, rfl⟩ := List.mem_map.mp hn
      exact of_decide_eq_true (List.mem_filter.mp he).2
  have hsplit := (List.filter_append_perm (fun e : String × ν => decide (e.1 ∈ ns)) es).map fun e => f e.2
  rw [hmentioned, ← hsplit.sum_eq, List.map_append, List.sum_append]
  simp only [decide_not]

end Sums

end QuantityLayout.Entries
