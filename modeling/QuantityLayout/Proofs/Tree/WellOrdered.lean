import QuantityLayout.Proofs.Order.Fits
import QuantityLayout.Proofs.Tree.Coverage
import QuantityLayout.Tree.WellOrdered
/-!
A tree can be visited just when each of its groups is well ordered. A group is looked at as a column of slots or as a
unit of its own, and both ways it is held to the same condition.
-/
set_option autoImplicit false

namespace QuantityLayout.Node

open Visits (content content_chain content_ne_top_iff)

variable {α : Type} {policy : Policy}

theorem lookup_columns (es : List (String × Node α)) (s : String) :
    (columns policy es).lookup s
      = (es.lookup s).map fun n => Visits.column (.name s) (n.slots policy) := by
  rw [columns_eq]
  exact Entries.lookup_map (fun s n => Visits.column (.name s) (n.slots policy)) es s

theorem lookup_columns_of_lookup {es : List (String × Node α)} {s : String} {n : Node α} (h : es.lookup s = some n) :
    (columns policy es).lookup s = some (Visits.column (.name s) (n.slots policy)) := by
  rw [lookup_columns, h, Option.map_some]

theorem names_slotCounts (es : List (String × Node α)) : (slotCounts es).map Prod.fst = es.map Prod.fst := by
  rw [slotCounts_eq, List.map_map]
  rfl

theorem countOf_slotCounts (es : List (String × Node α)) (s : String) :
    Order.countOf (slotCounts es) s = ((es.lookup s).map slotCount).getD 0 := by
  rw [slotCounts_eq, Order.countOf, Entries.lookup_map fun _ => slotCount]

theorem counted_columns {es : List (String × Node α)}
    (h : ∀ e ∈ es, ∀ us, e.2.slots policy = .ok us → us.length = e.2.slotCount) :
    Order.Counted (columns policy es) (slotCounts es) := by
  refine ⟨?_, ?_⟩
  · rw [names_columns, names_slotCounts]
  · intro s c us hc hs
    rw [lookup_columns, Option.map_eq_some_iff] at hc
    obtain ⟨n, hn, rfl⟩ := hc
    rw [countOf_slotCounts, hn, Option.map_some, Option.getD_some]
    cases hslots : n.slots policy with
    | error f =>
      rw [hslots] at hs
      cases hs
    | ok slots =>
      rw [hslots] at hs
      cases hs
      rw [List.length_map, h _ (Entries.mem_of_lookup hn) slots hslots]

theorem length_slots {n : Node α} {us : List (Visits α)} (h : n.slots policy = .ok us) :
    us.length = n.slotCount := by
  induction n generalizing us with
  | leaf l =>
    cases h
    rfl
  | list ns ih =>
    cases h
    rw [itemVisits_eq, List.length_map, List.length_zipIdx, slotCount]
  | group es o ih =>
    have hcounted : Order.Counted (columns policy es) (slotCounts es) := counted_columns fun e he _ => ih e he
    cases o with
    | none =>
      cases h
      rw [columns_eq, List.length_map, List.length_map, slotCount]
    | some o => exact hcounted.length_resolve h

theorem exists_under {s : Step} {u : Visits α} : (∃ vs, u.under s = .ok vs) ↔ ∃ vs, u = .ok vs := by
  cases u <;> simp [Visits.under]

theorem under_ne_top {s : Step} {u : Visits α} : (u.under s).content ≠ ⊤ ↔ ∃ vs, u = .ok vs := by
  rw [content_ne_top_iff, exists_under]

theorem exists_chain {us : List (Visits α)} : (∃ vs, Visits.chain us = .ok vs) ↔ (us.map content).sum ≠ ⊤ := by
  rw [← content_chain, content_ne_top_iff]

theorem exists_visits_list {ns : List (Node α)} :
    (∃ vs, (Node.list ns).visits policy = .ok vs) ↔ ∀ n ∈ ns, ∃ vs, n.visits policy = .ok vs := by
  have hsum : (∃ vs, (Node.list ns).visits policy = .ok vs) ↔
      ∀ e ∈ ns.zipIdx 0, ∃ vs, e.1.visits policy = .ok vs := by
    have hslots : (Node.list ns).visits policy = Visits.chain (itemVisits policy 0 ns) := rfl
    rw [hslots, exists_chain, sum_items_slots, Visits.sum_ne_top_iff]
    simp only [under_ne_top]
  rw [hsum]
  refine ⟨fun h n hn => ?_, fun h e he => h e.1 (List.fst_mem_of_mem_zipIdx he)⟩
  obtain ⟨i, hi⟩ := List.getElem?_of_mem hn
  exact h (n, i) (List.mem_zipIdx_iff_getElem?.mpr hi)

theorem exists_visits_group {es : List (String × Node α)} {o : Option Order} (hes : (es.map Prod.fst).Nodup) :
    (∃ vs, (Node.group ⟨es, o⟩).visits policy = .ok vs) ↔
      (∃ us, Order.resolve? policy (columns policy es) o = .ok us) ∧
      ∀ e ∈ es, ∃ vs, e.2.visits policy = .ok vs := by
  have hchain : ∀ us, Order.resolve? policy (columns policy es) o = .ok us →
      ((∃ vs, Visits.chain us = .ok vs) ↔ ∀ e ∈ es, ∃ vs, e.2.visits policy = .ok vs) := by
    intro us hus
    rw [exists_chain, sum_group_slots hes hus, Visits.sum_ne_top_iff]
    simp only [under_ne_top]
  refine ⟨?_, ?_⟩
  · intro hx
    obtain ⟨vs, h⟩ := hx
    obtain ⟨us, hus, hvs⟩ := visits_eq_ok.mp h
    exact ⟨⟨us, hus⟩, (hchain us hus).mp ⟨vs, hvs⟩⟩
  · intro hx
    obtain ⟨⟨us, hus⟩, h⟩ := hx
    obtain ⟨vs, hvs⟩ := (hchain us hus).mpr h
    exact ⟨vs, visits_eq_ok.mpr ⟨us, hus, hvs⟩⟩

theorem opens_columns {es : List (String × Node α)} (h : ∀ e ∈ es, ∃ vs, e.2.visits policy = .ok vs) :
    ∀ s ∈ (columns policy es).map Prod.fst, Order.Opens (columns policy es) s := by
  intro s hs
  rw [names_columns] at hs
  obtain ⟨n, hn⟩ := Entries.exists_lookup hs
  obtain ⟨vs, hvs⟩ := h _ (Entries.mem_of_lookup hn)
  obtain ⟨us, hus, -⟩ := visits_eq_ok.mp hvs
  refine ⟨Visits.column (.name s) (n.slots policy), us.map (Visits.under (.name s)), lookup_columns_of_lookup hn, ?_⟩
  rw [hus]
  rfl

theorem exists_units_iff {es : List (String × Node α)} {o : Option Order}
    (h : ∀ e ∈ es, ∃ vs, e.2.visits policy = .ok vs) :
    (∃ us, Order.resolve? policy (columns policy es) o = .ok us) ↔
      (⟨es, o⟩ : Group (Node α)).WellOrdered policy := by
  cases o with
  | none => exact ⟨fun _ => trivial, fun _ => ⟨_, rfl⟩⟩
  | some o => exact (counted_columns fun e _ _ => length_slots).exists_resolve_iff (opens_columns h)

theorem exists_visits_iff {n : Node α} (hn : n.WellFormed) :
    (∃ vs, n.visits policy = .ok vs) ↔ ∀ g ∈ n.groups, g.WellOrdered policy := by
  induction n with
  | leaf l => exact ⟨fun _ _ hg => absurd hg List.not_mem_nil, fun _ => ⟨_, rfl⟩⟩
  | list ns ih =>
    rw [exists_visits_list, groups, itemGroups_eq]
    simp only [List.mem_flatMap, forall_exists_index, and_imp]
    refine ⟨?_, ?_⟩
    · intro h g n hmem
      exact (ih n hmem (hn.items n hmem)).mp (h n hmem) g
    · intro h n hmem
      exact (ih n hmem (hn.items n hmem)).mpr fun g => h g n hmem
  | group es o ih =>
    rw [exists_visits_group hn.names_nodup, groups, entryGroups_eq, List.forall_mem_cons]
    simp only [List.mem_flatMap, forall_exists_index, and_imp]
    refine ⟨?_, ?_⟩
    · intro hx
      obtain ⟨hunits, h⟩ := hx
      refine ⟨(exists_units_iff h).mp hunits, fun g e he => ?_⟩
      exact (ih e he (hn.entries e he)).mp (h e he) g
    · intro hx
      obtain ⟨hunits, h⟩ := hx
      have hentries : ∀ e ∈ es, ∃ vs, e.2.visits policy = .ok vs :=
        fun e he => (ih e he (hn.entries e he)).mpr fun g => h g e he
      exact ⟨(exists_units_iff hentries).mpr hunits, hentries⟩

end QuantityLayout.Node
