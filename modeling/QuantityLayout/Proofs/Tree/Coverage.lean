import QuantityLayout.Proofs.Order.Units
import QuantityLayout.Proofs.Tree.Content
import QuantityLayout.Proofs.Tree.Inventory
import Mathlib.Algebra.GroupWithZero.Nat

set_option autoImplicit false

namespace QuantityLayout

open Visits (content content_chain content_ne_top_iff perm_flatMap)

variable {α : Type} {policy : Policy}

namespace Node

theorem visits_eq_ok {n : Node α} {vs : List (Visit α)} :
    n.visits policy = .ok vs ↔ ∃ us, n.slots policy = .ok us ∧ Visits.chain us = .ok vs := by
  unfold visits
  cases n.slots policy <;> simp

theorem visits_congr {n m : Node α} {policy' : Policy} (h : n.slots policy = m.slots policy') :
    n.visits policy = m.visits policy' := by rw [visits, visits, h]

theorem names_columns (es : List (String × Node α)) : (columns policy es).map Prod.fst = es.map Prod.fst := by
  rw [columns_eq, List.map_map]
  rfl

theorem balanced_columns (es : List (String × Node α)) : Order.Balanced content (columns policy es) := by
  intro e he us hs
  rw [columns_eq] at he
  obtain ⟨e, -, rfl⟩ := List.mem_map.mp he
  rw [← content_chain, Visits.chain_slots_column hs]

theorem sum_items_slots (ns : List (Node α)) :
    ((itemVisits policy 0 ns).map content).sum
      = ((ns.zipIdx 0).map fun e => ((e.1.visits policy).under (.index e.2)).content).sum := by
  rw [itemVisits_eq, List.map_map]
  rfl

theorem sum_group_slots {es : List (String × Node α)} {o : Option Order} {us : List (Visits α)}
    (hes : (es.map Prod.fst).Nodup) (h : Order.resolve? policy (columns policy es) o = .ok us) :
    (us.map content).sum = (es.map fun e => ((e.2.visits policy).under (.name e.1)).content).sum := by
  have hsum := Order.sum_resolve? (balanced_columns es) (names_columns es ▸ hes) h
  rw [columns_eq, List.map_map] at hsum
  rw [hsum]
  exact congrArg List.sum (List.map_congr_left fun e _ => congrArg content (whole_column policy (.name e.1) e.2))

theorem perm_under {s : Step} {u : Visits α} {vs : List (Visit α)} (h : ∀ ws, u = .ok ws → ws.Perm vs) :
    ∀ ws, u.under s = .ok ws → ws.Perm (vs.map (Visit.under s)) := by
  intro ws hws
  cases u with
  | error f => cases hws
  | ok xs =>
    cases hws
    exact (h xs rfl).map _

theorem visits_perm_inventory {n : Node α} (hn : n.WellFormed) {vs : List (Visit α)}
    (h : n.visits policy = .ok vs) : vs.Perm n.inventory := by
  induction n generalizing vs with
  | leaf l =>
    cases h
    exact .refl _
  | list ns ih =>
    obtain ⟨us, hs, hc⟩ := visits_eq_ok.mp h
    cases hs
    have hcontent := congrArg content hc
    rw [content_chain, sum_items_slots] at hcontent
    rw [inventory, itemInventory_eq]
    refine perm_flatMap (fun e he => perm_under ?_) hcontent
    have hmem := List.fst_mem_of_mem_zipIdx he
    exact fun ws hws => ih e.1 hmem (hn.items e.1 hmem) hws
  | group es o ih =>
    obtain ⟨us, hs, hc⟩ := visits_eq_ok.mp h
    have hcontent := congrArg content hc
    rw [content_chain, sum_group_slots hn.names_nodup hs] at hcontent
    rw [inventory, entryInventory_eq]
    exact perm_flatMap (fun e he => perm_under fun ws hws => ih e he (hn.entries e he) hws) hcontent

theorem visits_perm_leaves {n : Node α} (hn : n.WellFormed) {vs : List (Visit α)} (h : n.visits policy = .ok vs) :
    (vs.map Visit.leaf).Perm n.leaves := by
  rw [← map_leaf_inventory]
  exact (visits_perm_inventory hn h).map _

end Node

end QuantityLayout
