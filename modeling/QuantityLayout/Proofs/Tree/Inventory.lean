import QuantityLayout.Proofs.Entries
import QuantityLayout.Proofs.Tree.Walk
import QuantityLayout.Tree.Visit
import QuantityLayout.Tree.WellFormed
import Mathlib.Data.List.Nodup

set_option autoImplicit false

namespace QuantityLayout

open Entries (lookup_iff_mem)

variable {α : Type}

namespace Node

mutual
/-- Entries of a group come as they were attached, whatever its order says. -/
def inventory : Node α → List (Visit α)
  | .leaf l => [⟨[], l⟩]
  | .list ns => itemInventory 0 ns
  | .group ⟨es, _⟩ => entryInventory es

def itemInventory (i : Nat) : List (Node α) → List (Visit α)
  | [] => []
  | n :: ns => n.inventory.map (Visit.under (.index i)) ++ itemInventory (i + 1) ns

def entryInventory : List (String × Node α) → List (Visit α)
  | [] => []
  | (s, n) :: es => n.inventory.map (Visit.under (.name s)) ++ entryInventory es
end

theorem itemInventory_eq (i : Nat) (ns : List (Node α)) :
    itemInventory i ns = (ns.zipIdx i).flatMap fun (n, j) => n.inventory.map (Visit.under (.index j)) := by
  induction ns generalizing i with
  | nil => rfl
  | cons n ns ih => rw [itemInventory, ih, List.zipIdx_cons, List.flatMap_cons]

theorem entryInventory_eq (es : List (String × Node α)) :
    entryInventory es = es.flatMap fun e => e.2.inventory.map (Visit.under (.name e.1)) := by
  induction es with
  | nil => rfl
  | cons e es ih => rw [entryInventory, ih, List.flatMap_cons]

theorem map_leaf_under (s : Step) (vs : List (Visit α)) :
    (vs.map (Visit.under s)).map Visit.leaf = vs.map Visit.leaf := by
  simp [Visit.under, Function.comp_def]

theorem map_path_under (s : Step) (vs : List (Visit α)) :
    (vs.map (Visit.under s)).map Visit.path = (vs.map Visit.path).map (s :: ·) := by
  simp [Visit.under, Function.comp_def]

theorem map_leaf_inventory (n : Node α) : n.inventory.map Visit.leaf = n.leaves := by
  induction n with
  | leaf l => rfl
  | list ns ih =>
    rw [inventory, leaves, itemLeaves_eq, itemInventory_eq, List.map_flatMap]
    simp only [map_leaf_under]
    rw [List.flatMap_congr fun e he => ih e.1 (List.fst_mem_of_mem_zipIdx he), ← List.flatMap_map Prod.fst,
      List.zipIdx_map_fst]
  | group es o ih =>
    rw [inventory, leaves, entryLeaves_eq, entryInventory_eq, List.map_flatMap]
    simp only [map_leaf_under]
    exact List.flatMap_congr fun e he => ih e he

theorem mem_items_iff {ns : List (Node α)} {v : Visit α} :
    v ∈ itemInventory 0 ns ↔ ∃ (i : Nat) (n : Node α) (w : Visit α),
      ns[i]? = some n ∧ w ∈ n.inventory ∧ v = w.under (.index i) := by
  rw [itemInventory_eq, List.mem_flatMap]
  constructor
  · intro hx
    obtain ⟨⟨n, i⟩, hn, hv⟩ := hx
    obtain ⟨w, hw, rfl⟩ := List.mem_map.mp hv
    exact ⟨i, n, w, List.mem_zipIdx_iff_getElem?.mp hn, hw, rfl⟩
  · intro hx
    obtain ⟨i, n, w, hn, hw, rfl⟩ := hx
    exact ⟨(n, i), List.mem_zipIdx_iff_getElem?.mpr hn, List.mem_map_of_mem hw⟩

theorem mem_entries_iff {es : List (String × Node α)} {v : Visit α} :
    v ∈ entryInventory es ↔ ∃ (s : String) (n : Node α) (w : Visit α),
      (s, n) ∈ es ∧ w ∈ n.inventory ∧ v = w.under (.name s) := by
  rw [entryInventory_eq, List.mem_flatMap]
  constructor
  · intro hx
    obtain ⟨⟨s, n⟩, hn, hv⟩ := hx
    obtain ⟨w, hw, rfl⟩ := List.mem_map.mp hv
    exact ⟨s, n, w, hn, hw, rfl⟩
  · intro hx
    obtain ⟨s, n, w, hn, hw, rfl⟩ := hx
    exact ⟨(s, n), hn, List.mem_map_of_mem hw⟩

theorem WellFormed.items {ns : List (Node α)} (h : (Node.list ns).WellFormed) : ∀ n ∈ ns, n.WellFormed :=
  itemsWellFormed_iff.mp h.2

theorem WellFormed.entries {es : List (String × Node α)} {o : Option Order}
    (h : (Node.group ⟨es, o⟩).WellFormed) : ∀ e ∈ es, e.2.WellFormed := entriesWellFormed_iff.mp h.2

theorem WellFormed.names_nodup {es : List (String × Node α)} {o : Option Order}
    (h : (Node.group ⟨es, o⟩).WellFormed) : (es.map Prod.fst).Nodup := h.1.1

/-- What the inventory lists is what walks find. -/
theorem mem_inventory_iff {n : Node α} (hn : n.WellFormed) {p : Path} {l : Leaf α} :
    ⟨p, l⟩ ∈ n.inventory ↔ n.place.walk p = .ok (.leaf l) := by
  induction n generalizing p with
  | leaf m => simp [inventory, place, Place.walk_leaf_eq_leaf, eq_comm (a := l)]
  | list ns ih =>
    rw [inventory, mem_items_iff, place]
    constructor
    · intro hx
      obtain ⟨i, n, w, hi, hw, h⟩ := hx
      cases h
      have hmem := List.mem_of_getElem? hi
      exact Place.walk_cons_eq_ok.mpr
        ⟨_, Place.step_list_eq_ok.mpr ⟨i, n, rfl, hi, rfl⟩, (ih n hmem (hn.items n hmem)).mp hw⟩
    · intro h
      cases p with
      | nil => cases h
      | cons s q =>
        obtain ⟨y, hs, hq⟩ := Place.walk_cons_eq_ok.mp h
        obtain ⟨i, n, rfl, hi, rfl⟩ := Place.step_list_eq_ok.mp hs
        have hmem := List.mem_of_getElem? hi
        exact ⟨i, n, ⟨q, l⟩, hi, (ih n hmem (hn.items n hmem)).mpr hq, rfl⟩
  | group es o ih =>
    rw [inventory, mem_entries_iff, place]
    constructor
    · intro hx
      obtain ⟨s, n, w, hs, hw, h⟩ := hx
      cases h
      exact Place.walk_cons_eq_ok.mpr
        ⟨_, Place.step_group_eq_ok.mpr ⟨s, n, rfl, (lookup_iff_mem hn.names_nodup).mpr hs, rfl⟩,
          (ih _ hs (hn.entries _ hs)).mp hw⟩
    · intro h
      cases p with
      | nil => cases h
      | cons s q =>
        obtain ⟨y, hs, hq⟩ := Place.walk_cons_eq_ok.mp h
        obtain ⟨s, n, rfl, hget, rfl⟩ := Place.step_group_eq_ok.mp hs
        have hmem := Entries.mem_of_lookup hget
        exact ⟨s, n, ⟨q, l⟩, hmem, (ih _ hmem (hn.entries _ hmem)).mpr hq, rfl⟩

theorem nodup_paths_flatMap {ι : Type} (xs : List ι) (step : ι → Step) (part : ι → List (Visit α))
    (hsteps : (xs.map step).Nodup) (hparts : ∀ x ∈ xs, ((part x).map Visit.path).Nodup) :
    ((xs.flatMap fun x => (part x).map (Visit.under (step x))).map Visit.path).Nodup := by
  rw [List.map_flatMap]
  simp only [map_path_under]
  refine List.pairwise_flatMap.mpr ⟨fun x hx => ?_, ?_⟩
  · exact (hparts x hx).map fun p q h => (List.cons.inj h).2
  · refine (List.pairwise_map.mp hsteps).imp fun {x y} hxy p hp q hq => ?_
    obtain ⟨p, -, rfl⟩ := List.mem_map.mp hp
    obtain ⟨q, -, rfl⟩ := List.mem_map.mp hq
    exact fun h => hxy (List.cons.inj h).1

theorem inventory_nodup {n : Node α} (hn : n.WellFormed) : (n.inventory.map Visit.path).Nodup := by
  induction n with
  | leaf l => simp [inventory]
  | list ns ih =>
    rw [inventory, itemInventory_eq]
    refine nodup_paths_flatMap (ns.zipIdx 0) (fun e => .index e.2) (fun e => e.1.inventory) ?_ ?_
    · have hindex : (ns.zipIdx 0).map (fun e => Step.index e.2) = (List.range' 0 ns.length).map Step.index := by
        rw [← List.zipIdx_map_snd, List.map_map]
        rfl
      rw [hindex]
      exact List.Nodup.map (fun i j h => Step.index.inj h) List.nodup_range'
    · intro e he
      have hmem := List.fst_mem_of_mem_zipIdx he
      exact ih e.1 hmem (hn.items e.1 hmem)
  | group es o ih =>
    rw [inventory, entryInventory_eq]
    refine nodup_paths_flatMap es (fun e => .name e.1) (fun e => e.2.inventory) ?_ ?_
    · have hname : es.map (fun e => Step.name e.1) = (es.map Prod.fst).map Step.name := by
        rw [List.map_map]
        rfl
      rw [hname]
      exact hn.names_nodup.map fun s t h => Step.name.inj h
    · exact fun e he => ih e he (hn.entries e he)

/-- A leaf is an end: no path to a leaf runs on to another one. -/
theorem inventory_prefix_free {n : Node α} (hn : n.WellFormed) {v w : Visit α} (hv : v ∈ n.inventory)
    (hw : w ∈ n.inventory) (h : v.path <+: w.path) : v = w := by
  obtain ⟨p, l⟩ := v
  obtain ⟨_, m⟩ := w
  obtain ⟨q, rfl⟩ := h
  obtain ⟨y, hy, hq⟩ := Place.walk_append_eq_ok.mp ((mem_inventory_iff hn).mp hw)
  rw [(mem_inventory_iff hn).mp hv] at hy
  cases hy
  obtain ⟨rfl, rfl⟩ := Place.walk_leaf_eq_leaf.mp hq
  simp

end Node
end QuantityLayout
