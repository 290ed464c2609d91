import QuantityLayout.Proofs.Layout.Offsets
import QuantityLayout.Proofs.Registry.Reachable
import QuantityLayout.Proofs.Tree.WellOrdered

set_option autoImplicit false

namespace QuantityLayout.Registry

variable {α : Type}

def listed (vs : List (Visit α)) : List (Path × Shape) := vs.map fun v => (v.path, v.leaf.shape)

theorem paths_listed (vs : List (Visit α)) : (listed vs).map Prod.fst = vs.map Visit.path := by
  rw [listed, List.map_map]
  rfl

theorem exists_layout {n : Node α} (hn : n.WellFormed) {policy : Policy} {vs : List (Visit α)}
    (h : n.visits policy = .ok vs) : ∃ l, Layout.ofLeaves (listed vs) = .ok l := by
  have hperm := Node.visits_perm_inventory hn h
  refine Layout.exists_ofLeaves ?_ ?_
  · rw [paths_listed]
    exact (hperm.map _).nodup_iff.mpr (Node.inventory_nodup hn)
  · rw [paths_listed]
    intro p hp q hq hpre
    obtain ⟨v, hv, rfl⟩ := List.mem_map.mp hp
    obtain ⟨w, hw, rfl⟩ := List.mem_map.mp hq
    rw [Node.inventory_prefix_free hn (hperm.mem_iff.mp hw) (hperm.mem_iff.mp hv) hpre]

theorem resolve_congr {policy policy' : Policy} {g g' : Group (Node α)}
    (h : (Node.group g).visits policy = (Node.group g').visits policy') : resolve policy g = resolve policy' g' := by
  rw [resolve, resolve, h]

theorem resolve_eq_ok {policy : Policy} {root : Group (Node α)} {l : Layout} :
    resolve policy root = .ok l ↔
      ∃ vs, (Node.group root).visits policy = .ok vs ∧ Layout.ofLeaves (listed vs) = .ok l := by
  unfold resolve listed
  cases (Node.group root).visits policy with
  | error f => simp
  | ok vs => cases h : Layout.ofLeaves (vs.map fun v => (v.path, v.leaf.shape)) <;> simp [h]

theorem exists_resolve_iff {policy : Policy} {root : Group (Node α)} (hroot : (Node.group root).WellFormed) :
    (∃ l, resolve policy root = .ok l) ↔ ∀ g ∈ (Node.group root).groups, g.WellOrdered policy := by
  rw [← Node.exists_visits_iff hroot]
  refine ⟨?_, ?_⟩
  · intro hx
    obtain ⟨l, hl⟩ := hx
    obtain ⟨vs, hvs, -⟩ := resolve_eq_ok.mp hl
    exact ⟨vs, hvs⟩
  · intro hx
    obtain ⟨vs, hvs⟩ := hx
    obtain ⟨l, hl⟩ := exists_layout hroot hvs
    exact ⟨l, resolve_eq_ok.mpr ⟨vs, hvs, hl⟩⟩

end QuantityLayout.Registry
