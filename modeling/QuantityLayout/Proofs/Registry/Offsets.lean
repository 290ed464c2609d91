import QuantityLayout.Proofs.Layout.Segments
import QuantityLayout.Proofs.Registry.Cells
import QuantityLayout.Proofs.Tree.Part
/-!
Offsets of leaves, cells and subtrees. Every offset is the place of a cell in the dense flattening, beside the number of
present cells before it; a subtree begins with the leaf of it that is visited first.
-/
set_option autoImplicit false

namespace QuantityLayout.Registry

variable {α : Type} {r : Registry α} {vs ws : List (Visit α)} {l : Layout} {p : Path} {m : Node α} {d n : Nat}

theorem inside_of_step {f : Leaf α} {s : Step} {c : Cell} (h : (Place.leaf f).step s = .ok (.cell f c)) :
    f.shape.Inside c := by
  rcases Place.step_leaf_eq_ok.mp h with ⟨row, col, -, hc, hcell⟩ | ⟨k, c', -, hk, hcell⟩
  · cases hcell
    exact hc
  · cases hcell
    exact (Shape.cellAt_eq_some.mp hk).1

namespace Laid

theorem mem_slots (h : r.Laid vs l) {s : Layout.Slot} (hs : s ∈ l.slots) :
    ∃ i v, vs[i]? = some v ∧ s = slotOf vs i v := by
  obtain ⟨i, hi⟩ := List.getElem?_of_mem hs
  rw [h.getElem?_slots, Option.map_eq_some_iff] at hi
  obtain ⟨v, hv, rfl⟩ := hi
  exact ⟨i, v, hv, rfl⟩

theorem part (h : r.Laid vs l) (hp : r.locate p = .ok m.place) :
    ∃ ws, m.visits r.policy = .ok ws ∧ vs.filter (fun v => p.isPrefixOf v.path) = ws.map (Visit.below p) ∧
      (ws.map Visit.leaf).Perm m.leaves := by
  have hwalk := locate_eq_ok.mp hp
  obtain ⟨ws, hws, hunder⟩ := Node.visits_part h.root h.visits hwalk
  exact ⟨ws, hws, hunder, Node.visits_perm_leaves (h.root.part hwalk) hws⟩

theorem locate_eq_cell (h : r.Laid vs l) {f : Leaf α} {c : Cell} (hp : r.locate p = .ok (.cell f c)) :
    ∃ (i : Nat) (v : Visit α) (s : Step), vs[i]? = some v ∧ p = v.path ++ [s] ∧ v.leaf = f ∧ f.shape.Inside c ∧
      (Place.leaf f).step s = .ok (.cell f c) := by
  rcases Place.walk_eq_cell (locate_eq_ok.mp hp) with ⟨hroot, -⟩ | ⟨q, s, rfl, hq, hs⟩
  · exact absurd hroot (Place.place_ne_cell _ f c)
  · obtain ⟨i, hv⟩ := h.exists_visit (locate_eq_ok.mpr hq)
    exact ⟨i, _, s, hv, rfl, rfl, inside_of_step hs, hs⟩

end Laid

def pair : Shape := ⟨2, 1, [⟨0, 0⟩, ⟨1, 0⟩], by decide, by decide, by decide⟩

end QuantityLayout.Registry
