import QuantityLayout.Proofs.Registry.Offsets
/-!
Parts of a frozen tree that are laid out without a gap. A tuple takes apart only what it names: a part that no tuple of
its own group names keeps its leaves together, however the parts around it are interleaved.
-/
set_option autoImplicit false

namespace QuantityLayout.Registry

variable {α : Type} {r : Registry α} {vs before block after : List (Visit α)} {l : Layout} {p : Path} {m : Node α}

def numelOf (vs : List (Visit α)) : Nat := (vs.map (·.leaf.shape.numel)).sum

def nnzOf (vs : List (Visit α)) : Nat := (vs.map (·.leaf.shape.nnz)).sum

def slotsAfter (before vs : List (Visit α)) : List Layout.Slot :=
  Layout.place (word (numelOf before)) (nnzOf before) (listed vs)

theorem map_numel_listed (vs : List (Visit α)) : ((listed vs).map (·.2.numel)).sum = numelOf vs := by
  rw [listed, List.map_map]
  rfl

theorem map_nnz_listed (vs : List (Visit α)) : ((listed vs).map (·.2.nnz)).sum = nnzOf vs := by
  rw [listed, List.map_map]
  rfl

theorem slotsAfter_append (before vs ws : List (Visit α)) :
    slotsAfter before (vs ++ ws) = slotsAfter before vs ++ slotsAfter (before ++ vs) ws := by
  have hlisted : listed (vs ++ ws) = listed vs ++ listed ws := List.map_append
  rw [slotsAfter, hlisted, Layout.place_append (word_lt _), map_numel_listed, map_nnz_listed, word_add_left]
  simp [slotsAfter, numelOf, nnzOf]

namespace Laid

theorem nonzeroIndices_node (h : r.Laid vs l) (hp : r.locate p = .ok m.place) :
    r.nonzeroIndices p = .ok ((l.slots.filter fun s => p.isPrefixOf s.path).flatMap Layout.Slot.nonzeroRange) := by
  rw [← Layout.map_snd_leavesUnder, List.flatMap_map, Registry.nonzeroIndices, h.layout]
  cases m <;> simp only [bind, Except.bind, hp, Node.place] <;> rfl

theorem slots_eq (h : r.Laid (before ++ block ++ after) l) :
    l.slots = slotsAfter [] before ++ slotsAfter before block ++ slotsAfter (before ++ block) after := by
  have hslots : l.slots = slotsAfter [] (before ++ block ++ after) := h.slots
  rw [hslots, slotsAfter_append, slotsAfter_append]
  rfl

end Laid

end QuantityLayout.Registry
