import QuantityLayout.Proofs.Registry.Contiguous
import QuantityLayout.Proofs.Registry.ReverseLookup
/-!
The numbers of the present cells below a path. A tuple can scatter them over the whole layout; the path of each cell
still tells to which part of the tree it belongs, so the parts of a node share its numbers out among themselves.
-/
set_option autoImplicit false

namespace QuantityLayout.Registry

variable {α : Type} {r : Registry α} {vs : List (Visit α)} {l : Layout} {p q : Path} {m : Node α} {s t : Step} {k : Nat}

def numbersUnder (l : Layout) (p : Path) : List Nat :=
  (l.slots.filter fun s => p.isPrefixOf s.path).flatMap Layout.Slot.nonzeroRange

theorem step_eq_of_prefix (hs : p ++ [s] <+: q) (ht : p ++ [t] <+: q) : s = t := by
  have hlength : (p ++ [s]).length = (p ++ [t]).length := by rw [List.length_append, List.length_append]; rfl
  have hpaths := (List.prefix_of_prefix_length_le hs ht hlength.le).eq_of_length hlength
  exact (List.cons.inj (List.append_cancel_left hpaths)).1

namespace Laid

theorem numbers_slots (h : r.Laid vs l) : l.slots.flatMap Layout.Slot.nonzeroRange = List.range l.totalNnz := by
  rw [h.slots, Layout.flatMap_nonzeroRange, map_nnz_listed, List.range_eq_range', h.total]
  rfl

theorem numbersUnder_nil (h : r.Laid vs l) : numbersUnder l [] = List.range l.totalNnz := by
  have hall : (l.slots.filter fun s => [].isPrefixOf s.path) = l.slots := List.filter_eq_self.mpr fun s _ => rfl
  rw [numbersUnder, hall, h.numbers_slots]

theorem numbersUnder_sorted (h : r.Laid vs l) (p : Path) : (numbersUnder l p).Pairwise (· < ·) := by
  have hsub : (numbersUnder l p).Sublist (l.slots.flatMap Layout.Slot.nonzeroRange) :=
    List.Sublist.flatMap List.filter_sublist _
  rw [h.numbers_slots] at hsub
  exact List.pairwise_lt_range.sublist hsub

theorem mem_numbersUnder (h : r.Laid vs l) :
    k ∈ numbersUnder l p ↔ ∃ i j v c, Stands vs i j v c ∧ k = nnzBefore vs i + j ∧ p <+: v.path := by
  rw [numbersUnder, List.mem_flatMap]
  constructor
  · rintro ⟨s, hs, hk⟩
    obtain ⟨hs, hpre⟩ := List.mem_filter.mp hs
    obtain ⟨i, v, hv, rfl⟩ := h.mem_slots hs
    obtain ⟨hfrom, hto⟩ := List.mem_range'_1.mp hk
    obtain ⟨j, rfl⟩ := Nat.exists_eq_add_of_le hfrom
    obtain ⟨c, hc⟩ := Shape.exists_cell (Nat.lt_of_add_lt_add_left hto)
    exact ⟨i, j, v, c, ⟨hv, hc⟩, rfl, List.isPrefixOf_iff_prefix.mp hpre⟩
  · rintro ⟨i, j, v, c, hs, rfl, hpre⟩
    have hslot := List.mem_of_getElem? (h.slot_visit hs.visit)
    refine ⟨slotOf vs i v, List.mem_filter.mpr ⟨hslot, List.isPrefixOf_iff_prefix.mpr hpre⟩, ?_⟩
    exact List.mem_range'_1.mpr ⟨Nat.le_add_right .., Nat.add_lt_add_left (Shape.lt_nnz hs.cell) _⟩

/-- The path of a node never ends with the step to a cell, so it lies over a cell exactly if it lies over its leaf. -/
theorem prefix_cellPath_iff (h : r.Laid vs l) (hp : r.locate p = .ok m.place) {i j : Nat} {v : Visit α} {c : Cell}
    (hs : Stands vs i j v c) : p <+: v.cellPath c ↔ p <+: v.path := by
  by_cases hone : v.leaf.shape.numel = 1
  · rw [Visit.cellPath_single hone]
  · rw [Visit.cellPath_many hone, List.prefix_concat_iff]
    refine or_iff_right ?_
    rintro rfl
    have hcell := h.locate_cell hs.visit hs.step
    rw [hp] at hcell
    exact Place.place_ne_cell m _ _ (Except.ok.inj hcell)

theorem mem_numbersUnder_iff_reverseLookup (h : r.Laid vs l) (hp : r.locate p = .ok m.place) :
    k ∈ numbersUnder l p ↔ k < l.totalNnz ∧ ∃ q, r.reverseLookup k = .ok q ∧ p <+: q := by
  rw [h.mem_numbersUnder]
  constructor
  · rintro ⟨i, j, v, c, hs, hk, hpre⟩
    have hq := h.reverseLookup_eq_ok.mpr ⟨i, j, v, c, hs, hk, rfl⟩
    exact ⟨h.exists_reverseLookup_iff.mp ⟨_, hq⟩, _, hq, (h.prefix_cellPath_iff hp hs).mpr hpre⟩
  · rintro ⟨-, q, hq, hpre⟩
    obtain ⟨i, j, v, c, hs, hk, rfl⟩ := h.reverseLookup_eq_ok.mp hq
    exact ⟨i, j, v, c, hs, hk, (h.prefix_cellPath_iff hp hs).mp hpre⟩

theorem exists_step_of_prefix (h : r.Laid vs l) (hp : r.locate p = .ok m.place) (hinner : ∀ f, m ≠ .leaf f)
    {v : Visit α} (hv : v ∈ vs) (hpre : p <+: v.path) : ∃ s ∈ m.steps, p ++ [s] <+: v.path := by
  obtain ⟨rest, hpath⟩ := hpre
  have hwalk := locate_eq_ok.mp (h.located v hv)
  rw [← hpath] at hwalk
  obtain ⟨y, hy, hrest⟩ := Place.walk_append_eq_ok.mp hwalk
  cases (locate_eq_ok.mp hp).symm.trans hy
  cases rest with
  | nil =>
    -- the path would end at the leaf, and the node is none
    exact absurd (Node.place_injective (m := .leaf v.leaf) (Except.ok.inj hrest)) (hinner v.leaf)
  | cons s rest =>
    obtain ⟨n, hn, -⟩ := Node.walk_cons_place (m := .leaf v.leaf).mp hrest
    exact ⟨s, Node.mem_steps_iff.mpr ⟨n, hn⟩, rest, by rw [← hpath, List.append_assoc]; rfl⟩

theorem mem_numbersUnder_steps (h : r.Laid vs l) (hp : r.locate p = .ok m.place) (hinner : ∀ f, m ≠ .leaf f) :
    k ∈ numbersUnder l p ↔ ∃ s ∈ m.steps, k ∈ numbersUnder l (p ++ [s]) := by
  simp only [h.mem_numbersUnder]
  constructor
  · rintro ⟨i, j, v, c, hs, hk, hpre⟩
    obtain ⟨s, hstep, hpre⟩ := h.exists_step_of_prefix hp hinner (List.mem_of_getElem? hs.visit) hpre
    exact ⟨s, hstep, i, j, v, c, hs, hk, hpre⟩
  · rintro ⟨s, -, i, j, v, c, hs, hk, hpre⟩
    exact ⟨i, j, v, c, hs, hk, (List.prefix_append p [s]).trans hpre⟩

/-- No two parts of a node share a number. -/
theorem disjoint_numbersUnder (h : r.Laid vs l) (hp : r.locate p = .ok m.place) :
    m.steps.Pairwise fun s t => (numbersUnder l (p ++ [s])).Disjoint (numbersUnder l (p ++ [t])) := by
  have hm : m.WellFormed := h.root.part (locate_eq_ok.mp hp)
  refine hm.nodup_steps.imp_of_mem fun {s t} hs ht hne => List.disjoint_left.mpr fun k hks hkt => hne ?_
  obtain ⟨n, hn⟩ := Node.mem_steps_iff.mp hs
  obtain ⟨n', hn'⟩ := Node.mem_steps_iff.mp ht
  obtain ⟨-, q, hq, hpre⟩ := (h.mem_numbersUnder_iff_reverseLookup (locate_concat hp hn.step)).mp hks
  obtain ⟨-, q', hq', hpre'⟩ := (h.mem_numbersUnder_iff_reverseLookup (locate_concat hp hn'.step)).mp hkt
  -- one number, one path: it cannot go on with two different steps
  cases hq.symm.trans hq'
  exact step_eq_of_prefix hpre hpre'

end Laid

/-- The numbers below a node are increasing, and are those whose paths begin with its path. Its parts share them out
among themselves. -/
theorem nonzeroIndices_spec {r : Registry α} (hr : r.Reachable) (hfrozen : r.isFrozen) :
    ∃ l, r.layout = .ok l ∧ r.nonzeroIndices [] = .ok (List.range l.totalNnz) ∧
      ∀ (p : Path) (m : Node α), r.locate p = .ok m.place →
        ∃ ks, r.nonzeroIndices p = .ok ks ∧ ks.Pairwise (· < ·) ∧
          (∀ k, k ∈ ks ↔ k < l.totalNnz ∧ ∃ q, r.reverseLookup k = .ok q ∧ p <+: q) ∧
          ((∀ f, m ≠ .leaf f) →
            ∃ part : Step → List Nat, (∀ s ∈ m.steps, r.nonzeroIndices (p ++ [s]) = .ok (part s)) ∧
              m.steps.Pairwise (fun s t => (part s).Disjoint (part t)) ∧ ∀ k, k ∈ ks ↔ ∃ s ∈ m.steps, k ∈ part s) := by
  obtain ⟨vs, l, h⟩ := hr.sound.laid hfrozen
  have hroot : r.nonzeroIndices [] = .ok (numbersUnder l []) := h.nonzeroIndices_node (m := .group r.root) rfl
  refine ⟨l, h.layout, hroot.trans (congrArg _ h.numbersUnder_nil), fun p m hp => ?_⟩
  refine ⟨numbersUnder l p, h.nonzeroIndices_node hp, h.numbersUnder_sorted p,
    fun k => h.mem_numbersUnder_iff_reverseLookup hp, fun hinner => ?_⟩
  refine ⟨fun s => numbersUnder l (p ++ [s]), fun s hs => ?_, h.disjoint_numbersUnder hp,
    fun k => h.mem_numbersUnder_steps hp hinner⟩
  obtain ⟨n, hn⟩ := Node.mem_steps_iff.mp hs
  exact h.nonzeroIndices_node (locate_concat hp hn.step)

theorem nonzeroIndices_spec_frozenSample :
    frozenSample.isFrozen ∧ frozenSample.nonzeroIndices [] = .ok [0, 1, 2, 3, 4, 5, 6] ∧
      frozenSample.nonzeroIndices [.name "y"] = .ok [1, 2, 4] ∧
      frozenSample.nonzeroIndices [.name "y", .index 0] = .ok [1, 2] ∧
      frozenSample.nonzeroIndices [.name "y", .index 1] = .ok [4] ∧ [1, 2].Disjoint [4] ∧
      ∃ q, frozenSample.reverseLookup 4 = .ok q ∧ [.name "y"] <+: q := by
  have hfrozen : frozenSample.isFrozen := by decide
  have hy : frozenSample.locate [.name "y"] = .ok (Node.list _).place := rfl
  have hwhole : frozenSample.nonzeroIndices [.name "y"] = .ok [1, 2, 4] := rfl
  have hsparse : frozenSample.nonzeroIndices [.name "y", .index 0] = .ok [1, 2] := rfl
  have hsingle : frozenSample.nonzeroIndices [.name "y", .index 1] = .ok [4] := rfl
  obtain ⟨l, hl, hroot, h⟩ := nonzeroIndices_spec reachable_frozenSample hfrozen
  obtain ⟨ks, hks, -, hpaths, hparts⟩ := h _ _ hy
  cases hwhole.symm.trans hks
  obtain ⟨part, hpart, hdisjoint, -⟩ := hparts nofun
  have hfirst : part (.index 0) = [1, 2] := Except.ok.inj ((hpart _ List.mem_cons_self).symm.trans hsparse)
  have hsecond : part (.index 1) = [4] :=
    Except.ok.inj ((hpart _ (List.mem_cons_of_mem _ List.mem_cons_self)).symm.trans hsingle)
  have hapart := (List.pairwise_cons.mp hdisjoint).1 (.index 1) List.mem_cons_self
  rw [hfirst, hsecond] at hapart
  obtain ⟨-, hpath⟩ := (hpaths 4).mp (by decide)
  cases hl
  exact ⟨hfrozen, hroot, hwhole, hsparse, hsingle, hapart, hpath⟩

end QuantityLayout.Registry
