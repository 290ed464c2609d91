import QuantityLayout.Proofs.Layout.Offsets
import QuantityLayout.Proofs.Shape.Cells

set_option autoImplicit false

namespace QuantityLayout

/-- Of three lists that stand one after the other all elements of the middle one satisfy the predicate, and no others. -/
structure Block {ι : Type} (q : ι → Bool) (before block after : List ι) : Prop where
  none_before : ∀ x ∈ before, ¬ q x
  all : ∀ x ∈ block, q x
  none_after : ∀ x ∈ after, ¬ q x

namespace Block

variable {ι : Type} {q : ι → Bool} {before block after : List ι}

theorem filter (h : Block q before block after) : (before ++ block ++ after).filter q = block := by
  rw [List.filter_append, List.filter_append, List.filter_eq_nil_iff.mpr h.none_before, List.filter_eq_self.mpr h.all,
    List.filter_eq_nil_iff.mpr h.none_after, List.nil_append, List.append_nil]

end Block

namespace Layout

variable {ls : List (Path × Shape)} {s : Slot} {n m : Nat}

theorem place_append (hn : n < countBound) (m : Nat) (ls rest : List (Path × Shape)) :
    place n m (ls ++ rest)
      = place n m ls ++ place (word (n + (ls.map (·.2.numel)).sum)) (m + (ls.map (·.2.nnz)).sum) rest := by
  induction ls generalizing n m with
  | nil => simp [place, word_of_lt hn]
  | cons e ls ih => simp [place, ih (word_lt _), word_add_left, Nat.add_assoc]

theorem length_place (n m : Nat) (ls : List (Path × Shape)) : (place n m ls).length = ls.length := by
  rw [← List.length_map (fun s : Slot => (s.path, s.shape)), leaves_place]

def Countable (n : Nat) (ls : List (Path × Shape)) : Prop := n + (ls.map (·.2.numel)).sum < countBound

theorem Countable.tail {e : Path × Shape} (h : Countable n (e :: ls)) : Countable (n + e.2.numel) ls := by
  rw [Countable, List.map_cons, List.sum_cons] at h
  rwa [Countable, Nat.add_assoc]

theorem Countable.place_cons {e : Path × Shape} (h : Countable n (e :: ls)) (m : Nat) :
    place n m (e :: ls) = ⟨e.1, e.2, n, m⟩ :: place (n + e.2.numel) (m + e.2.nnz) ls := by
  rw [place, word_of_lt (Nat.lt_of_le_of_lt (Nat.le_add_right ..) h.tail)]

theorem le_numelOffset (h : Countable n ls) (hs : s ∈ place n m ls) : n ≤ s.numelOffset := by
  induction ls generalizing n m with
  | nil => cases hs
  | cons e ls ih =>
    rw [h.place_cons] at hs
    rcases List.mem_cons.mp hs with rfl | hs
    · exact Nat.le_refl n
    · exact Nat.le_trans (Nat.le_add_right ..) (ih h.tail hs)

/-- A slot ends before any later one begins. -/
theorem pairwise_place_end (h : Countable n ls) (m : Nat) :
    (place n m ls).Pairwise fun s t => s.numelOffset + s.shape.numel ≤ t.numelOffset := by
  induction ls generalizing n m with
  | nil => exact List.Pairwise.nil
  | cons e ls ih =>
    rw [h.place_cons]
    exact List.pairwise_cons.mpr ⟨fun t ht => le_numelOffset h.tail ht, ih h.tail _⟩

theorem pairwise_place (h : Countable n ls) (m : Nat) :
    (place n m ls).Pairwise fun s t => s.numelOffset < t.numelOffset :=
  (pairwise_place_end h m).imp fun {s _} hend => Nat.lt_of_lt_of_le (Nat.lt_add_of_pos_right s.shape.numel_pos) hend

def Slot.nonzeroRange (s : Slot) : List Nat := List.range' s.nnzOffset s.shape.nnz

theorem flatMap_nonzeroRange (n m : Nat) (ls : List (Path × Shape)) :
    (place n m ls).flatMap Slot.nonzeroRange = List.range' m (ls.map (·.2.nnz)).sum := by
  induction ls generalizing n m with
  | nil => rfl
  | cons e ls ih =>
    rw [place, List.flatMap_cons, ih, Slot.nonzeroRange, List.range'_append_1, List.map_cons, List.sum_cons]

theorem map_snd_leavesUnder (l : Layout) (p : Path) :
    (l.leavesUnder p).map Prod.snd = l.slots.filter fun s => p.isPrefixOf s.path := by
  have hfilter : (l.slots.zipIdx.map Prod.fst).filter (fun s => p.isPrefixOf s.path)
      = (l.slots.zipIdx.filter fun e => p.isPrefixOf e.1.path).map Prod.fst := List.filter_map
  rw [List.zipIdx_map_fst] at hfilter
  rw [leavesUnder, List.map_map, hfilter]
  rfl

theorem map_leavesUnder (l : Layout) (p : Path) :
    ((l.leavesUnder p).map fun e => (e.2.path, e.2.shape)) = l.leaves.filter fun e => p.isPrefixOf e.1 := by
  have hsnd : (fun e : Nat × Slot => (e.2.path, e.2.shape)) = (fun s : Slot => (s.path, s.shape)) ∘ Prod.snd := rfl
  rw [hsnd, ← List.map_map, map_snd_leavesUnder, leaves, List.filter_map]
  rfl

end Layout
end QuantityLayout
