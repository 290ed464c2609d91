import QuantityLayout.Proofs.Registry.Visits
import QuantityLayout.Proofs.Shape.Dense

set_option autoImplicit false

namespace QuantityLayout.Registry

variable {α β : Type} {r : Registry α} {vs : List (Visit α)} {l : Layout} {i k : Nat} {v : Visit α} {c : Cell}

theorem gather_place (f : Leaf α → List β) (n m : Nat) (h : ∀ v ∈ vs, r.locate v.path = .ok (.leaf v.leaf)) :
    r.gather f (Layout.place n m (listed vs)) = .ok (vs.flatMap fun v => f v.leaf) := by
  induction vs generalizing n m with
  | nil => rfl
  | cons v vs ih =>
    obtain ⟨hv, hvs⟩ := List.forall_mem_cons.mp h
    have hleaf : r.leafAt v.path = .ok v.leaf := by
      rw [leafAt, hv]
      rfl
    have hrest := ih (word (n + v.leaf.shape.numel)) (m + v.leaf.shape.nnz) hvs
    rw [listed, List.map_cons, Layout.place, gather, hleaf]
    rw [listed] at hrest
    simp [hrest, bind, Except.bind]

def flatDense (vs : List (Visit α)) : List (Option α) := vs.flatMap fun v => denseElements v.leaf

theorem length_flatDense (vs : List (Visit α)) : (flatDense vs).length = (vs.map (·.leaf.shape.numel)).sum := by
  rw [flatDense, List.length_flatMap]
  simp only [Leaf.length_denseElements]

theorem length_flatMap_elements (vs : List (Visit α)) :
    (vs.flatMap fun v => v.leaf.elements).length = (vs.map (·.leaf.shape.nnz)).sum := by
  rw [List.length_flatMap]
  simp only [Leaf.fits]

theorem split_visits (hv : vs[i]? = some v) : vs.take i ++ v :: vs.drop (i + 1) = vs := by
  obtain ⟨hi, rfl⟩ := List.getElem?_eq_some_iff.mp hv
  rw [List.getElem_cons_drop, List.take_append_drop]

theorem split_flatMap (f : Visit α → List β) (hv : vs[i]? = some v) :
    vs.flatMap f = (vs.take i).flatMap f ++ (f v ++ (vs.drop (i + 1)).flatMap f) := by
  rw [← List.flatMap_cons, ← List.flatMap_append, split_visits hv]

theorem split_flatDense (hv : vs[i]? = some v) :
    flatDense vs = flatDense (vs.take i) ++ (denseElements v.leaf ++ flatDense (vs.drop (i + 1))) := split_flatMap _ hv

theorem getElem?_flatDense (hv : vs[i]? = some v) (hk : k < v.leaf.shape.numel) :
    (flatDense vs)[numelBefore vs i + k]? = (denseElements v.leaf)[k]? := by
  rw [numelBefore, ← length_flatDense, split_flatDense hv, List.getElem?_append_right (Nat.le_add_right ..),
    Nat.add_sub_cancel_left, List.getElem?_append_left (by rwa [Leaf.length_denseElements])]

theorem getElem?_flatMap_elements (hv : vs[i]? = some v) (hk : k < v.leaf.shape.nnz) :
    (vs.flatMap fun v => v.leaf.elements)[nnzBefore vs i + k]? = v.leaf.elements[k]? := by
  rw [nnzBefore, ← length_flatMap_elements, split_flatMap _ hv, List.getElem?_append_right (Nat.le_add_right ..),
    Nat.add_sub_cancel_left, List.getElem?_append_left (by rwa [Leaf.fits])]

theorem getElem?_flatDense_cell (hv : vs[i]? = some v) (hc : v.leaf.shape.Inside c) :
    (flatDense vs)[numelBefore vs i + v.leaf.shape.linearIndex c]? = some (v.leaf.element c) := by
  rw [getElem?_flatDense hv hc.linearIndex_lt, Leaf.getElem?_denseElements hc]

theorem sum_take_add_le (f : Visit α → Nat) (hv : vs[i]? = some v) : ((vs.take i).map f).sum + f v ≤ (vs.map f).sum := by
  have hsplit := congrArg (fun ws : List (Visit α) => (ws.map f).sum) (split_visits hv)
  simp only [List.map_append, List.sum_append, List.map_cons, List.sum_cons] at hsplit
  omega

theorem nnzBefore_add_le (hv : vs[i]? = some v) :
    nnzBefore vs i + v.leaf.shape.nnz ≤ (vs.map (·.leaf.shape.nnz)).sum := sum_take_add_le (·.leaf.shape.nnz) hv

namespace Laid

theorem flattenDense (h : r.Laid vs l) : r.flattenDense = .ok (flatDense vs) := by
  have hgather := gather_place (r := r) denseElements 0 0 h.located
  rw [Registry.flattenDense, h.layout, flatDense, ← hgather, ← h.slots]
  rfl

theorem flattenNonzero (h : r.Laid vs l) : r.flattenNonzero = .ok (vs.flatMap fun v => v.leaf.elements) := by
  have hgather := gather_place (r := r) Leaf.elements 0 0 h.located
  rw [Registry.flattenNonzero, h.layout, ← hgather, ← h.slots]
  rfl

end Laid

end QuantityLayout.Registry
