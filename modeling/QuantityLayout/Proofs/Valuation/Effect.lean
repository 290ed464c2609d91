import QuantityLayout.Proofs.Matrix
import QuantityLayout.Proofs.Valuation.Staged

set_option autoImplicit false

namespace QuantityLayout.Valuation

open Registry

variable {α : Type} {v v' : Valuation α} {vs : List (Visit α)} {i : Nat} {u : Visit α} {p : Path}
  {supply : Nat → Option Binary64}

theorem mapBuffer_eq_setBuffer {xs : List Binary64} (hxs : v.buffers[i]? = some xs)
    (f : List Binary64 → List Binary64) : v.mapBuffer i f = v.setBuffer i (f xs) := by
  have hset : v.buffers.modify i f = v.buffers.set i (f xs) := by
    rw [List.modify_eq_set_getElem?, hxs]
    rfl
  rw [mapBuffer, setBuffer, hset]

theorem length_fillBuffer (x : Binary64) (xs : List Binary64) : (fillBuffer x xs).length = xs.length :=
  List.length_replicate

def fillUnder (v : Valuation α) (p : Path) (x : Binary64) : Valuation α :=
  (v.layout.leavesUnder p).foldl (fun v e => v.mapBuffer e.1 (fillBuffer x)) v

inductive Effect (v : Valuation α) (vs : List (Visit α)) (p : Path) (supply : Nat → Option Binary64) :
    Valuation α → Prop where
  | leaf {i : Nat} {u : Visit α} {xs : List Binary64} (hu : vs[i]? = some u) (hp : p = u.path)
      (hlength : xs.length = u.leaf.shape.nnz) (hxs : ∀ n, n < xs.length → supply n = xs[n]?) :
      Effect v vs p supply (v.setBuffer i xs)
  | cell {i k : Nat} {u : Visit α} {s : Step} {c : Cell} {x : Binary64} (hu : vs[i]? = some u)
      (hp : p = u.path ++ [s]) (hs : (Place.leaf u.leaf).step s = .ok (.cell u.leaf c))
      (hk : u.leaf.shape.nzIndex c = some k) (hx : supply 0 = some x) :
      Effect v vs p supply (v.mapBuffer i (·.set k x))
  | subtree {m : Node α} {x : Binary64} (hm : ∀ f, m ≠ .leaf f) (hp : v.registry.locate p = .ok m.place)
      (hx : ∀ n, supply n = some x) : Effect v vs p supply (v.fillUnder p x)

theorem Effect.staged (he : Effect v vs p supply v') (h : v.Staged vs) : v'.Staged vs := by
  cases he with
  | leaf hu _ hlength _ => exact h.setBuffer hu hlength
  | cell => exact h.mapBuffer fun _ => List.length_set
  | subtree => exact h.foldl_mapBuffer (length_fillBuffer _) _

theorem setCell_eq_ok {s : Layout.Slot} {c : Cell} {x : Binary64} :
    v.setCell p i s c x = .ok v' ↔ ∃ k, s.shape.nzIndex c = some k ∧ v' = v.mapBuffer i (·.set k x) := by
  rw [setCell]
  cases s.shape.nzIndex c <;> simp [eq_comm]

theorem matrixValue_eq {m : Matrix Binary64} {c : Cell} (hr : c.row < m.rows) (hc : c.col < m.cols) :
    m.value? c.row c.col = some (matrixValue m c) := by
  rw [Matrix.value?, matrixValue, dif_pos ⟨hr, hc⟩, dif_pos ⟨hr, hc⟩]

namespace Staged

theorem setCell_effect (hu : vs[i]? = some u) {s : Step} {c : Cell}
    (hs : (Place.leaf u.leaf).step s = .ok (.cell u.leaf c)) {x : Binary64} (hx : supply 0 = some x)
    (hset : v.setCell (u.path ++ [s]) i (slotOf vs i u) c x = .ok v') : Effect v vs (u.path ++ [s]) supply v' := by
  obtain ⟨k, hk, rfl⟩ := setCell_eq_ok.mp hset
  exact .cell hu rfl hs hk hx

theorem entryFor_visit (h : v.Staged vs) (hu : vs[i]? = some u) (value? : Nat → Nat → Option Binary64) (n : Nat) :
    entryFor v.registry u.path value? n = u.leaf.shape.cells[n]?.bind fun c => value? c.row c.col := by
  rw [entryFor, h.laid.located u (List.mem_of_getElem? hu)]

theorem entryFor_cell (h : v.Staged vs) (hu : vs[i]? = some u) {s : Step} {c : Cell}
    (hs : (Place.leaf u.leaf).step s = .ok (.cell u.leaf c)) (value? : Nat → Nat → Option Binary64) (n : Nat) :
    entryFor v.registry (u.path ++ [s]) value? n = value? 0 0 := by
  rw [entryFor, h.laid.locate_cell hu hs]

theorem set_effect (h : v.Staged vs) {m : Matrix Binary64} (hset : v.set p m = .ok v') :
    Effect v vs p ((Write.set p m).supply v.registry) v' := by
  obtain ⟨t, ht, hset⟩ := Outcome.bind_eq_ok.mp hset
  obtain ⟨i, u, hu, rfl, rfl⟩ | ⟨i, u, s, c, hu, rfl, hs, -, rfl⟩ | ⟨m, -, -, rfl⟩ := h.target_cases ht
  · dsimp only [slotOf] at hset
    split at hset
    · cases hset
    · next hextent =>
      obtain ⟨hrows, hcols⟩ := Decidable.not_not.mp hextent
      split at hset
      · cases hset
      · cases hset
        refine .leaf hu rfl (List.length_map _) fun n hn => ?_
        rw [List.length_map] at hn
        obtain ⟨c, hc⟩ := Shape.exists_cell hn
        have hin := Shape.inside_of_getElem? hc
        rw [Write.supply, h.entryFor_visit hu, hc, Option.bind_some, List.getElem?_map, hc, Option.map_some]
        exact matrixValue_eq (hrows ▸ hin.1) (hcols ▸ hin.2)
  · dsimp only at hset
    split at hset
    · cases hset
    · next hsingle =>
      obtain ⟨hrows, hcols⟩ := Decidable.not_not.mp hsingle
      refine setCell_effect hu hs ?_ hset
      rw [Write.supply, h.entryFor_cell hu hs]
      exact matrixValue_eq (c := ⟨0, 0⟩) (hrows ▸ Nat.one_pos) (hcols ▸ Nat.one_pos)
  · cases hset

theorem setColumns_effect (h : v.Staged vs) {m : ColumnMatrix Binary64} (hset : v.setColumns p m = .ok v') :
    Effect v vs p ((Write.setColumns p m).supply v.registry) v' := by
  have hentry : m.value? = m.toRows.value? := funext₂ fun r c => (m.value?_toRows r c).symm
  have heffect := h.set_effect hset
  rw [Write.supply, ← hentry] at heffect
  exact heffect

theorem checkCount_eq_ok (h : v.Staged vs) {count : Nat} (hc : v.checkCount p count = .ok i) :
    ∃ u, vs[i]? = some u ∧ p = u.path ∧ count = u.leaf.shape.nnz := by
  obtain ⟨t, ht, hc⟩ := Outcome.bind_eq_ok.mp hc
  obtain ⟨j, u, hu, rfl, rfl⟩ | ⟨j, u, s, c, -, -, -, -, rfl⟩ | ⟨m, -, -, rfl⟩ := h.target_cases ht
  · dsimp only at hc
    split at hc
    · next hcount =>
      cases hc
      exact ⟨u, hu, rfl, hcount⟩
    · cases hc
  · cases hc
  · cases hc

theorem setNonzeros_effect (h : v.Staged vs) {xs : List Binary64} (hset : v.setNonzeros p xs = .ok v') :
    Effect v vs p ((Write.setNonzeros p xs).supply v.registry) v' := by
  obtain ⟨i, hi, hv⟩ := Outcome.bind_eq_ok.mp hset
  obtain ⟨u, hu, rfl, hcount⟩ := h.checkCount_eq_ok hi
  cases hv
  exact .leaf hu rfl hcount fun _ _ => rfl

theorem setScalar_effect (h : v.Staged vs) {x : Binary64} (hset : v.setScalar p x = .ok v') :
    Effect v vs p ((Write.setScalar p x).supply v.registry) v' := by
  obtain ⟨t, ht, hset⟩ := Outcome.bind_eq_ok.mp hset
  obtain ⟨i, u, hu, rfl, rfl⟩ | ⟨i, u, s, c, hu, rfl, hs, -, rfl⟩ | ⟨m, -, -, rfl⟩ := h.target_cases ht
  · dsimp only at hset
    split at hset
    · next hsingle =>
      obtain ⟨k, hk, rfl⟩ := setCell_eq_ok.mp hset
      obtain ⟨hnnz, rfl⟩ := Shape.nnz_of_single hsingle (Shape.lt_nnz (Shape.nzIndex_eq_some.mp hk))
      obtain ⟨xs, hxs, hlength⟩ := h.exists_buffer hu
      rw [mapBuffer_eq_setBuffer hxs]
      refine .leaf hu rfl (List.length_set.trans hlength) fun n hn => ?_
      rw [List.length_set, hlength] at hn
      obtain rfl : n = 0 := by change n < (slotOf vs i u).shape.nnz at hn; omega
      rw [List.getElem?_set_self (by rw [hlength]; exact hn)]
      rfl
    · cases hset
  · exact setCell_effect hu hs rfl hset
  · cases hset

theorem fill_effect (h : v.Staged vs) {x : Binary64} (hset : v.fill p x = .ok v') :
    Effect v vs p ((Write.fill p x).supply v.registry) v' := by
  obtain ⟨t, ht, hset⟩ := Outcome.bind_eq_ok.mp hset
  obtain ⟨i, u, hu, rfl, rfl⟩ | ⟨i, u, s, c, hu, rfl, hs, -, rfl⟩ | ⟨m, hm, hp, rfl⟩ := h.target_cases ht
  · obtain ⟨xs, hxs, hlength⟩ := h.exists_buffer hu
    cases hset
    rw [mapBuffer_eq_setBuffer hxs]
    refine .leaf hu rfl ((length_fillBuffer x xs).trans hlength) fun n hn => ?_
    rw [length_fillBuffer] at hn
    rw [fillBuffer, List.getElem?_replicate, if_pos hn]
    rfl
  · exact setCell_effect hu hs rfl hset
  · cases hset
    exact .subtree hm hp fun _ => rfl

theorem write_effect (h : v.Staged vs) {w : Write} (hw : v.write w = .ok v') :
    Effect v vs w.path (w.supply v.registry) v' := by
  cases w with
  | set p m => exact h.set_effect hw
  | setColumns p m => exact h.setColumns_effect hw
  | setNonzeros p xs => exact h.setNonzeros_effect hw
  | setScalar p x => exact h.setScalar_effect hw
  | fill p x => exact h.fill_effect hw

end Staged

end QuantityLayout.Valuation
