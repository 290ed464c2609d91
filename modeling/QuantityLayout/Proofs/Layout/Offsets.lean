import QuantityLayout.Layout.Basic
import Mathlib.Algebra.GroupWithZero.Nat
import Mathlib.Data.List.Nodup

set_option autoImplicit false

namespace QuantityLayout.Layout

theorem findEnclosed_eq_none {paths ps : List Path} :
    findEnclosed paths ps = none ↔ ∀ p ∈ ps, ∀ q ∈ paths, ¬ encloses q p := by
  induction ps with
  | nil => simp [findEnclosed]
  | cons p ps ih =>
    rw [findEnclosed, List.forall_mem_cons, ← enclosing?_eq_none, ← ih]
    cases enclosing? paths p <;> simp

theorem conflict?_eq_none {ps : List Path} :
    conflict? ps = none ↔ ps.Nodup ∧ ∀ p ∈ ps, ∀ q ∈ ps, ¬ encloses q p := by
  rw [← firstRepeat_eq_none, ← findEnclosed_eq_none, conflict?]
  cases firstRepeat ps <;> simp

theorem ofLeaves_eq_ok {ls : List (Path × Shape)} {l : Layout} :
    ofLeaves ls = .ok l ↔ conflict? (ls.map Prod.fst) = none ∧
      l = ⟨place 0 0 ls, word (ls.map (·.2.numel)).sum, (ls.map (·.2.nnz)).sum⟩ := by
  unfold ofLeaves
  cases conflict? (ls.map Prod.fst) <;> simp [List.sum_eq_foldr, eq_comm]

theorem exists_ofLeaves {ls : List (Path × Shape)} (hnodup : (ls.map Prod.fst).Nodup)
    (hapart : ∀ p ∈ ls.map Prod.fst, ∀ q ∈ ls.map Prod.fst, q <+: p → q = p) : ∃ l, ofLeaves ls = .ok l := by
  refine ⟨_, ofLeaves_eq_ok.mpr ⟨conflict?_eq_none.mpr ⟨hnodup, ?_⟩, rfl⟩⟩
  intro p hp q hq henc
  obtain ⟨-, hlen, hpre⟩ := encloses_iff.mp henc
  rw [hapart p hp q hq hpre] at hlen
  exact Nat.lt_irrefl _ hlen

/-- A slot begins where the slots before it end. -/
theorem getElem?_place {n : Nat} (hn : n < countBound) (m : Nat) (ls : List (Path × Shape)) (i : Nat) :
    (place n m ls)[i]? = ls[i]?.map fun e =>
      (⟨e.1, e.2, word (n + ((ls.take i).map (·.2.numel)).sum), m + ((ls.take i).map (·.2.nnz)).sum⟩ : Slot) := by
  induction ls generalizing n m i with
  | nil => rfl
  | cons e ls ih =>
    obtain ⟨p, s⟩ := e
    cases i with
    | zero => simp [place, word_of_lt hn]
    | succ i => simp [place, ih (word_lt _), word_add_left, Nat.add_assoc]

theorem le_nnzOffset {n m i : Nat} {ls : List (Path × Shape)} {s : Slot} (h : (place n m ls)[i]? = some s) :
    m ≤ s.nnzOffset := by
  induction ls generalizing n m i with
  | nil => cases h
  | cons e ls ih =>
    cases i with
    | zero =>
      cases h
      exact Nat.le_refl m
    | succ i => exact Nat.le_trans (Nat.le_add_right ..) (ih h)

theorem findNonzero_place (b n m k : Nat) (ls : List (Path × Shape)) (r : Nat × Nat) :
    findNonzero b (place n m ls) k = some r ↔
      ∃ i j s, r = (b + i, j) ∧ (place n m ls)[i]? = some s ∧ j < s.shape.nnz ∧ m + k = s.nnzOffset + j := by
  induction ls generalizing b n m k with
  | nil => simp [place, findNonzero]
  | cons e ls ih =>
    obtain ⟨p, s⟩ := e
    rw [place, findNonzero]
    by_cases hk : k < s.nnz
    · simp only [hk, if_true]
      refine ⟨?_, ?_⟩
      · intro h
        cases h
        exact ⟨0, k, _, rfl, rfl, hk, rfl⟩
      · intro hx
        obtain ⟨i, j, t, hr, ht, hj, hoff⟩ := hx
        cases i with
        | zero =>
          cases ht
          have : j = k := by simp only at hoff; omega
          rw [hr, this]
          rfl
        | succ i =>
          have := le_nnzOffset ht
          omega
    · simp only [hk, if_false, ih]
      have hsum : m + s.nnz + (k - s.nnz) = m + k := by omega
      rw [hsum]
      refine ⟨?_, ?_⟩
      · intro hx
        obtain ⟨i, j, t, hr, ht, hj, hoff⟩ := hx
        exact ⟨i + 1, j, t, by rw [hr]; congr 1; omega, ht, hj, hoff⟩
      · intro hx
        obtain ⟨i, j, t, hr, ht, hj, hoff⟩ := hx
        cases i with
        | zero =>
          cases ht
          simp only at hj hoff
          omega
        | succ i => exact ⟨i, j, t, by rw [hr]; congr 1; omega, ht, hj, hoff⟩

theorem exists_findNonzero_iff (b k : Nat) (slots : List Slot) :
    (∃ r, findNonzero b slots k = some r) ↔ k < (slots.map fun s => s.shape.nnz).sum := by
  induction slots generalizing b k with
  | nil => simp [findNonzero]
  | cons s rest ih =>
    rw [findNonzero, List.map_cons, List.sum_cons]
    by_cases hk : k < s.shape.nnz
    · simp only [hk, if_true, Option.some.injEq, exists_eq', true_iff]
      omega
    · simp only [hk, if_false, ih]
      omega

theorem getElem?_slot? {l : Layout} (hl : (l.slots.map (·.path)).Nodup) {i : Nat} {s : Slot}
    (h : l.slots[i]? = some s) : l.slot? s.path = some s := by
  have hmem := List.mem_of_getElem? h
  cases hf : l.slot? s.path with
  | none =>
    have := List.find?_eq_none.mp hf s hmem
    simp at this
  | some t =>
    have hpath : t.path = s.path := by simpa using List.find?_some hf
    rw [List.inj_on_of_nodup_map hl (List.mem_of_find?_eq_some hf) hmem hpath]

theorem indexOf_eq_some {l : Layout} (hl : (l.slots.map (·.path)).Nodup) {p : Path} {i : Nat} :
    l.indexOf p = some i ↔ ∃ s, l.slots[i]? = some s ∧ s.path = p := by
  have hget (j : Nat) (hj : j < l.slots.length) : (l.slots.map (·.path))[j]? = some l.slots[j].path := by
    rw [List.getElem?_map, List.getElem?_eq_getElem hj, Option.map_some]
  rw [indexOf, List.findIdx?_eq_some_iff_getElem]
  refine ⟨?_, ?_⟩
  · intro h
    obtain ⟨hi, hpath, -⟩ := h
    exact ⟨_, List.getElem?_eq_getElem hi, by simpa using hpath⟩
  · intro h
    obtain ⟨s, hs, rfl⟩ := h
    obtain ⟨hi, rfl⟩ := List.getElem?_eq_some_iff.mp hs
    refine ⟨hi, by simp, fun j hji => ?_⟩
    intro hpath
    have heq : (l.slots.map (·.path))[j]? = (l.slots.map (·.path))[i]? := by
      rw [hget j (by omega), hget i hi]
      simpa using hpath
    have hj : j < (l.slots.map (·.path)).length := by rw [List.length_map]; omega
    have := (List.getElem?_inj hj hl).mp heq
    omega

theorem filter_zipIdx_single {q : Slot → Bool} {slots : List Slot} {b i : Nat} {s : Slot}
    (h : slots[i]? = some s) (hq : ∀ j t, slots[j]? = some t → (q t ↔ j = i)) :
    ((slots.zipIdx b).filter fun e => q e.1) = [(s, b + i)] := by
  induction slots generalizing b i with
  | nil => simp at h
  | cons t rest ih =>
    rw [List.zipIdx_cons]
    cases i with
    | zero =>
      cases h
      have hs : q s = true := (hq 0 s rfl).mpr rfl
      have hrest : ((rest.zipIdx (b + 1)).filter fun e => q e.1) = [] := by
        rw [List.filter_eq_nil_iff]
        intro e he hqe
        obtain ⟨j, hj⟩ := List.getElem?_of_mem (List.fst_mem_of_mem_zipIdx he)
        exact Nat.succ_ne_zero j ((hq (j + 1) e.1 hj).mp hqe)
      simp only [List.filter_cons, hs, if_true, hrest]
      rfl
    | succ i =>
      have ht : q t = false := by
        rw [Bool.eq_false_iff]
        exact fun hqt => Nat.succ_ne_zero i ((hq 0 t rfl).mp hqt).symm
      have hih := ih (b := b + 1) h fun j u hu => by
        rw [hq (j + 1) u hu]
        omega
      simp only [List.filter_cons, ht, Bool.false_eq_true, if_false, hih]
      congr 2
      omega

/-- Nothing but the leaf itself lies under the path of a leaf that is apart from the others. -/
theorem leavesUnder_leaf {l : Layout} {i : Nat} {s : Slot} (h : l.slots[i]? = some s)
    (hapart : ∀ j t, l.slots[j]? = some t → s.path <+: t.path → j = i) : l.leavesUnder s.path = [(i, s)] := by
  have hq : ∀ j t, l.slots[j]? = some t → (s.path.isPrefixOf t.path ↔ j = i) := by
    intro j t ht
    rw [List.isPrefixOf_iff_prefix]
    refine ⟨hapart j t ht, ?_⟩
    intro hj
    rw [hj, h] at ht
    cases ht
    exact List.prefix_refl _
  rw [leavesUnder, filter_zipIdx_single h hq, List.map_singleton, Nat.zero_add]

end QuantityLayout.Layout
