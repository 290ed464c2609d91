import QuantityLayout.Layout.Indexed
import QuantityLayout.Proofs.Layout.Segments
import QuantityLayout.Proofs.Positions
/-!
Layouts with tables against plain ones. Leaf by leaf the tables stay in step with the slots, so what is looked up in
them is what a search through the slots finds; and the two ways to compute a layout agree, complaints included.
-/
set_option autoImplicit false

namespace QuantityLayout.Layout

variable {paths ps : List Path} {p q : Path}

theorem length_shortest_le (h : shortest ps = some q) : ∀ r ∈ ps, q.length ≤ r.length := by
  induction ps generalizing q with
  | nil => cases h
  | cons p ps ih =>
    unfold shortest at h
    split at h
    · next s hs =>
      have hle := ih hs
      split at h
      · next hlt =>
        cases h
        exact List.forall_mem_cons.mpr ⟨Nat.le_of_lt hlt, hle⟩
      · next hge =>
        cases h
        exact List.forall_mem_cons.mpr ⟨Nat.le_refl _, fun r hr => Nat.le_trans (Nat.le_of_not_lt hge) (hle r hr)⟩
    · next hs =>
      cases h
      rw [shortest_eq_none.mp hs]
      simp

theorem encloses_take {n : Nat} (hpos : 1 ≤ n) (hlt : n < p.length) : encloses (p.take n) p := by
  refine encloses_iff.mpr ⟨?_, ?_, List.take_prefix n p⟩
  · intro hnil
    have hlength := congrArg List.length hnil
    rw [List.length_take, List.length_nil] at hlength
    omega
  · rw [List.length_take]
    omega

/-- The shortest enclosing path is found by trying the initial parts from the shortest one on. -/
theorem enclosing?_eq_find? (test : Path → Bool) (htest : ∀ q, test q ↔ q ∈ paths) (p : Path) :
    ((List.range' 1 (p.length - 1)).find? fun n => test (p.take n)).map (p.take ·) = enclosing? paths p := by
  cases hfind : (List.range' 1 (p.length - 1)).find? fun n => test (p.take n) with
  | none =>
    refine (enclosing?_eq_none.mpr fun q hq henc => ?_).symm
    obtain ⟨hne, hlt, hpre⟩ := encloses_iff.mp henc
    have hpos := List.length_pos_iff.mpr hne
    have hnot := List.find?_eq_none.mp hfind q.length (List.mem_range'_1.mpr (by omega))
    rw [← List.prefix_iff_eq_take.mp hpre, htest] at hnot
    exact hnot hq
  | some n =>
    obtain ⟨hn, hmem, hfirst⟩ := List.find?_range'_eq_some.mp hfind
    obtain ⟨hpos, hlt⟩ := List.mem_range'_1.mp hmem
    have hfilter : p.take n ∈ paths.filter (encloses · p) :=
      List.mem_filter.mpr ⟨(htest _).mp hn, encloses_take hpos (by omega)⟩
    rw [Option.map_some]
    cases hshort : enclosing? paths p with
    | none =>
      rw [enclosing?, shortest_eq_none] at hshort
      rw [hshort] at hfilter
      cases hfilter
    | some q =>
      obtain ⟨hq, henc⟩ := List.mem_filter.mp (shortest_mem hshort)
      obtain ⟨hne, hlt', hpre⟩ := encloses_iff.mp henc
      have hle := length_shortest_le hshort _ hfilter
      rw [List.length_take] at hle
      have hqpos := List.length_pos_iff.mpr hne
      have htake := List.prefix_iff_eq_take.mp hpre
      -- a shorter one would have been found before
      have hge : ¬ q.length < n := by
        intro hless
        have hnot := hfirst q.length hqpos hless
        rw [← htake] at hnot
        simp [(htest q).mpr hq] at hnot
      have hlength : q.length = n := by omega
      rw [htake, hlength]

namespace Indexed

structure Of (x : Indexed) (ls : List (Path × Shape)) : Prop where
  slots : x.slots = place 0 0 ls
  positions : Positions x.positions (ls.map Prod.fst)
  nonzeros : x.nonzeros = ls.zipIdx.flatMap fun e => (List.range e.1.2.nnz).map fun j => (e.2, j)
  totalNumel : x.totalNumel = word (ls.map (·.2.numel)).sum
  totalNnz : x.totalNnz = (ls.map (·.2.nnz)).sum

variable {x x' : Indexed} {ls before : List (Path × Shape)}

theorem of_empty : empty.Of [] := ⟨rfl, Positions.empty, rfl, rfl, rfl⟩

namespace Of

theorem length_slots (h : x.Of ls) : x.slots.length = ls.length := by rw [h.slots, length_place]

theorem add_new (h : x.Of before) {leaf : Path × Shape} (hnew : leaf.1 ∉ before.map Prod.fst) :
    ∃ x', x.add leaf = .ok x' ∧ x'.Of (before ++ [leaf]) := by
  obtain ⟨p, s⟩ := leaf
  have hcontains : ¬ x.positions.contains p := fun hc => hnew ((h.positions.contains_iff p).mp hc)
  refine ⟨_, if_neg hcontains, ?_, ?_, ?_, ?_, ?_⟩
  · rw [place_append countBound_pos, Nat.zero_add, Nat.zero_add, ← h.slots, ← h.totalNumel, ← h.totalNnz]
    rfl
  · have htable := h.positions.insert hnew
    rwa [List.length_map, ← h.length_slots, ← List.map_singleton (f := Prod.fst), ← List.map_append] at htable
  · rw [List.zipIdx_append, List.flatMap_append, ← h.nonzeros, h.length_slots]
    simp
  · rw [List.map_append, List.sum_append, h.totalNumel, word_add_left]
    simp
  · rw [List.map_append, List.sum_append, ← h.totalNnz]
    simp

theorem foldlM_add (h : x.Of before) {seen : List Path} (hseen : ∀ p, p ∈ seen ↔ p ∈ before.map Prod.fst)
    (ls : List (Path × Shape)) :
    match firstRepeatAfter seen (ls.map Prod.fst) with
    | some p => ls.foldlM Indexed.add x = .error (.repeated p)
    | none => ∃ x', ls.foldlM Indexed.add x = .ok x' ∧ x'.Of (before ++ ls) := by
  induction ls generalizing x before seen with
  | nil => exact ⟨x, rfl, by rwa [List.append_nil]⟩
  | cons leaf ls ih =>
    rw [List.map_cons, firstRepeatAfter, List.foldlM_cons]
    by_cases hmem : leaf.1 ∈ seen
    · have hcontains := (h.positions.contains_iff leaf.1).mpr ((hseen leaf.1).mp hmem)
      rw [if_pos hmem, Indexed.add, if_pos hcontains]
      rfl
    · have hnew : leaf.1 ∉ before.map Prod.fst := fun hin => hmem ((hseen leaf.1).mpr hin)
      obtain ⟨x', hadd, h'⟩ := h.add_new hnew
      have hseen' : ∀ p, p ∈ leaf.1 :: seen ↔ p ∈ (before ++ [leaf]).map Prod.fst := fun p => by simp [hseen, or_comm]
      have hlater := ih h' hseen'
      rw [if_neg hmem, hadd]
      rwa [List.append_assoc] at hlater

theorem enclosing?_eq (h : x.Of ls) (p : Path) : x.enclosing? p = Layout.enclosing? (ls.map Prod.fst) p :=
  enclosing?_eq_find? _ h.positions.contains_iff p

theorem findEnclosed_eq (h : x.Of ls) (slots : List Slot) :
    x.findEnclosed slots = Layout.findEnclosed (ls.map Prod.fst) (slots.map (·.path)) := by
  induction slots with
  | nil => rfl
  | cons s slots ih =>
    have hhead := h.enclosing?_eq s.path
    cases hq : Layout.enclosing? (ls.map Prod.fst) s.path with
    | some q => simp only [Indexed.findEnclosed, Layout.findEnclosed, List.map_cons, hhead, hq]
    | none => simp only [Indexed.findEnclosed, Layout.findEnclosed, List.map_cons, hhead, hq, ih]

theorem layout_eq (h : x.Of ls) : x.layout = ⟨place 0 0 ls, word (ls.map (·.2.numel)).sum, (ls.map (·.2.nnz)).sum⟩ := by
  rw [layout, h.slots, h.totalNumel, h.totalNnz]

theorem length_nonzeros (h : x.Of ls) : x.nonzeros.length = x.layout.totalNnz := by
  have hcounts := congrArg (List.map fun e : Path × Shape => e.2.nnz) (List.zipIdx_map_fst 0 ls)
  rw [List.map_map] at hcounts
  rw [h.nonzeros, layout, h.totalNnz, List.length_flatMap, ← hcounts]
  simp only [List.length_map, List.length_range]
  rfl

theorem paths_slots (h : x.Of ls) : x.slots.map (·.path) = ls.map Prod.fst := by
  have hleaves := congrArg (List.map Prod.fst) (leaves_place 0 0 ls)
  rw [List.map_map] at hleaves
  rw [h.slots]
  exact hleaves

end Of

theorem ofLeaves_cases (ls : List (Path × Shape)) :
    (∃ c, ofLeaves ls = .error c ∧ conflict? (ls.map Prod.fst) = some c) ∨
      ∃ x, ofLeaves ls = .ok x ∧ x.Of ls ∧ conflict? (ls.map Prod.fst) = none := by
  have hseen : ∀ p : Path, p ∈ [] ↔ p ∈ ([] : List (Path × Shape)).map Prod.fst := fun _ => Iff.rfl
  have hfold := of_empty.foldlM_add hseen ls
  rw [List.nil_append] at hfold
  cases hrepeat : firstRepeatAfter [] (ls.map Prod.fst) with
  | some p =>
    simp only [hrepeat] at hfold
    refine .inl ⟨.repeated p, ?_, ?_⟩
    · simp only [ofLeaves, hfold, bind, Except.bind]
    · simp only [conflict?, firstRepeat, hrepeat]
  | none =>
    simp only [hrepeat] at hfold
    obtain ⟨x, hx, h⟩ := hfold
    have hfind := h.findEnclosed_eq x.slots
    rw [h.paths_slots] at hfind
    cases hc : Layout.findEnclosed (ls.map Prod.fst) (ls.map Prod.fst) with
    | some c =>
      refine .inl ⟨c, ?_, ?_⟩
      · simp only [ofLeaves, hx, bind, Except.bind, hfind, hc]
      · simp only [conflict?, firstRepeat, hrepeat, hc]
    | none =>
      refine .inr ⟨x, ?_, h, ?_⟩
      · simp only [ofLeaves, hx, bind, Except.bind, hfind, hc]
      · simp only [conflict?, firstRepeat, hrepeat, hc]

/-- Without its tables a layout is computed as before, and the same leaves are refused with the same complaint. -/
theorem map_layout_ofLeaves (ls : List (Path × Shape)) : (ofLeaves ls).map layout = Layout.ofLeaves ls := by
  unfold Layout.ofLeaves
  obtain ⟨c, hx, hc⟩ | ⟨x, hx, h, hc⟩ := ofLeaves_cases ls <;> rw [hx, hc]
  · rfl
  · simp only [Except.map, h.layout_eq, List.sum_eq_foldr]

theorem of_ofLeaves (hx : ofLeaves ls = .ok x) : x.Of ls := by
  obtain ⟨c, hc, -⟩ | ⟨x', hx', h, -⟩ := ofLeaves_cases ls
  · rw [hx] at hc
    cases hc
  · rw [hx] at hx'
    cases hx'
    exact h

/-- The table of present cells is what a search through the slots finds. -/
theorem getElem?_nonzeros (b n m k : Nat) (ls : List (Path × Shape)) :
    ((ls.zipIdx b).flatMap fun e => (List.range e.1.2.nnz).map fun j => (e.2, j))[k]?
      = findNonzero b (place n m ls) k := by
  induction ls generalizing b n m k with
  | nil => rfl
  | cons e ls ih =>
    rw [List.zipIdx_cons, List.flatMap_cons, place, findNonzero, List.getElem?_append]
    simp only [List.length_map, List.length_range]
    by_cases hk : k < e.2.nnz
    · simp [hk]
    · simp only [hk, if_false]
      exact ih ..

theorem Of.lookup (h : x.Of ls) (hnodup : (x.layout.slots.map (·.path)).Nodup) :
    (∀ p : Path, x.positions[p]? = x.layout.indexOf p) ∧ ∀ k, x.nonzeros[k]? = x.layout.nonzeroAt k := by
  refine ⟨fun p => Option.ext fun i => ?_, fun k => ?_⟩
  · rw [h.positions p i, indexOf_eq_some hnodup, ← h.paths_slots]
    simp [layout]
  · rw [h.nonzeros, nonzeroAt, layout, h.slots]
    exact getElem?_nonzeros 0 0 0 k ls

end Indexed
end QuantityLayout.Layout
