import QuantityLayout.Proofs.Layout.Tables
import QuantityLayout.Proofs.Registry.Offsets
import QuantityLayout.Proofs.Registry.ReverseLookup
import QuantityLayout.Proofs.Tree.Indexed
import QuantityLayout.Registry.Tabled
/-!
Questions answered with tables against questions answered by a search. The leaves that the tree has and the ones that
the tables have are the same, so a position from a table is always one of the list that it is meant for, and the answers
agree.
-/
set_option autoImplicit false

namespace QuantityLayout

namespace Access

variable {β γ : Type}

@[simp] theorem ofAnswer_ok {b : β} : ofAnswer (.ok b) = .ok b := rfl

theorem ofAnswer_bind {answer : Except Error β} {next : β → Access γ} {follow : β → Except Error γ}
    (h : ∀ b, answer = .ok b → next b = ofAnswer (follow b)) :
    (ofAnswer answer >>= next) = ofAnswer (answer >>= follow) := by
  cases answer with
  | ok b => exact h b rfl
  | error e => rfl

theorem read_of_getElem? {xs : List β} {i : Nat} {x : β} (h : xs[i]? = some x) : read xs i = .ok x := by
  rw [read, h]
  rfl

theorem forEach_eq {f : γ → Access β} {g : γ → β} {cs : List γ} (h : ∀ c ∈ cs, f c = .ok (g c)) :
    forEach f cs = .ok (cs.map g) := by
  induction cs with
  | nil => rfl
  | cons c cs ih =>
    obtain ⟨hc, hcs⟩ := List.forall_mem_cons.mp h
    rw [forEach, hc, ih hcs]
    rfl

end Access

theorem Entries.exists_of_idxOf? {ν : Type} {es : List (String × ν)} {n : String} {i : Nat}
    (h : (es.map Prod.fst).idxOf? n = some i) : ∃ e, es[i]? = some e ∧ es.lookup n = some e.2 := by
  induction es generalizing i with
  | nil => cases h
  | cons e es ih =>
    obtain ⟨m, y⟩ := e
    rw [List.map_cons, List.idxOf?_cons] at h
    by_cases hm : m = n
    · subst hm
      simp only [beq_self_eq_true, if_true, Option.some.injEq] at h
      subst h
      exact ⟨_, rfl, List.lookup_cons_self⟩
    · simp only [beq_false_of_ne hm, Bool.false_eq_true, if_false, Option.map_eq_some_iff] at h
      obtain ⟨j, hj, rfl⟩ := h
      obtain ⟨e, he, hlookup⟩ := ih hj
      refine ⟨e, he, ?_⟩
      rw [List.lookup_cons, beq_false_of_ne (Ne.symm hm)]
      exact hlookup

namespace Registry.Tabled

open Access

variable {α : Type} {r : Registry α} {vs : List (Visit α)} {x : Layout.Indexed} {p : Path}

theorem entry_eq {ν : Type} (g : Group ν) (name : String) : entry g name = .ok (g.get? name) := by
  rw [entry, Group.names, Group.get?]
  cases hi : (g.entries.map Prod.fst).idxOf? name with
  | none =>
    rw [Entries.lookup_eq_none_iff.mpr (List.idxOf?_eq_none_iff.mp hi)]
  | some i =>
    obtain ⟨e, he, hlookup⟩ := Entries.exists_of_idxOf? hi
    simp only [read_of_getElem? he, hlookup, bind, Except.bind]

theorem step_eq (y : Place α) (s : Step) : step y s = .ok (y.step s) := by
  cases y with
  | group g =>
    cases s with
    | name n =>
      rw [step, entry_eq, Place.step]
      cases g.get? n <;> rfl
    | _ => rfl
  | _ => rfl

theorem walk_eq (y : Place α) (p : Path) : walk y p = .ok (y.walk p) := by
  induction p generalizing y with
  | nil => rfl
  | cons s p ih =>
    rw [walk, step_eq, Place.walk]
    cases y.step s with
    | error reason => rfl
    | ok z =>
      simp only [bind, Except.bind, ih]

theorem locate_eq (r : Registry α) (p : Path) : locate r p = ofAnswer (r.locate p) := by
  rw [locate, walk_eq]
  rfl

theorem denseToNz_eq (s : Shape) : denseToNz s = .ok s.denseToNz := by
  refine congrArg orOutside (scatter?_eq_some.mpr ⟨fun e he => ?_, rfl⟩)
  obtain ⟨⟨c, k⟩, hc, rfl⟩ := List.mem_map.mp he
  exact (Shape.inside_of_mem (List.fst_mem_of_mem_zipIdx hc)).linearIndex_lt

theorem denseElements_eq {f : Leaf α} {s : Layout.Slot} (hs : f.shape = s.shape) :
    denseElements f s = .ok (Registry.denseElements f) := by
  rw [denseElements, denseToNz_eq, ← hs, Registry.denseElements]
  refine forEach_eq fun k? hk => ?_
  cases k? with
  | none => rfl
  | some k =>
    rw [Shape.denseToNz_eq] at hk
    obtain ⟨c, -, hk⟩ := List.mem_map.mp hk
    obtain ⟨y, hy⟩ := Leaf.exists_element (Shape.lt_nnz (Shape.nzIndex_eq_some.mp hk))
    rw [denseElement, read_of_getElem? hy, Option.bind_some, hy]
    rfl

end Registry.Tabled

namespace Registry

open Access

variable {α : Type} {r : Registry α} {vs : List (Visit α)} {x : Layout.Indexed} {p : Path}

theorem leafAt_of_locate {f : Leaf α} (h : r.locate p = .ok (.leaf f)) : r.leafAt p = .ok f := by
  rw [leafAt, h]
  rfl

structure Kept (r : Registry α) (vs : List (Visit α)) (x : Layout.Indexed) : Prop where
  laid : r.Laid vs x.layout
  tables : x.Of x.layout.leaves

namespace Kept

theorem nodup (h : r.Kept vs x) : (x.layout.slots.map (·.path)).Nodup := h.laid.paths_slots ▸ h.laid.nodup

theorem positions_eq (h : r.Kept vs x) (p : Path) : x.positions[p]? = x.layout.indexOf p :=
  (h.tables.lookup h.nodup).1 p

theorem positions_visit (h : r.Kept vs x) {i : Nat} {v : Visit α} (hv : vs[i]? = some v) :
    x.positions[v.path]? = some i := by
  rw [h.positions_eq, Layout.indexOf_eq_some h.nodup]
  exact ⟨_, h.laid.slot_visit hv, rfl⟩

theorem slots_visit (h : r.Kept vs x) {i : Nat} {v : Visit α} (hv : vs[i]? = some v) :
    x.slots[i]? = some (slotOf vs i v) := h.laid.slot_visit hv

theorem owner_eq (h : r.Kept vs x) {f : Leaf α} {c : Cell} (hp : r.locate p = .ok (.cell f c)) :
    owner p = .ok p.dropLast := by
  obtain ⟨i, v, s, -, rfl, -⟩ := h.laid.locate_eq_cell hp
  simp [owner]

end Kept

theorem locate_eq_error {e : Error} (h : r.locate p = .error e) : ∃ f, e = .walk f := by
  unfold locate at h
  cases hw : (Place.group r.root).walk p with
  | ok y =>
    rw [hw] at h
    cases h
  | error f =>
    rw [hw] at h
    cases h
    exact ⟨f, rfl⟩

/-- Why a question to a frozen registry is refused: the path leads nowhere, it leads to something else than a leaf, no
leaf lies under it, or there is no present cell with the number. -/
inductive Refused : Error → Prop where
  | nowhere (f : Walk.Fault) : Refused (.walk f)
  | notLeaf (p : Path) : Refused (.absent (.notLeaf p))
  | noLeaves (p : Path) : Refused (.absent (.noLeaves p))
  | nonzero (k total : Nat) : Refused (.absent (.nonzero k total))

theorem leafAt_eq_error {e : Error} (h : r.leafAt p = .error e) : Refused e := by
  unfold leafAt at h
  cases hp : r.locate p with
  | error e' =>
    obtain ⟨f, rfl⟩ := locate_eq_error hp
    rw [hp] at h
    cases h
    exact .nowhere f
  | ok y =>
    rw [hp] at h
    cases y with
    | leaf f => cases h
    | _ =>
      cases h
      exact .notLeaf p

/-- A path leads nowhere, or to a visited leaf, a cell of one, or a subtree. -/
theorem Laid.locate_cases {l : Layout} (h : r.Laid vs l) (p : Path) :
    (∃ f, r.locate p = .error (.walk f)) ∨ (∃ (i : Nat) (v : Visit α), vs[i]? = some v ∧ p = v.path) ∨
      (∃ (i : Nat) (v : Visit α) (s : Step) (c : Cell), vs[i]? = some v ∧ p = v.path ++ [s] ∧
        (Place.leaf v.leaf).step s = .ok (.cell v.leaf c)) ∨
      ∃ m : Node α, (∀ f, m ≠ .leaf f) ∧ r.locate p = .ok m.place := by
  cases hp : r.locate p with
  | error e =>
    obtain ⟨f, rfl⟩ := locate_eq_error hp
    exact .inl ⟨f, rfl⟩
  | ok y =>
    rcases y.node_or_cell with ⟨m, rfl⟩ | ⟨f, c, rfl⟩
    · cases m with
      | leaf f =>
        obtain ⟨i, hv⟩ := h.exists_visit hp
        exact .inr (.inl ⟨i, _, hv, rfl⟩)
      | list ns => exact .inr (.inr (.inr ⟨_, by simp, rfl⟩))
      | group g => exact .inr (.inr (.inr ⟨_, by simp, rfl⟩))
    · obtain ⟨i, v, s, hv, rfl, rfl, -, hs⟩ := h.locate_eq_cell hp
      exact .inr (.inr (.inl ⟨i, v, s, c, hv, rfl, hs⟩))

def Begins : Found α → Prop
  | .group g => (Node.group g).leaves ≠ []
  | .list ns => (Node.list ns).leaves ≠ []
  | .leaf _ | .element _ | .structuralZero => True

namespace Laid

variable {l : Layout}

theorem leafIndex_visit (h : r.Laid vs l) {i : Nat} {v : Visit α} (hv : vs[i]? = some v) :
    r.leafIndex v.path = .ok i := by
  have hindex : l.indexOf v.path = some i :=
    (Layout.indexOf_eq_some (h.paths_slots ▸ h.nodup)).mpr ⟨_, h.slot_visit hv, rfl⟩
  rw [Registry.leafIndex, h.layout]
  simp only [bind, Except.bind, leafAt_of_locate (h.located v (List.mem_of_getElem? hv)), hindex]

theorem leafAt_eq_ok {f : Leaf α} (h : r.leafAt p = .ok f) : r.locate p = .ok (.leaf f) := by
  obtain ⟨y, hy, h⟩ := Outcome.bind_eq_ok.mp h
  cases y with
  | leaf f' =>
    cases h
    exact hy
  | _ => cases h

theorem leafQueries_of_leafAt (h : r.Laid vs l) {e : Error} (hp : r.leafAt p = .error e) :
    r.leafIndex p = .error e ∧ r.indexMatrix p = .error e := by
  rw [Registry.leafIndex, Registry.indexMatrix, h.layout, hp]
  exact ⟨rfl, rfl⟩

theorem visit_of_leafAt (h : r.Laid vs l) {f : Leaf α} (hp : r.leafAt p = .ok f) :
    ∃ (i : Nat) (v : Visit α), vs[i]? = some v ∧ p = v.path := by
  obtain ⟨i, hv⟩ := h.exists_visit (leafAt_eq_ok hp)
  exact ⟨i, _, hv, rfl⟩

theorem placeQueries_of_locate (h : r.Laid vs l) {e : Error} (hp : r.locate p = .error e) :
    r.lookup p = .error e ∧ r.offsetOf p = .error e ∧ r.nonzeroIndices p = .error e := by
  rw [Registry.lookup, Registry.offsetOf, Registry.nonzeroIndices, h.layout, hp]
  exact ⟨rfl, rfl, rfl⟩

theorem refused_offsetOf (h : r.Laid vs l) {e : Error} (he : r.offsetOf p = .error e) : Refused e := by
  rcases h.locate_cases p with ⟨f, hp⟩ | ⟨i, v, hv, rfl⟩ | ⟨i, v, s, c, hv, rfl, hs⟩ | ⟨m, hm, hp⟩
  · rw [(h.placeQueries_of_locate hp).2.1] at he
    cases he
    exact .nowhere f
  · rw [h.offsetOf_visit hv] at he
    cases he
  · rw [h.offsetOf_cell hv hs] at he
    cases he
  · rw [Registry.offsetOf, h.layout] at he
    cases m with
    | leaf f => exact absurd rfl (hm f)
    | _ =>
      simp only [bind, Except.bind, hp, Node.place] at he
      split at he
      · cases he
      · cases he
        exact .noLeaves p

theorem nonzeroIndices_of_lookup (h : r.Laid vs l) {y : Found α} (hp : r.lookup p = .ok y) :
    ∃ ks, r.nonzeroIndices p = .ok ks := by
  rcases h.locate_cases p with ⟨f, hnone⟩ | ⟨i, v, hv, rfl⟩ | ⟨i, v, s, c, hv, rfl, hs⟩ | ⟨m, hm, hm'⟩
  · rw [(h.placeQueries_of_locate hnone).1] at hp
    cases hp
  · exact ⟨_, h.nonzeroIndices_visit hv⟩
  · exact ⟨_, h.nonzeroIndices_cell hv hs⟩
  · rw [Registry.nonzeroIndices, h.layout]
    cases m with
    | leaf f => exact absurd rfl (hm f)
    | _ =>
      simp only [bind, Except.bind, hm', Node.place]
      exact ⟨_, rfl⟩

theorem refused_leafIndex (h : r.Laid vs l) {e : Error} (he : r.leafIndex p = .error e) : Refused e := by
  cases hp : r.leafAt p with
  | error e' =>
    rw [(h.leafQueries_of_leafAt hp).1] at he
    cases he
    exact leafAt_eq_error hp
  | ok f =>
    obtain ⟨i, v, hv, rfl⟩ := h.visit_of_leafAt hp
    rw [h.leafIndex_visit hv] at he
    cases he

theorem refused_indexMatrix (h : r.Laid vs l) {e : Error} (he : r.indexMatrix p = .error e) : Refused e := by
  cases hp : r.leafAt p with
  | error e' =>
    rw [(h.leafQueries_of_leafAt hp).2] at he
    cases he
    exact leafAt_eq_error hp
  | ok f =>
    obtain ⟨i, v, hv, rfl⟩ := h.visit_of_leafAt hp
    rw [h.indexMatrix_visit hv] at he
    cases he

theorem refused_reverseLookup (h : r.Laid vs l) {k : Nat} {e : Error} (he : r.reverseLookup k = .error e) :
    Refused e := by
  cases hk : l.nonzeroAt k with
  | none =>
    simp only [Registry.reverseLookup, h.layout, hk, bind, Except.bind] at he
    cases he
    exact .nonzero k l.totalNnz
  | some ij =>
    obtain ⟨i, j⟩ := ij
    obtain ⟨v, c, hv, rfl⟩ := h.nonzeroAt_eq_some.mp hk
    rw [h.reverseLookup_of_stands hv] at he
    cases he

theorem refused (h : r.Laid vs l) {q : Query} {e : Error} (he : r.answer q = .error e) : Refused e := by
  cases q with
  | lookup p =>
    obtain ⟨f, rfl⟩ := locate_eq_error (Outcome.map_eq_error.mp (Outcome.map_eq_error.mp he))
    exact .nowhere f
  | slot p =>
    rw [answer, h.layout] at he
    cases he
  | reverseLookup k => exact h.refused_reverseLookup (Outcome.map_eq_error.mp he)
  | flattenDense =>
    rw [answer, h.flattenDense] at he
    cases he
  | flattenNonzero =>
    rw [answer, h.flattenNonzero] at he
    cases he
  | offsetOf p => exact h.refused_offsetOf (Outcome.map_eq_error.mp he)
  | leafIndex p => exact h.refused_leafIndex (Outcome.map_eq_error.mp he)
  | nonzeroIndices p =>
    have hn := Outcome.map_eq_error.mp he
    cases hp : r.lookup p with
    | error e' =>
      obtain ⟨f, rfl⟩ := locate_eq_error (Outcome.map_eq_error.mp hp)
      rw [(h.placeQueries_of_locate (Outcome.map_eq_error.mp hp)).2.2] at hn
      cases hn
      exact .nowhere f
    | ok y =>
      obtain ⟨ks, hks⟩ := h.nonzeroIndices_of_lookup hp
      rw [hks] at hn
      cases hn
  | indexMatrix p => exact h.refused_indexMatrix (Outcome.map_eq_error.mp he)

end Laid

/-- What the layout of a frozen registry has is what the tree has: both have the same leaves. -/
structure Agree (r : Registry α) (l : Layout) : Prop where
  dense : ∃ cells, r.flattenDense = .ok cells
  nonzero : ∃ elements, r.flattenNonzero = .ok elements
  leafIndex : ∀ p, (∃ i, r.leafIndex p = .ok i) ↔ ∃ f, r.lookup p = .ok (.leaf f)
  indexMatrix : ∀ p, (∃ m, r.indexMatrix p = .ok m) ↔ ∃ f, r.lookup p = .ok (.leaf f)
  /-- The index of a leaf is the position of its slot. -/
  position : ∀ p i, r.leafIndex p = .ok i ↔ ∃ s, l.slots[i]? = some s ∧ s.path = p
  nonzeroIndices : ∀ p, (∃ ks, r.nonzeroIndices p = .ok ks) ↔ ∃ y, r.lookup p = .ok y
  offsetOf : ∀ p, (∃ o, r.offsetOf p = .ok o) ↔ ∃ y, r.lookup p = .ok y ∧ Begins y

namespace Laid

variable {l : Layout}

end Laid

end Registry
end QuantityLayout
