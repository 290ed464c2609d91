import QuantityLayout.Proofs.Outcome
import QuantityLayout.Tree.Walk

set_option autoImplicit false

namespace QuantityLayout.Place

open Outcome (mapError_eq_error mapError_eq_ok)

variable {α : Type}

theorem walk_cons_eq_ok {x z : Place α} {s : Step} {p : Path} :
    x.walk (s :: p) = .ok z ↔ ∃ y, x.step s = .ok y ∧ y.walk p = .ok z := by
  rw [walk]
  cases x.step s <;> simp [mapError_eq_ok]

theorem walk_append_eq_ok {x z : Place α} {p q : Path} :
    x.walk (p ++ q) = .ok z ↔ ∃ y, x.walk p = .ok y ∧ y.walk q = .ok z := by
  induction p generalizing x with
  | nil => simp [walk]
  | cons s p ih =>
    simp only [List.cons_append, walk_cons_eq_ok, ih]
    constructor
    · intro hx
      obtain ⟨y, hs, w, hp, hq⟩ := hx
      exact ⟨w, ⟨y, hs, hp⟩, hq⟩
    · intro hx
      obtain ⟨w, ⟨y, hs, hp⟩, hq⟩ := hx
      exact ⟨y, hs, w, hp, hq⟩

theorem walk_cons_eq_error {x : Place α} {s : Step} {p : Path} {f : Walk.Fault} :
    x.walk (s :: p) = .error f ↔
      (∃ reason, x.step s = .error reason ∧ f = ⟨[s], reason⟩) ∨
        ∃ y g, x.step s = .ok y ∧ y.walk p = .error g ∧ f = g.under s := by
  rw [walk]
  cases x.step s with
  | ok y => simp [mapError_eq_error, eq_comm (a := f)]
  | error reason => simp [eq_comm (a := f)]

/-- A walk fails at its first step that leads nowhere, whatever comes after this step. -/
theorem walk_eq_error {x : Place α} {p : Path} {f : Walk.Fault} :
    x.walk p = .error f ↔ ∃ q s rest y reason, p = q ++ s :: rest ∧ x.walk q = .ok y ∧ y.step s = .error reason ∧
      f = ⟨q ++ [s], reason⟩ := by
  induction p generalizing x f with
  | nil => simp [walk]
  | cons s p ih =>
    rw [walk_cons_eq_error]
    constructor
    · rintro (⟨reason, hs, rfl⟩ | ⟨y, g, hs, hp, rfl⟩)
      · exact ⟨[], s, p, x, reason, rfl, rfl, hs, rfl⟩
      · obtain ⟨q, t, rest, z, reason, rfl, hq, ht, rfl⟩ := ih.mp hp
        exact ⟨s :: q, t, rest, z, reason, rfl, walk_cons_eq_ok.mpr ⟨y, hs, hq⟩, ht, rfl⟩
    · rintro ⟨q, t, rest, z, reason, hp, hq, ht, rfl⟩
      cases q with
      | nil =>
        cases hp
        cases hq
        exact .inl ⟨reason, ht, rfl⟩
      | cons a q =>
        cases hp
        obtain ⟨y, hs, hq⟩ := walk_cons_eq_ok.mp hq
        exact .inr ⟨y, ⟨q ++ [t], reason⟩, hs, ih.mpr ⟨q, t, rest, z, reason, rfl, hq, ht, rfl⟩, rfl⟩

theorem step_group_eq_ok {g : Group (Node α)} {s : Step} {y : Place α} :
    (group g).step s = .ok y ↔ ∃ n m, s = .name n ∧ g.get? n = some m ∧ y = m.place := by
  cases s with
  | name n => cases h : g.get? n <;> simp [step, h, eq_comm]
  | _ => simp [step]

theorem step_list_eq_ok {ns : List (Node α)} {s : Step} {y : Place α} :
    (list ns).step s = .ok y ↔ ∃ i m, s = .index i ∧ ns[i]? = some m ∧ y = m.place := by
  cases s with
  | index i => cases h : ns[i]? <;> simp [step, h, eq_comm]
  | _ => simp [step]

theorem step_leaf_eq_ok {l : Leaf α} {s : Step} {y : Place α} :
    (leaf l).step s = .ok y ↔
      (∃ r c, s = .cell r c ∧ (r < l.shape.rows ∧ c < l.shape.cols) ∧ y = cell l ⟨r, c⟩) ∨
      (∃ k c, s = .element k ∧ l.shape.cellAt k = some c ∧ y = cell l c) := by
  cases s with
  | cell r c =>
    have hcell : (∃ r' c', Step.cell r c = .cell r' c' ∧ (r' < l.shape.rows ∧ c' < l.shape.cols) ∧
        y = Place.cell l ⟨r', c'⟩) ↔ (r < l.shape.rows ∧ c < l.shape.cols) ∧ y = Place.cell l ⟨r, c⟩ := by
      constructor
      · intro hx
        obtain ⟨_, _, ⟨⟩, h⟩ := hx
        exact h
      · exact fun h => ⟨r, c, rfl, h⟩
    rw [hcell]
    by_cases h : r < l.shape.rows ∧ c < l.shape.cols <;> simp [step, h, eq_comm]
  | element k => cases h : l.shape.cellAt k <;> simp [step, h, eq_comm]
  | _ => simp [step]

theorem walk_cell_eq_ok {l : Leaf α} {c : Cell} {p : Path} {z : Place α} :
    (cell l c).walk p = .ok z ↔ p = [] ∧ z = cell l c := by
  cases p with
  | nil => simp [walk, eq_comm]
  | cons s p => simp [walk, step]

theorem walk_leaf_eq_leaf {l m : Leaf α} {p : Path} : (leaf l).walk p = .ok (leaf m) ↔ p = [] ∧ l = m := by
  cases p with
  | nil => simp [walk]
  | cons s p =>
    simp only [walk_cons_eq_ok, step_leaf_eq_ok, reduceCtorEq, false_and, iff_false]
    intro hx
    obtain ⟨y, ⟨r, c, -, -, rfl⟩ | ⟨k, c, -, -, rfl⟩, hp⟩ := hx
    · simp [walk_cell_eq_ok] at hp
    · simp [walk_cell_eq_ok] at hp

theorem node_or_cell (x : Place α) : (∃ n : Node α, x = n.place) ∨ ∃ l c, x = cell l c := by
  cases x with
  | group g => exact .inl ⟨.group g, rfl⟩
  | list ns => exact .inl ⟨.list ns, rfl⟩
  | leaf l => exact .inl ⟨.leaf l, rfl⟩
  | cell l c => exact .inr ⟨l, c, rfl⟩

theorem place_ne_cell (n : Node α) (l : Leaf α) (c : Cell) : n.place ≠ cell l c := by cases n <;> nofun

theorem eq_leaf_of_step {x : Place α} {s : Step} {l : Leaf α} {c : Cell} (h : x.step s = .ok (cell l c)) : x = leaf l := by
  cases x with
  | group g =>
    obtain ⟨_, n, -, -, hn⟩ := step_group_eq_ok.mp h
    exact absurd hn.symm (place_ne_cell n l c)
  | list ns =>
    obtain ⟨_, n, -, -, hn⟩ := step_list_eq_ok.mp h
    exact absurd hn.symm (place_ne_cell n l c)
  | leaf m =>
    rcases step_leaf_eq_ok.mp h with ⟨_, _, -, -, hm⟩ | ⟨_, _, -, -, hm⟩
    · cases hm
      rfl
    · cases hm
      rfl
  | cell m d => cases s <;> cases h

theorem walk_eq_cell {x : Place α} {p : Path} {l : Leaf α} {c : Cell} (h : x.walk p = .ok (cell l c)) :
    x = cell l c ∧ p = [] ∨ ∃ q s, p = q ++ [s] ∧ x.walk q = .ok (leaf l) ∧ (leaf l).step s = .ok (cell l c) := by
  induction p generalizing x with
  | nil =>
    cases h
    exact .inl ⟨rfl, rfl⟩
  | cons s p ih =>
    obtain ⟨y, hs, hp⟩ := walk_cons_eq_ok.mp h
    rcases ih hp with ⟨rfl, rfl⟩ | ⟨q, t, rfl, hq, ht⟩
    · cases eq_leaf_of_step hs
      exact .inr ⟨[], s, rfl, rfl, hs⟩
    · exact .inr ⟨s :: q, t, rfl, walk_cons_eq_ok.mpr ⟨y, hs, hq⟩, ht⟩

end QuantityLayout.Place
