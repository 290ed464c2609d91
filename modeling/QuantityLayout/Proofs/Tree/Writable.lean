import QuantityLayout.Proofs.Path.RoundTrip
import QuantityLayout.Proofs.Shape.Cells
import QuantityLayout.Proofs.Tree.Inventory

set_option autoImplicit false

namespace QuantityLayout

variable {α : Type}

theorem Leaf.writable_walk {l : Leaf α} {p : Path} {z : Place α} (h : (Place.leaf l).walk p = .ok z) :
    p.Writable := by
  cases p with
  | nil => simp [Path.Writable]
  | cons s q =>
    obtain ⟨y, hs, hq⟩ := Place.walk_cons_eq_ok.mp h
    rcases Place.step_leaf_eq_ok.mp hs with ⟨r, c, rfl, hin, rfl⟩ | ⟨k, c, rfl, hk, rfl⟩
    · obtain ⟨rfl, -⟩ := Place.walk_cell_eq_ok.mp hq
      have hr := Nat.lt_trans hin.1 l.shape.rows_lt
      have hc := Nat.lt_trans hin.2 l.shape.cols_lt
      simpa [Path.Writable, Step.Writable] using And.intro hr hc
    · obtain ⟨rfl, -⟩ := Place.walk_cell_eq_ok.mp hq
      have hlt : k < l.shape.numel := by
        by_cases hlt : k < l.shape.numel
        · exact hlt
        · simp [Shape.cellAt, hlt] at hk
      have hbound := Nat.lt_trans hlt l.shape.extent.2.2
      simpa [Path.Writable, Step.Writable] using hbound

theorem Node.writable_walk {n : Node α} (hn : n.WellFormed) {p : Path} {z : Place α}
    (h : n.place.walk p = .ok z) : p.Writable := by
  induction n generalizing p with
  | leaf l => exact Leaf.writable_walk h
  | list ns ih =>
    cases p with
    | nil => simp [Path.Writable]
    | cons s q =>
      obtain ⟨y, hs, hq⟩ := Place.walk_cons_eq_ok.mp h
      obtain ⟨i, m, rfl, hi, rfl⟩ := Place.step_list_eq_ok.mp hs
      have hmem := List.mem_of_getElem? hi
      have hlen := (List.getElem?_eq_some_iff.mp hi).1
      exact Path.writable_cons.mpr ⟨Nat.lt_trans hlen hn.1, ih m hmem (hn.items m hmem) hq⟩
  | group es o ih =>
    cases p with
    | nil => simp [Path.Writable]
    | cons s q =>
      obtain ⟨y, hs, hq⟩ := Place.walk_cons_eq_ok.mp h
      obtain ⟨s, m, rfl, hget, rfl⟩ := Place.step_group_eq_ok.mp hs
      have hmem := Entries.mem_of_lookup hget
      have hname := hn.1.2 s (Entries.name_mem_of_lookup hget)
      exact Path.writable_cons.mpr ⟨hname, ih _ hmem (hn.entries _ hmem) hq⟩

end QuantityLayout
