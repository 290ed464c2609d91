import QuantityLayout.Proofs.Order.Fits
import QuantityLayout.Proofs.Order.Rounds
import QuantityLayout.Proofs.Tree.WellOrdered
import Mathlib.Data.List.Forall2

set_option autoImplicit false

namespace QuantityLayout

variable {α : Type} {policy : Policy} {g : Group (Node α)} {ns : List String} {columns : List (List (Visits α))}

def Group.ColumnOf (policy : Policy) (g : Group (Node α)) (name : String) (column : List (Visits α)) : Prop :=
  ∃ n us, g.get? name = some n ∧ n.slots policy = .ok us ∧ column = us.map (Visits.under (.name name))

namespace Node

theorem tuple_columns (h : List.Forall₂ (g.ColumnOf policy) ns columns) :
    Order.tuple (Node.columns policy g.entries) ns = .ok columns := by
  induction h with
  | nil => rfl
  | @cons name column ns columns hcolumn _ ih =>
    obtain ⟨n, us, hn, hus, rfl⟩ := hcolumn
    rw [Order.tuple, Order.column_eq_ok.mpr (lookup_columns_of_lookup hn), hus, ih]
    rfl

theorem resolve_columns (h : List.Forall₂ (g.ColumnOf policy) ns columns)
    (haccepts : policy.interleaving.acceptsLengths (columns.map List.length)) :
    (Order.Item.interleave ns).resolve policy (Node.columns policy g.entries) = .ok (RoundRobin.merge columns) := by
  rw [Order.Item.resolve, tuple_columns h]
  exact if_pos haccepts

/-- If the policy accepts the numbers of slots of `k` named entries, slot `i` of the entry at place `j` comes at
position `i * k + j`, and no position is left out. -/
theorem interleave_positions (hcolumns : List.Forall₂ (g.ColumnOf policy) ns columns)
    (haccepts : policy.interleaving.acceptsLengths (columns.map List.length)) :
    ∃ merged, (Order.Item.interleave ns).resolve policy (Node.columns policy g.entries) = .ok merged ∧
      merged.length = (columns.map List.length).sum ∧
      (∀ i j, j < ns.length → merged[i * ns.length + j]? = columns[j]?.bind (·[i]?)) ∧
      merged.Perm columns.flatten ∧ (∀ column ∈ columns, column.Sublist merged) ∧
      ∀ i, (∃ column ∈ columns, i + 1 < column.length) → ∀ column ∈ columns, i < column.length := by
  have heven := Policy.even_of_accepts haccepts
  have hlength := hcolumns.length_eq
  refine ⟨_, resolve_columns hcolumns haccepts, Order.length_merge columns, fun i j hj => ?_,
    RoundRobin.merge_perm columns, fun column hmem => RoundRobin.sublist_merge hmem, ?_⟩
  · rw [hlength] at hj ⊢
    exact RoundRobin.getElem?_merge heven hj
  · rintro i ⟨next, hnext, hlong⟩ column hmem
    have hclose := heven.close _ (List.mem_map_of_mem hnext) _ (List.mem_map_of_mem hmem)
    omega

/-- A list, a group with an order of its own, and a leaf; only the leaf runs out before the last round. -/
def sampleTurns : Group (Node Symbol) :=
  ⟨[("e", .leaf (.scalar "e")), ("y", .list [.leaf (.scalar "u"), .leaf (.scalar "v")]),
    ("z", .group ⟨[("a", .leaf (.scalar "a")), ("b", .leaf (.scalar "b"))], some ⟨[.name "b"]⟩⟩)], none⟩

theorem interleave_positions_sample :
    ∃ columns merged, List.Forall₂ (sampleTurns.ColumnOf .permissive) ["y", "z", "e"] columns ∧
      Policy.permissive.interleaving.acceptsLengths (columns.map List.length) ∧ columns.map List.length = [2, 2, 1] ∧
      (Order.Item.interleave ["y", "z", "e"]).resolve .permissive (Node.columns .permissive sampleTurns.entries)
        = .ok merged ∧
      merged.length = 5 ∧ merged[1 * 3 + 1]? = some (.ok [⟨[.name "z", .name "a"], .scalar "a"⟩]) := by
  obtain ⟨columns, hcolumns, hcounts, hslot⟩ : ∃ columns,
      List.Forall₂ (sampleTurns.ColumnOf .permissive) ["y", "z", "e"] columns ∧ columns.map List.length = [2, 2, 1] ∧
        columns[1]?.bind (·[1]?) = some (.ok [⟨[.name "z", .name "a"], .scalar "a"⟩]) :=
    ⟨_, .cons ⟨_, _, rfl, rfl, rfl⟩ (.cons ⟨_, _, rfl, rfl, rfl⟩ (.cons ⟨_, _, rfl, rfl, rfl⟩ .nil)), rfl, rfl⟩
  have haccepts : Policy.permissive.interleaving.acceptsLengths (columns.map List.length) := by
    rw [hcounts]
    decide
  obtain ⟨merged, hmerged, hlength, hpositions, -⟩ := interleave_positions hcolumns haccepts
  refine ⟨columns, merged, hcolumns, haccepts, hcounts, hmerged, ?_, ?_⟩
  · rw [hlength, hcounts]
    rfl
  · exact (hpositions 1 1 (by decide)).trans hslot

end Node
end QuantityLayout
