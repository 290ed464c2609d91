import QuantityLayout.Proofs.Order.Completed
import QuantityLayout.Proofs.Registry.Freeze

set_option autoImplicit false

namespace QuantityLayout

variable {α : Type} {n : Node α} {g : Group (Node α)}

namespace Node

theorem wellFormed_completed (hn : n.WellFormed) : n.completed.WellFormed := by
  induction n with
  | leaf l => exact hn
  | list ns ih =>
    rw [completed, WellFormed, completedItems_eq, List.length_map, itemsWellFormed_iff]
    refine ⟨hn.1, fun m hm => ?_⟩
    obtain ⟨k, hk, rfl⟩ := List.mem_map.mp hm
    exact ih k hk (hn.items k hk)
  | group es o ih =>
    have hnames := names_completedEntries es
    rw [completed, wellFormed_group_iff, Group.WellNamed, Group.names, hnames]
    refine ⟨hn.1, fun e he => ?_⟩
    rw [completedEntries_eq] at he
    obtain ⟨d, hd, rfl⟩ := List.mem_map.mp he
    exact ih d hd (hn.entries d hd)

theorem complete_of_mem_groups (hg : g ∈ n.completed.groups) {o : Order} (ho : g.order = some o) :
    ∀ s ∈ g.names, s ∈ o.names := by
  induction n with
  | leaf l => cases hg
  | list ns ih =>
    rw [completed, groups, itemGroups_eq, completedItems_eq, List.flatMap_map] at hg
    obtain ⟨k, hk, hg⟩ := List.mem_flatMap.mp hg
    exact ih k hk hg
  | group es o' ih =>
    rw [completed, groups, entryGroups_eq, completedEntries_eq, List.flatMap_map] at hg
    rcases List.mem_cons.mp hg with rfl | hg
    · obtain ⟨o', rfl, rfl⟩ := Option.map_eq_some_iff.mp ho
      intro s hs
      rw [Group.names, ← completedEntries_eq, names_completedEntries] at hs
      exact Order.mem_names_completed hs
    · obtain ⟨e, he, hg⟩ := List.mem_flatMap.mp hg
      exact ih e he hg

theorem columns_completed {policy policy' : Policy} {es : List (String × Node α)}
    (h : ∀ e ∈ es, e.2.completed.slots policy = e.2.slots policy') :
    columns policy (completedEntries es) = columns policy' es := by
  rw [columns_eq, columns_eq, completedEntries_eq, List.map_map]
  exact List.map_congr_left fun e he => by rw [Function.comp_apply, h e he]

/-- The induction is on the tree; a group hands its own slots on to the group it stands in, so its order is completed before
its slots are counted there. -/
theorem slots_completed (hn : n.WellFormed) (i : Policy.Interleaving) :
    n.completed.slots ⟨.requireComplete, i⟩ = n.slots ⟨.appendOmitted, i⟩ := by
  induction n with
  | leaf l => rfl
  | list ns ih =>
    rw [completed, slots, slots, itemVisits_eq, itemVisits_eq, completedItems_eq, List.zipIdx_map, List.map_map]
    refine congrArg Except.ok (List.map_congr_left fun e he => ?_)
    have hmem := List.fst_mem_of_mem_zipIdx he
    exact congrArg (Visits.under _) (visits_congr (ih e.1 hmem (hn.items e.1 hmem)))
  | group es o ih =>
    have hcolumns := columns_completed fun e he => ih e he (hn.entries e he)
    rw [completed, slots, slots, hcolumns, ← names_columns]
    cases o with
    | none => rfl
    | some o => exact Order.resolve_completed (by rw [names_columns]; exact hn.names_nodup) o i

end Node

namespace Registry

/-- To append what is omitted, or to write it at the end of every order and let nothing be omitted, gives the same
visits or the same fault. -/
theorem completed_alike (hg : (Node.group g).WellFormed) (i : Policy.Interleaving) :
    (Node.group g.completed).WellFormed ∧
    (∀ h ∈ (Node.group g.completed).groups, ∀ o, h.order = some o → ∀ s ∈ h.names, s ∈ o.names) ∧
    (Node.group g.completed).visits ⟨.requireComplete, i⟩ = (Node.group g).visits ⟨.appendOmitted, i⟩ ∧
    resolve ⟨.requireComplete, i⟩ g.completed = resolve ⟨.appendOmitted, i⟩ g := by
  have hvisits : (Node.group g).completed.visits ⟨.requireComplete, i⟩ = (Node.group g).visits ⟨.appendOmitted, i⟩ :=
    Node.visits_congr (Node.slots_completed hg i)
  have hroot : resolve ⟨.requireComplete, i⟩ g.completed = resolve ⟨.appendOmitted, i⟩ g := resolve_congr hvisits
  rw [← Node.completed_group]
  exact ⟨Node.wellFormed_completed hg, fun h hmem o ho => Node.complete_of_mem_groups hmem ho, hvisits, hroot⟩

/-- The root omits an entry, and so does a group that a tuple of the root takes apart. -/
theorem completed_alike_sample :
    (Node.group sample.root).WellFormed ∧ ∃ vs,
      (Node.group sample.root.completed).visits ⟨.requireComplete, .allowRagged⟩ = .ok vs ∧
      (vs.map fun v => v.path.render) = ["w", "y[0]", "z.b", "y[1]", "z.a", "e"] ∧
      ∃ o, sample.root.completed.order = some o ∧ o.render = "[w, (y, z), e]" := by
  have hroot := reachable_sample.sound.root
  obtain ⟨-, -, hvisits, -⟩ := completed_alike hroot .allowRagged
  exact ⟨hroot, _, hvisits.trans rfl, by decide, _, rfl, by decide⟩

end Registry
end QuantityLayout
