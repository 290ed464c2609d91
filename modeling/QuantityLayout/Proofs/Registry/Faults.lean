import QuantityLayout.Error.Message
import QuantityLayout.Proofs.Order.Defects
import QuantityLayout.Proofs.Registry.Composition
/-!
Why a registry cannot be frozen. The fault that is reported stands at the path of a group of the tree, however deep, and the
order of this very group has the defect that is reported.
-/
set_option autoImplicit false

namespace QuantityLayout

variable {α : Type} {policy : Policy} {n k : Node α} {s : Step} {f : Order.Fault}

/-- A fault is met when a node is taken apart, or when one of its slots is visited. -/
def Visits.Meets (slots : Except Order.Fault (List (Visits α))) (f : Order.Fault) : Prop :=
  slots = .error f ∨ ∃ us, slots = .ok us ∧ .error f ∈ us

namespace Visits

theorem mem_of_chain_error {us : List (Visits α)} (h : chain us = .error f) : .error f ∈ us := by
  induction us with
  | nil => cases h
  | cons u us ih =>
    cases u with
    | error f' =>
      cases h
      exact List.mem_cons_self
    | ok first => exact List.mem_cons_of_mem _ (ih (Outcome.map_eq_error.mp h))

theorem under_eq_error {u : Visits α} : u.under s = .error f ↔ ∃ f', u = .error f' ∧ f = f'.under s := by
  cases u <;> simp [under, eq_comm]

theorem exists_meets_of_column {slots : Except Order.Fault (List (Visits α))}
    (h : (column s slots).slots = .error f ∨ (column s slots).Shows (.error f)) :
    ∃ f', Meets slots f' ∧ f = f'.under s := by
  cases slots with
  | error f' =>
    have hf : f = f'.under s := by
      rcases h with h | h | ⟨us, hus, -⟩
      · exact (Except.error.inj h).symm
      · exact Except.error.inj h
      · cases hus
    exact ⟨f', .inl rfl, hf⟩
  | ok us =>
    rcases h with h | h | ⟨us', hus', hmem⟩
    · cases h
    · obtain ⟨f', hchain, hf⟩ := under_eq_error.mp h.symm
      exact ⟨f', .inr ⟨us, rfl, mem_of_chain_error hchain⟩, hf⟩
    · cases hus'
      obtain ⟨u, hu, hunder⟩ := List.mem_map.mp hmem
      obtain ⟨f', rfl, hf⟩ := under_eq_error.mp hunder
      exact ⟨f', .inr ⟨us, rfl, hu⟩, hf⟩

end Visits

namespace Node

/-- The fault stands at the path of a group below the node, and the order of this group has the defect. -/
def Blames (policy : Policy) (n : Node α) (f : Order.Fault) : Prop :=
  ∃ g o, n.place.walk f.group = .ok (.group g) ∧ g.order = some o ∧ f.defect.Real policy (slotCounts g.entries) o

theorem Blames.under (hk : Child n s k) (h : k.Blames policy f) : n.Blames policy (f.under s) := by
  obtain ⟨g, o, hwalk, ho, hreal⟩ := h
  exact ⟨g, o, Place.walk_cons_eq_ok.mpr ⟨_, hk.step, hwalk⟩, ho, hreal⟩

theorem meets_of_visits (h : n.visits policy = .error f) : Visits.Meets (n.slots policy) f := by
  unfold visits at h
  cases hs : n.slots policy with
  | error f' =>
    rw [hs] at h
    cases h
    exact .inl rfl
  | ok us =>
    rw [hs] at h
    exact .inr ⟨us, rfl, Visits.mem_of_chain_error h⟩

/-- A fault that is met below a node is one that a group of it is blamed for. -/
theorem blames_of_meets (hn : n.WellFormed) (h : Visits.Meets (n.slots policy) f) : n.Blames policy f := by
  induction n generalizing f with
  | leaf l =>
    rcases h with h | ⟨us, hus, hmem⟩
    · cases h
    · cases hus
      cases List.mem_singleton.mp hmem
  | list ns ih =>
    rcases h with h | ⟨us, hus, hmem⟩
    · cases h
    · cases hus
      rw [itemVisits_eq] at hmem
      obtain ⟨⟨m, i⟩, hm, hunder⟩ := List.mem_map.mp hmem
      obtain ⟨f', hvisits, rfl⟩ := Visits.under_eq_error.mp hunder
      have hi := List.mem_zipIdx_iff_getElem?.mp hm
      have hmem := List.mem_of_getElem? hi
      exact (ih m hmem (hn.items m hmem) (meets_of_visits hvisits)).under (.item hi)
  | group es o ih =>
    -- the fault is one of the order itself, or of an entry that is taken apart or visited as a whole
    have hentry : ∀ {name c}, (columns policy es).lookup name = some c → c.slots = .error f ∨ c.Shows (.error f) →
        (Node.group ⟨es, o⟩).Blames policy f := by
      intro name c hc hf
      rw [lookup_columns, Option.map_eq_some_iff] at hc
      obtain ⟨m, hm, rfl⟩ := hc
      obtain ⟨f', hmeets, rfl⟩ := Visits.exists_meets_of_column hf
      have hmem := Entries.mem_of_lookup hm
      exact (ih _ hmem (hn.entries _ hmem) hmeets).under (.entry hm)
    rcases h with h | ⟨us, hus, hmem⟩
    · cases o with
      | none => cases h
      | some o =>
        have hcounted : Order.Counted (columns policy es) (slotCounts es) := counted_columns fun e _ _ => length_slots
        cases hcounted.cause_of_resolve h with
        | own hreal => exact ⟨⟨es, some o⟩, o, rfl, rfl, hreal⟩
        | entry hc hs => exact hentry hc (.inl hs)
    · have hnames : ((columns policy es).map Prod.fst).Nodup := names_columns es ▸ hn.names_nodup
      obtain ⟨name, c, hc, hshows⟩ := Order.exists_shows_of_resolve? hnames hus hmem
      exact hentry hc (.inr hshows)

end Node

def Group.Children (g : Group (Node α)) : List String → List (Node α) → Prop :=
  List.Forall₂ fun name m => g.get? name = some m

theorem Group.exists_children {g : Group (Node α)} {ns : List String} (hns : ∀ name ∈ ns, name ∈ g.names) :
    ∃ ms, g.Children ns ms ∧ ns.map (Order.countOf (Node.slotCounts g.entries)) = ms.map Node.slotCount := by
  induction ns with
  | nil => exact ⟨[], .nil, rfl⟩
  | cons name ns ih =>
    obtain ⟨hname, hns⟩ := List.forall_mem_cons.mp hns
    obtain ⟨m, hm⟩ := Entries.exists_lookup hname
    obtain ⟨ms, hms, hcounts⟩ := ih hns
    refine ⟨m :: ms, .cons hm hms, ?_⟩
    rw [List.map_cons, List.map_cons, hcounts, Node.countOf_slotCounts, hm]
    rfl

/-- What an error tells of the order `o` of the group `g` at `q`: one of four defects, its kind and words, and the fact
that makes it true. -/
inductive Error.Tells (policy : Policy) (q : Path) (g : Group (Node α)) (o : Order) (e : Error) : Prop
  | repeated (n : String) (value : e = .order ⟨q, .repeated n⟩) (kind : e.kind = .duplicateName)
      (message : e.message = Wording.duplicate (Path.render (q ++ [.name n])))
      (twice : 2 ≤ o.names.count n)
  | unattached (n : String) (value : e = .order ⟨q, .unattached n⟩) (kind : e.kind = .pathNotFound)
      (message : e.message =
        Wording.notFound (Path.render (q ++ [.name n])) "order names an entry that is not attached")
      (mentioned : n ∈ o.names) (absent : g.get? n = none)
  | uneven (ns : List String) (ms : List (Node α)) (value : e = .order ⟨q, .uneven ns (ms.map Node.slotCount)⟩)
      (kind : e.kind = .incompatibleInterleave)
      (message : e.message =
        let texts := Wording.quoted (ns.map fun n => Path.render (q ++ [.name n]))
        let counts := Wording.bracketed (ms.map fun m => toString m.slotCount)
        s!"Cannot interleave {texts}: slot counts {counts} are incompatible")
      (mentioned : ns ∈ o.tuples) (children : g.Children ns ms)
      (refused : policy.interleaving.acceptsLengths (ms.map Node.slotCount) = false)
  | omitted (ns : List String) (value : e = .order ⟨q, .omitted ns⟩) (kind : e.kind = .incompleteOrder)
      (message : e.message =
        let texts := Wording.quoted (ns.map fun n => Path.render (q ++ [.name n]))
        s!"Order does not mention {texts}")
      (required : policy.omission = .requireComplete) (nonempty : ns ≠ []) (once : ns.Nodup)
      (exactly : ns = g.names.filter (· ∉ o.names))

theorem Error.tells_of_real {g : Group (Node α)} {o : Order} {q : Path} {d : Order.Defect} (hg : g.names.Nodup)
    (h : d.Real policy (Node.slotCounts g.entries) o) : (Error.order ⟨q, d⟩).Tells policy q g o := by
  have hnames : (Node.slotCounts g.entries).map Prod.fst = g.names := Node.names_slotCounts g.entries
  cases d with
  | repeated n => exact .repeated n rfl rfl rfl h
  | unattached n =>
    obtain ⟨hmentioned, habsent⟩ := h
    rw [hnames] at habsent
    exact .unattached n rfl rfl rfl hmentioned (Entries.lookup_eq_none_iff.mpr habsent)
  | uneven ns cs =>
    obtain ⟨hmentioned, hattached, rfl, hrefused⟩ := h
    obtain ⟨ms, hms, hcounts⟩ := Group.exists_children fun n hn => hnames ▸ hattached n hn
    rw [hcounts] at hrefused ⊢
    -- the words show the counts of the entries themselves, not of their names
    have htexts : (ms.map Node.slotCount).map toString = ms.map fun m => toString m.slotCount := List.map_map
    refine .uneven ns ms rfl rfl ?_ hmentioned hms hrefused
    rw [← htexts]
    rfl
  | omitted ns =>
    obtain ⟨hrequired, hne, rfl⟩ := h
    rw [hnames] at hne ⊢
    exact .omitted _ rfl rfl rfl hrequired hne (hg.filter _) rfl

namespace Registry

variable {r : Registry α} {e : Error}

/-- The only errors are those of orders; leaves that can be visited always have a layout. -/
theorem blames_of_freeze_error (hr : r.Sound) (hopen : r.isFrozen = false) (h : r.freeze = .error e) :
    ∃ f, e = .order f ∧ (Node.group r.root).Blames r.policy f := by
  have hresolve : resolve r.policy r.root = .error e := by
    rw [freeze, hopen] at h
    exact Outcome.map_eq_error.mp h
  cases hvisits : (Node.group r.root).visits r.policy with
  | error f =>
    rw [resolve, hvisits] at hresolve
    cases hresolve
    exact ⟨f, rfl, Node.blames_of_meets hr.root (Node.meets_of_visits hvisits)⟩
  | ok vs =>
    obtain ⟨l, hl⟩ := exists_layout hr.root hvisits
    rw [resolve_eq_ok.mpr ⟨vs, hvisits, hl⟩] at hresolve
    cases hresolve

/-- The error of a freeze is about the order of a group of the tree, and what it tells of this order is true. -/
theorem freeze_error_tells (hr : r.Reachable) (hopen : r.isFrozen = false) (h : r.freeze = .error e) :
    ∃ q g o, r.locate q = .ok (.group g) ∧ g.order = some o ∧ ¬ g.WellOrdered r.policy ∧ e.Tells r.policy q g o := by
  obtain ⟨f, rfl, g, o, hwalk, ho, hreal⟩ := blames_of_freeze_error hr.sound hopen h
  have hg : (Node.group g).WellFormed := hr.sound.root.part hwalk
  have hrefused : ¬ g.WellOrdered r.policy := by
    rw [Group.WellOrdered, ho]
    exact hreal.not_fits
  exact ⟨f.group, g, o, locate_eq_ok.mpr hwalk, ho, hrefused, Error.tells_of_real hg.names_nodup hreal⟩

/-- Two orders below the root cannot be followed; the one in the list is come upon first. -/
def faultySample : Group (Node Symbol) :=
  ⟨[("w", .group ⟨[("a", .leaf (.scalar "a"))], some ⟨[.name "a", .name "a"]⟩⟩),
    ("y", .list [.leaf (.scalar "u"), .group
      ⟨[("a", .leaf (.scalar "a")), ("b", .list [.leaf (.scalar "b"), .leaf (.scalar "c")])],
        some ⟨[.interleave ["a", "b"]]⟩⟩])],
    some ⟨[.name "y", .name "w"]⟩⟩

theorem freeze_error_tells_faultySample :
    (ofRoot .permissive faultySample).Reachable ∧ (ofRoot .permissive faultySample).isFrozen = false ∧
    ∃ e, (ofRoot .permissive faultySample).freeze = .error e ∧
      e.message = "Cannot interleave [\"y[1].a\", \"y[1].b\"]: slot counts [1, 2] are incompatible" ∧
      ∃ q g o, (ofRoot .permissive faultySample).locate q = .ok (.group g) ∧ g.order = some o ∧
        ¬ g.WellOrdered .permissive ∧ e.Tells .permissive q g o := by
  have hroot : (Node.group faultySample).WellFormed := by
    simp [faultySample, Node.WellFormed, Node.ItemsWellFormed, Node.EntriesWellFormed, Group.WellNamed, Group.names, countBound]
    decide
  have hr : (ofRoot .permissive faultySample).Reachable := reachable_ofRoot hroot
  have hfreeze : (ofRoot .permissive faultySample).freeze = .error (.order ⟨_, _⟩) := rfl
  exact ⟨hr, rfl, _, hfreeze, by decide, freeze_error_tells hr rfl hfreeze⟩

end Registry
end QuantityLayout
