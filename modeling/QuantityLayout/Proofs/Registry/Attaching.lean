import QuantityLayout.Proofs.Order.Extension
import QuantityLayout.Proofs.Registry.Composition
import QuantityLayout.Proofs.Registry.Contiguous
import QuantityLayout.Proofs.Registry.Lifecycle
/-!
Attaching entries to a registry. With an order that mentions all of them, the sequence of the calls makes no difference to
what freezing gives. Where omitted entries come last, one more of them moves no slot that was there before.
-/
set_option autoImplicit false

namespace QuantityLayout

variable {α : Type} {policy : Policy} {vs ws : List (Visit α)} {es es' : List (String × Node α)} {name : String} {n : Node α}

namespace Node

theorem columns_append (es es' : List (String × Node α)) :
    columns policy (es ++ es') = columns policy es ++ columns policy es' := by
  rw [columns_eq, columns_eq, columns_eq, List.map_append]

theorem visits_concat {o : Option Order} (hp : policy.omission = .appendOmitted) (hname : name ∉ es.map Prod.fst)
    (h : (Node.group ⟨es, o⟩).visits policy = .ok vs) (h' : (Node.group ⟨es ++ [(name, n)], o⟩).visits policy = .ok ws) :
    ∃ added, n.visits policy = .ok added ∧ ws = vs ++ added.map (Visit.under (.name name)) := by
  obtain ⟨us, hus, hchain⟩ := visits_eq_ok.mp h
  have hlast := Order.resolve?_concat (c := Visits.column (.name name) (n.slots policy)) hp
    (by rwa [names_columns]) hus
  rw [visits_eq_ok, slots, columns_append] at h'
  obtain ⟨us', hus', hchain'⟩ := h'
  cases hus'.symm.trans hlast
  rw [Visits.chain_append, hchain, Visits.chain_singleton, whole_column] at hchain'
  obtain ⟨xs, hxs, rfl⟩ := Outcome.map_eq_ok.mp hchain'
  obtain ⟨added, hadded, rfl⟩ := Visits.under_eq_ok.mp hxs
  exact ⟨added, hadded, rfl⟩

/-- A complete order visits the entries in the same sequence, however they are attached, or finds the same fault. -/
theorem visits_perm {o : Order} (hperm : es.Perm es') (hnames : (es.map Prod.fst).Nodup) (ho : ∀ e ∈ es, e.1 ∈ o.names) :
    (Node.group ⟨es, some o⟩).visits policy = (Node.group ⟨es', some o⟩).visits policy := by
  have hcolumns : (columns policy es).Perm (columns policy es') := by
    rw [columns_eq, columns_eq]
    exact hperm.map _
  have hslots : (Node.group ⟨es, some o⟩).slots policy = (Node.group ⟨es', some o⟩).slots policy := by
    refine Order.resolve_perm hcolumns ?_ fun m hm => ?_
    · rwa [names_columns]
    · rw [names_columns] at hm
      obtain ⟨e, he, rfl⟩ := List.mem_map.mp hm
      exact ho e he
  exact visits_congr hslots

end Node

namespace Registry

variable {l l' : Layout} {r r' : Registry α}

/-- The entries are attached one after the other; somewhere between these calls the order is set. -/
def assembly (before : List (String × Node α)) (o : Order) (after : List (String × Node α)) : List (Action α) :=
  before.map (fun e => .attach e.1 e.2) ++ .setOrder o :: after.map fun e => .attach e.1 e.2

theorem run_assembly {before after : List (String × Node α)} (o : Order)
    (hnames : ((before ++ after).map Prod.fst).Nodup) (hid : ∀ e ∈ before ++ after, Text.isIdentifier e.1) :
    (empty policy).run (assembly before o after) = ofRoot policy ⟨before ++ after, some o⟩ := by
  have hbefore : (([] ++ before).map Prod.fst).Nodup := by
    rw [List.map_append] at hnames
    exact hnames.of_append_left
  have hfirst : (empty policy).run (before.map fun e => .attach e.1 e.2) = ofRoot policy ⟨before, none⟩ :=
    run_attach hbefore fun e he => hid e (List.mem_append_left _ he)
  rw [assembly, run_append, hfirst]
  exact run_attach hnames fun e he => hid e (List.mem_append_right _ he)

theorem wellFormed_entries {o : Option Order} (hnames : (es.map Prod.fst).Nodup) (hid : ∀ e ∈ es, Text.isIdentifier e.1)
    (hnodes : ∀ e ∈ es, e.2.WellFormed) : (Node.group ⟨es, o⟩).WellFormed := by
  refine Node.wellFormed_group_iff.mpr ⟨⟨hnames, fun m hm => ?_⟩, hnodes⟩
  obtain ⟨e, he, rfl⟩ := List.mem_map.mp hm
  exact hid e he

theorem lookup_perm (hperm : r.root.entries.Perm r'.root.entries) (hnames : r.root.names.Nodup) {p : Path} (hp : p ≠ []) :
    r.lookup p = r'.lookup p := by
  obtain ⟨s, q, rfl⟩ := List.exists_cons_of_ne_nil hp
  have hstep : (Place.group r.root).step s = (Place.group r'.root).step s := by
    cases s with
    | name m => rw [Place.step, Place.step, Group.get?, Group.get?, Entries.lookup_perm hnames hperm]
    | _ => rfl
  rw [lookup, lookup, locate, locate, Place.walk, Place.walk, hstep]

theorem listed_append (vs ws : List (Visit α)) : listed (vs ++ ws) = listed vs ++ listed ws := List.map_append

theorem Laid.slots_append (h : r.Laid vs l) (h' : r'.Laid (vs ++ ws) l') :
    l'.slots = l.slots ++ Layout.place l.totalNumel l.totalNnz (listed ws) := by
  rw [h'.slots, h.slots, listed_append, Layout.place_append countBound_pos, map_numel_listed, map_nnz_listed, h.totalNumel, h.total,
    Nat.zero_add, Nat.zero_add]
  rfl

/-- With one more entry the visits of before come first, and the visits of the new entry follow. -/
theorem freeze_of_attach {frozen attached frozen' : Registry α} (hr : r.Sound) (hn : n.WellFormed)
    (hp : r.policy.omission = .appendOmitted) (hfreeze : r.freeze = .ok frozen) (hattach : r.attach name n = .ok attached)
    (hfreeze' : attached.freeze = .ok frozen') :
    ∃ vs l l' added, frozen.Laid vs l ∧ n.visits r.policy = .ok added ∧
      frozen'.Laid (vs ++ added.map (Visit.under (.name name))) l' := by
  have hfrozen := sound_act (a := .freeze) hr trivial hfreeze
  have hattached := sound_act (a := .attach name n) hr hn hattach
  have hfrozen' := sound_act (a := .freeze) hattached trivial hfreeze'
  obtain ⟨-, l, hl, rfl⟩ := freeze_eq_ok.mp hfreeze
  obtain ⟨-, root, hroot, rfl⟩ := edit_eq_ok.mp hattach
  obtain ⟨-, l', hl', rfl⟩ := freeze_eq_ok.mp hfreeze'
  obtain ⟨⟨-, hname⟩, rfl⟩ := Group.attach_eq_ok.mp hroot
  obtain ⟨vs, h⟩ := hfrozen.laid_of_layout (l := l) rfl
  obtain ⟨ws, h'⟩ := hfrozen'.laid_of_layout (l := l') rfl
  obtain ⟨added, hadded, rfl⟩ := Node.visits_concat hp hname h.visits h'.visits
  exact ⟨vs, l, l', added, h, hadded, h'⟩

theorem freeze_of_visits {g g' : Group (Node α)} (hg : (Node.group g).WellFormed) (hg' : (Node.group g').WellFormed)
    (h : (Node.group g).visits policy = (Node.group g').visits policy) :
    (∃ e, (ofRoot policy g).freeze = .error e ∧ (ofRoot policy g').freeze = .error e) ∨
      ∃ r r' vs l, (ofRoot policy g).freeze = .ok r ∧ (ofRoot policy g').freeze = .ok r' ∧ r.root = g ∧ r'.root = g' ∧
        r.Laid vs l ∧ r'.Laid vs l := by
  have hresolve := resolve_congr h
  cases hl : resolve policy g with
  | error e =>
    have hfreeze : (ofRoot policy g).freeze = (resolve policy g).map _ := rfl
    have hfreeze' : (ofRoot policy g').freeze = (resolve policy g').map _ := rfl
    rw [hl] at hfreeze hresolve
    rw [← hresolve] at hfreeze'
    exact .inl ⟨e, hfreeze, hfreeze'⟩
  | ok l =>
    have hl' : resolve policy g' = .ok l := hresolve ▸ hl
    have hfreeze : (ofRoot policy g).freeze = .ok { ofRoot policy g with layout? := some l } :=
      freeze_eq_ok.mpr ⟨rfl, l, hl, rfl⟩
    have hfreeze' : (ofRoot policy g').freeze = .ok { ofRoot policy g' with layout? := some l } :=
      freeze_eq_ok.mpr ⟨rfl, l, hl', rfl⟩
    obtain ⟨vs, hlaid⟩ := (sound_act (a := .freeze) (reachable_ofRoot hg).sound trivial hfreeze).laid_of_layout rfl
    obtain ⟨vs', hlaid'⟩ := (sound_act (a := .freeze) (reachable_ofRoot hg').sound trivial hfreeze').laid_of_layout rfl
    cases hlaid.visits.symm.trans (h.trans hlaid'.visits)
    exact .inr ⟨_, _, vs, l, hfreeze, hfreeze', rfl, rfl, hlaid, hlaid'⟩

namespace InPlace

/-- Where omitted entries come last, one more entry that leaves the registry fit to be frozen moves no slot; its own
leaves are laid out behind. -/
theorem freeze_attach {calls : List (Action α)} (hcalls : ∀ a ∈ calls, a.WellFormed) (hn : n.WellFormed)
    (hp : policy.omission = .appendOmitted) {frozen attached frozen' : InPlace α}
    (hfreeze : (perform .freeze).run (history policy calls) = .ok () frozen)
    (hattach : (perform (.attach name n)).run (history policy calls) = .ok () attached)
    (hfreeze' : (perform .freeze).run attached = .ok () frozen') :
    ∃ l l' added, frozen.layout? = some l ∧ frozen'.layout? = some l' ∧ n.visits policy = .ok added ∧
      l'.slots = l.slots ++ Layout.place l.totalNumel l.totalNnz (listed (added.map (Visit.under (.name name)))) ∧
      (added.map Visit.leaf).Perm n.leaves := by
  have hindexed := wellIndexed_history policy calls
  have hpolicy : (history policy calls).registry.policy = policy := policy_history policy calls
  obtain ⟨hfrozen, -⟩ := act_of_run hindexed hfreeze
  obtain ⟨hattached, hindexed'⟩ := act_of_run hindexed hattach
  obtain ⟨hfrozen', -⟩ := act_of_run hindexed' hfreeze'
  obtain ⟨vs, l, l', added, h, hadded, h'⟩ :=
    freeze_of_attach (sound_history hcalls) hn (by rw [hpolicy, hp]) hfrozen hattached hfrozen'
  rw [hpolicy] at hadded
  refine ⟨l, l', added, layout_eq_ok.mp h.layout, layout_eq_ok.mp h'.layout, hadded, h.slots_append h', ?_⟩
  rw [← Node.map_leaf_inventory]
  exact (Node.visits_perm_inventory hn hadded).map _

def samplePair : Node Symbol := .list [.leaf (.scalar "q"), .leaf (.scalar "r")]

theorem wellFormed_samplePair : samplePair.WellFormed := by
  simp [samplePair, Node.WellFormed, Node.ItemsWellFormed, countBound]
  decide

/-- The sample is frozen before and after one more list of two leaves was attached. -/
theorem freeze_attach_sample :
    (∀ a ∈ sampleActions, a.WellFormed) ∧ samplePair.WellFormed ∧ ∃ frozen attached frozen' l l',
      (perform .freeze).run (history .permissive sampleActions) = .ok () frozen ∧
      (perform (.attach "q" samplePair)).run (history .permissive sampleActions) = .ok () attached ∧
      (perform .freeze).run attached = .ok () frozen' ∧ frozen.layout? = some l ∧ frozen'.layout? = some l' ∧
      (l'.slots.map fun s => s.path.render) = (l.slots.map fun s => s.path.render) ++ ["q[0]", "q[1]"] := by
  have hindexed := wellIndexed_history .permissive sampleActions
  have hregistry : (history .permissive sampleActions).registry = sample := registry_history .permissive sampleActions
  obtain ⟨frozen, hfreeze, -⟩ := exists_run (a := .freeze) hindexed (by rw [hregistry]; rfl)
  obtain ⟨attached, hattach, hattached⟩ := exists_run (a := .attach "q" samplePair) hindexed (by rw [hregistry]; rfl)
  obtain ⟨-, hindexed'⟩ := act_of_run hindexed hattach
  obtain ⟨frozen', hfreeze', -⟩ := exists_run (a := .freeze) hindexed' (by rw [hattached]; rfl)
  obtain ⟨l, l', added, hl, hl', hadded, hslots, -⟩ :=
    freeze_attach wellFormed_sampleActions wellFormed_samplePair rfl hfreeze hattach hfreeze'
  refine ⟨wellFormed_sampleActions, wellFormed_samplePair, frozen, attached, frozen', l, l', hfreeze, hattach, hfreeze',
    hl, hl', ?_⟩
  cases hadded
  rw [hslots, List.map_append]
  rfl

/-- Freezing fails for the same reason, or it gives the same layout, the same lists of elements, and the same answer about
every path that leads below the root. -/
inductive FreezeAlike (s s' : InPlace α) : Prop
  | refused (e : Error) (first : (perform .freeze).run s = .error e s) (second : (perform .freeze).run s' = .error e s')
  | accepted (frozen frozen' : InPlace α) (l : Layout) (xs : List α) (ys : List (Option α))
      (first : (perform .freeze).run s = .ok () frozen) (second : (perform .freeze).run s' = .ok () frozen')
      (layout : frozen.layout? = some l ∧ frozen'.layout? = some l)
      (nonzero : frozen.registry.flattenNonzero = .ok xs ∧ frozen'.registry.flattenNonzero = .ok xs)
      (dense : frozen.registry.flattenDense = .ok ys ∧ frozen'.registry.flattenDense = .ok ys)
      (lookup : ∀ p ≠ [], frozen.registry.lookup p = frozen'.registry.lookup p)

theorem freezeAlike {s s' : InPlace α} (hs : s.root.WellIndexed) (hs' : s'.root.WellIndexed) {g g' : Group (Node α)}
    (hg : (Node.group g).WellFormed) (hg' : (Node.group g').WellFormed) (hr : s.registry = ofRoot policy g)
    (hr' : s'.registry = ofRoot policy g') (hperm : g.entries.Perm g'.entries)
    (h : (Node.group g).visits policy = (Node.group g').visits policy) : s.FreezeAlike s' := by
  obtain ⟨e, hfreeze, hfreeze'⟩ | ⟨r, r', vs, l, hfreeze, hfreeze', hroot, hroot', hlaid, hlaid'⟩ := freeze_of_visits hg hg' h
  · rw [← hr] at hfreeze
    rw [← hr'] at hfreeze'
    exact .refused e (run_of_refused hs (a := .freeze) hfreeze) (run_of_refused hs' (a := .freeze) hfreeze')
  · rw [← hr] at hfreeze
    rw [← hr'] at hfreeze'
    obtain ⟨frozen, hrun, rfl⟩ := exists_run hs (a := .freeze) hfreeze
    obtain ⟨frozen', hrun', rfl⟩ := exists_run hs' (a := .freeze) hfreeze'
    refine .accepted frozen frozen' l _ _ hrun hrun' ⟨layout_eq_ok.mp hlaid.layout, layout_eq_ok.mp hlaid'.layout⟩
      ⟨hlaid.flattenNonzero, hlaid'.flattenNonzero⟩ ⟨hlaid.flattenDense, hlaid'.flattenDense⟩ fun p hp => ?_
    refine lookup_perm ?_ (Node.wellFormed_group_iff.mp hlaid.root).1.1 hp
    rw [hroot, hroot']
    exact hperm

/-- With an order that mentions every entry it does not matter in which sequence the entries are attached, nor when the
order is set. -/
theorem freezeAlike_assembly (policy : Policy) {before after before' after' : List (String × Node α)} {o : Order}
    (hperm : (before ++ after).Perm (before' ++ after')) (hnames : ((before ++ after).map Prod.fst).Nodup)
    (hid : ∀ e ∈ before ++ after, Text.isIdentifier e.1) (hnodes : ∀ e ∈ before ++ after, e.2.WellFormed)
    (ho : ∀ e ∈ before ++ after, e.1 ∈ o.names) :
    (history policy (assembly before o after)).root.group = ⟨before ++ after, some o⟩ ∧
    (history policy (assembly before' o after')).root.group = ⟨before' ++ after', some o⟩ ∧
    (history policy (assembly before o after)).FreezeAlike (history policy (assembly before' o after')) := by
  have hnames' := (hperm.map Prod.fst).nodup_iff.mp hnames
  have hid' : ∀ e ∈ before' ++ after', Text.isIdentifier e.1 := fun e he => hid e (hperm.mem_iff.mpr he)
  have hr := (registry_history policy (assembly before o after)).trans (run_assembly o hnames hid)
  have hr' := (registry_history policy (assembly before' o after')).trans (run_assembly o hnames' hid')
  have hg : (Node.group ⟨before ++ after, some o⟩).WellFormed := wellFormed_entries hnames hid hnodes
  have hg' : (Node.group ⟨before' ++ after', some o⟩).WellFormed :=
    wellFormed_entries hnames' hid' fun e he => hnodes e (hperm.mem_iff.mpr he)
  refine ⟨congrArg Registry.root hr, congrArg Registry.root hr', ?_⟩
  exact freezeAlike (wellIndexed_history _ _) (wellIndexed_history _ _) hg hg' hr hr' hperm (Node.visits_perm hperm hnames ho)

def sampleEntries : List (String × Node Symbol) :=
  [("x", .leaf (.scalar "x")), ("y", samplePair), ("z", .leaf (.scalar "z"))]

def sampleOrder : Order := ⟨[.interleave ["y", "z"], .name "x"]⟩

/-- The order is set first, or the entries are attached in reverse before it is set. -/
theorem freezeAlike_assembly_sample :
    (history .permissive (assembly [] sampleOrder sampleEntries)).FreezeAlike
        (history .permissive (assembly sampleEntries.reverse sampleOrder [])) ∧
      ∃ frozen l, (perform .freeze).run (history .permissive (assembly [] sampleOrder sampleEntries)) = .ok () frozen ∧
        frozen.layout? = some l ∧ (l.slots.map fun s => s.path.render) = ["y[0]", "z", "y[1]", "x"] := by
  have hnodes : ∀ e ∈ sampleEntries, e.2.WellFormed := by
    simp [sampleEntries, wellFormed_samplePair, Node.WellFormed]
  have hperm : ([] ++ sampleEntries).Perm (sampleEntries.reverse ++ []) := by
    rw [List.append_nil]
    exact (List.reverse_perm sampleEntries).symm
  obtain ⟨-, -, halike⟩ := freezeAlike_assembly .permissive (o := sampleOrder) hperm (by decide) (by decide) hnodes
    (by decide)
  have hregistry := registry_history .permissive (assembly [] sampleOrder sampleEntries)
  obtain ⟨frozen, hfreeze, hfrozen⟩ := exists_run (a := .freeze) (wellIndexed_history _ _) (by rw [hregistry]; rfl)
  exact ⟨halike, frozen, _, hfreeze, congrArg Registry.layout? hfrozen, by decide⟩

end InPlace
end Registry
end QuantityLayout
