import QuantityLayout.Proofs.Registry.Offsets
/-!
Registries inside registries. A group of a frozen tree could have been a registry of its own, and its leaves would have
been visited there in the sequence in which the whole tree visits them.
-/
set_option autoImplicit false

namespace QuantityLayout.Registry

variable {α : Type} {policy : Policy}

def ofRoot (policy : Policy) (root : Group (Node α)) : Registry α := ⟨root, policy, none⟩

theorem after_attach {g : Group (Node α)} {name : String} {n : Node α} (hid : Text.isIdentifier name)
    (hnew : name ∉ g.names) :
    (ofRoot policy g).after (.attach name n) = ofRoot policy ⟨g.entries ++ [(name, n)], g.order⟩ := by
  have hattach : g.attach name n = .ok ⟨g.entries ++ [(name, n)], g.order⟩ :=
    Group.attach_eq_ok.mpr ⟨⟨hid, hnew⟩, rfl⟩
  have hact : (ofRoot policy g).act (.attach name n) = .ok (ofRoot policy ⟨g.entries ++ [(name, n)], g.order⟩) :=
    act_eq_ok.mpr ⟨rfl, .inl ⟨(·.attach name n), _, rfl, hattach, rfl⟩⟩
  rw [after, hact]

theorem run_attach {es rest : List (String × Node α)} {o : Option Order} (hnames : ((es ++ rest).map Prod.fst).Nodup)
    (hid : ∀ e ∈ rest, Text.isIdentifier e.1) :
    (ofRoot policy ⟨es, o⟩).run (rest.map fun e => .attach e.1 e.2) = ofRoot policy ⟨es ++ rest, o⟩ := by
  induction rest generalizing es with
  | nil =>
    rw [List.append_nil]
    rfl
  | cons e rest ih =>
    obtain ⟨hid, hrest⟩ := List.forall_mem_cons.mp hid
    have hsplit : es ++ e :: rest = es ++ [e] ++ rest := List.append_cons es e rest
    have hnew : e.1 ∉ (⟨es, o⟩ : Group (Node α)).names := by
      rw [List.map_append, List.map_cons, List.nodup_append] at hnames
      exact fun hmem => hnames.2.2 _ hmem _ List.mem_cons_self rfl
    rw [hsplit] at hnames ⊢
    rw [List.map_cons, run, List.foldl_cons, after_attach hid hnew]
    exact ih hnames hrest

theorem reachable_ofRoot {root : Group (Node α)} (hroot : (Node.group root).WellFormed) :
    (ofRoot policy root).Reachable := by
  obtain ⟨es, o⟩ := root
  have hentries : ∀ a ∈ es.map fun e => Action.attach e.1 e.2, a.WellFormed := by
    intro a ha
    obtain ⟨e, he, rfl⟩ := List.mem_map.mp ha
    exact hroot.entries e he
  have hnames : (([] ++ es).map Prod.fst).Nodup := hroot.names_nodup
  have hrun : (empty policy).run (es.map fun e => .attach e.1 e.2) = ofRoot policy ⟨es, none⟩ :=
    run_attach hnames fun e he => hroot.1.2 _ (List.mem_map_of_mem he)
  cases o with
  | none => exact ⟨policy, _, hentries, hrun⟩
  | some o =>
    refine ⟨policy, (es.map fun e => .attach e.1 e.2) ++ [.setOrder o], ?_, ?_⟩
    · intro a ha
      rcases List.mem_append.mp ha with ha | ha
      · exact hentries a ha
      · cases List.mem_singleton.mp ha
        trivial
    · rw [run_append, hrun]
      rfl

theorem listed_below (p : Path) (ws : List (Visit α)) :
    listed (ws.map (Visit.below p)) = (listed ws).map fun e => (p ++ e.1, e.2) := by
  rw [listed, listed, List.map_map, List.map_map]
  rfl

theorem Laid.map_leavesUnder {r : Registry α} {vs : List (Visit α)} {l : Layout} (h : r.Laid vs l) (p : Path) :
    ((l.leavesUnder p).map fun e => (e.2.path, e.2.shape)) = listed (vs.filter fun v => p.isPrefixOf v.path) := by
  rw [Layout.map_leavesUnder, h.leaves_eq, listed, List.filter_map]
  rfl

/-- Any group of a frozen tree can be the root of a registry of its own, whose leaves are those below the group, in the
same sequence. -/
theorem composition_keeps_traversal {r : Registry α} (hr : r.Reachable) (hfrozen : r.isFrozen) {p : Path}
    {g : Group (Node α)} (hp : r.locate p = .ok (.group g)) :
    (ofRoot r.policy g).Reachable ∧
    ∃ l part partLayout, r.layout = .ok l ∧ (ofRoot r.policy g).freeze = .ok part ∧ part.layout = .ok partLayout ∧
      partLayout.leaves.map (fun e => (p ++ e.1, e.2)) = (l.leavesUnder p).map fun e => (e.2.path, e.2.shape) := by
  obtain ⟨vs, l, h⟩ := hr.sound.laid hfrozen
  have hplace : r.locate p = .ok (Node.group g).place := hp
  have hg := h.root.part (locate_eq_ok.mp hplace)
  obtain ⟨ws, hws, hunder, -⟩ := h.part hplace
  obtain ⟨partLayout, hlayout⟩ := exists_layout hg hws
  refine ⟨reachable_ofRoot hg, l, { ofRoot r.policy g with layout? := some partLayout }, partLayout, h.layout, ?_, rfl, ?_⟩
  · exact freeze_eq_ok.mpr ⟨rfl, partLayout, resolve_eq_ok.mpr ⟨ws, hws, hlayout⟩, rfl⟩
  · rw [Layout.leaves_ofLeaves hlayout, h.map_leavesUnder, hunder, listed_below]

/-- The order of the root takes the group apart, and its two leaves stand on either side of another one. -/
theorem composition_keeps_traversal_frozenSample :
    frozenSample.isFrozen ∧ ∃ g part l, frozenSample.locate [.name "z"] = .ok (.group g) ∧
      (ofRoot frozenSample.policy g).freeze = .ok part ∧ part.layout = .ok l ∧
      l.leaves.map (fun e => Path.render ([.name "z"] ++ e.1)) = ["z.b", "z.a"] := by
  have hfrozen : frozenSample.isFrozen := by decide
  have hz : frozenSample.locate [.name "z"] = .ok (.group _) := rfl
  obtain ⟨-, l, part, partLayout, hl, hpart, hlayout, hleaves⟩ :=
    composition_keeps_traversal reachable_frozenSample hfrozen hz
  refine ⟨hfrozen, _, part, partLayout, hz, hpart, hlayout, ?_⟩
  have hunder : (l.leavesUnder [.name "z"]).map (fun e => e.2.path.render) = ["z.b", "z.a"] := by
    cases hl
    decide
  have hpaths := congrArg (List.map fun e => e.1.render) hleaves
  rw [List.map_map, List.map_map] at hpaths
  exact hpaths.trans hunder

end QuantityLayout.Registry
