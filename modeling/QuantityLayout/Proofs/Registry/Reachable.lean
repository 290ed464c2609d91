import QuantityLayout.Proofs.Outcome
import QuantityLayout.Proofs.Tree.Inventory
import QuantityLayout.Registry.Run

set_option autoImplicit false

namespace QuantityLayout

variable {α : Type}

theorem Node.wellFormed_group_iff {g : Group (Node α)} :
    (Node.group g).WellFormed ↔ g.WellNamed ∧ ∀ e ∈ g.entries, e.2.WellFormed := by
  obtain ⟨es, o⟩ := g
  rw [Node.WellFormed, Node.entriesWellFormed_iff]

namespace Group

variable {g g' : Group (Node α)}

theorem wellFormed_attach (hg : (Node.group g).WellFormed) {name : String} {n : Node α} (hn : n.WellFormed)
    (h : g.attach name n = .ok g') : (Node.group g').WellFormed := by
  obtain ⟨hnamed, hentries⟩ := Node.wellFormed_group_iff.mp hg
  refine Node.wellFormed_group_iff.mpr ⟨wellNamed_attach hnamed h, ?_⟩
  obtain ⟨-, rfl⟩ := attach_eq_ok.mp h
  intro e he
  rcases List.mem_append.mp he with he | he
  · exact hentries e he
  · cases List.mem_singleton.mp he
    exact hn

theorem wellFormed_relabel (hg : (Node.group g).WellFormed) {old new : String}
    (hnamed : (g.relabel old new).WellNamed) : (Node.group (g.relabel old new)).WellFormed := by
  refine Node.wellFormed_group_iff.mpr ⟨hnamed, fun e he => ?_⟩
  obtain ⟨d, hd, rfl⟩ := List.mem_map.mp he
  exact (Node.wellFormed_group_iff.mp hg).2 d hd

theorem rename_eq_ok {old new : String} :
    g.rename old new = .ok g' ↔ old ∈ g.names ∧
      (old = new ∧ g' = g ∨ old ≠ new ∧ Text.isIdentifier new ∧ new ∉ g.names ∧ g' = g.relabel old new) := by
  unfold rename contains
  by_cases hold : old ∈ g.names
  · by_cases heq : old = new
    · subst heq
      simp [hold, eq_comm (a := g)]
    · simp only [hold, heq, List.contains_eq_mem, decide_true, Bool.not_true, Bool.false_eq_true, if_false,
        Outcome.map_eq_ok, false_and, false_or, ne_eq, not_false_eq_true, true_and]
      refine ⟨?_, ?_⟩
      · intro hx
        obtain ⟨u, hu, h⟩ := hx
        obtain ⟨hi, hn⟩ := checkName_eq_ok.mp hu
        exact ⟨hi, hn, h.symm⟩
      · intro hx
        obtain ⟨hi, hn, h⟩ := hx
        exact ⟨(), checkName_eq_ok.mpr ⟨hi, hn⟩, h.symm⟩
  · simp [hold]

theorem wellFormed_rename (hg : (Node.group g).WellFormed) {old new : String}
    (h : g.rename old new = .ok g') : (Node.group g').WellFormed := by
  have hnamed := wellNamed_rename (Node.wellFormed_group_iff.mp hg).1 h
  rcases (rename_eq_ok.mp h).2 with ⟨-, rfl⟩ | ⟨-, -, -, rfl⟩
  · exact hg
  · exact wellFormed_relabel hg hnamed

theorem wellFormed_setOrder (hg : (Node.group g).WellFormed) {o : Order} (h : g.setOrder o = .ok g') :
    (Node.group g').WellFormed := by
  obtain ⟨hnamed, hentries⟩ := Node.wellFormed_group_iff.mp hg
  refine Node.wellFormed_group_iff.mpr ⟨wellNamed_setOrder hnamed h, ?_⟩
  unfold setOrder at h
  split at h
  · cases h
  · cases h
    exact hentries

end Group

namespace Registry

def Action.change? : Action α → Option (Group (Node α) → Except Group.Fault (Group (Node α)))
  | .attach name n => some (·.attach name n)
  | .rename old new => some (·.rename old new)
  | .setOrder o => some (·.setOrder o)
  | .freeze => none

theorem edit_eq_ok {r r' : Registry α} {e : Edit} {change : Group (Node α) → Except Group.Fault (Group (Node α))} :
    r.edit e change = .ok r' ↔ r.isFrozen = false ∧ ∃ root, change r.root = .ok root ∧ r' = { r with root } := by
  unfold edit
  cases r.isFrozen with
  | true => simp
  | false => cases change r.root <;> simp [eq_comm]

theorem freeze_eq_ok {r r' : Registry α} :
    r.freeze = .ok r' ↔ r.isFrozen = false ∧ ∃ l, resolve r.policy r.root = .ok l ∧ r' = { r with layout? := some l } := by
  unfold freeze
  cases r.isFrozen with
  | true => simp
  | false => simp [Outcome.map_eq_ok, eq_comm (b := r')]

/-- An operation that is accepted finds the registry unfrozen. It changes the root, or it fixes the layout. -/
theorem act_eq_ok {r r' : Registry α} {a : Action α} :
    r.act a = .ok r' ↔ r.isFrozen = false ∧
      ((∃ change root, a.change? = some change ∧ change r.root = .ok root ∧ r' = { r with root }) ∨
        (a = .freeze ∧ ∃ l, resolve r.policy r.root = .ok l ∧ r' = { r with layout? := some l })) := by
  cases a with
  | freeze => simp [act, freeze_eq_ok, Action.change?]
  | _ => simp [act, attach, rename, setOrder, edit_eq_ok, Action.change?]

theorem wellFormed_change {a : Action α} (ha : a.WellFormed) {root root' : Group (Node α)}
    (hroot : (Node.group root).WellFormed) {change : Group (Node α) → Except Group.Fault (Group (Node α))}
    (hc : a.change? = some change) (h : change root = .ok root') : (Node.group root').WellFormed := by
  cases a with
  | attach name n =>
    cases hc
    exact Group.wellFormed_attach hroot ha h
  | rename old new =>
    cases hc
    exact Group.wellFormed_rename hroot h
  | setOrder o =>
    cases hc
    exact Group.wellFormed_setOrder hroot h
  | freeze => cases hc

/-- The layout, once there is one, is the layout of the tree. -/
def Current (r : Registry α) : Prop := ∀ l, r.layout? = some l → resolve r.policy r.root = .ok l

theorem current_empty (policy : Policy) : (empty policy : Registry α).Current := fun _ h => nomatch h

theorem current_act {r r' : Registry α} {a : Action α} (h : r.act a = .ok r') : r'.Current := by
  obtain ⟨hopen, ⟨change, root, -, -, rfl⟩ | ⟨-, l, hl, rfl⟩⟩ := act_eq_ok.mp h
  · intro l hl
    have hnone : r.layout? = none := by simpa [isFrozen] using hopen
    rw [hnone] at hl
    cases hl
  · intro m hm
    cases hm
    exact hl

theorem current_after {r : Registry α} (hr : r.Current) (a : Action α) : (r.after a).Current := by
  unfold after
  cases h : r.act a with
  | error e => exact hr
  | ok r' => exact current_act h

theorem current_run {r : Registry α} (hr : r.Current) (as : List (Action α)) : (r.run as).Current := by
  induction as generalizing r with
  | nil => exact hr
  | cons a as ih => exact ih (current_after hr a)

theorem policy_run (r : Registry α) (as : List (Action α)) : (r.run as).policy = r.policy := by
  induction as generalizing r with
  | nil => rfl
  | cons a as ih =>
    have hafter : (r.after a).policy = r.policy := by
      unfold after
      cases h : r.act a with
      | error e => rfl
      | ok r' => obtain ⟨-, ⟨change, root, -, -, rfl⟩ | ⟨-, l, -, rfl⟩⟩ := act_eq_ok.mp h <;> rfl
    exact (ih _).trans hafter

structure Sound (r : Registry α) : Prop where
  root : (Node.group r.root).WellFormed
  layout : r.Current

theorem sound_empty (policy : Policy) : (empty policy : Registry α).Sound := by
  refine ⟨?_, current_empty policy⟩
  exact Node.wellFormed_group_iff.mpr ⟨Group.wellNamed_empty, fun e he => nomatch he⟩

theorem sound_act {r r' : Registry α} (hr : r.Sound) {a : Action α} (ha : a.WellFormed) (h : r.act a = .ok r') :
    r'.Sound := by
  refine ⟨?_, current_act h⟩
  obtain ⟨-, ⟨change, root, hc, hroot, rfl⟩ | ⟨-, l, -, rfl⟩⟩ := act_eq_ok.mp h
  · exact wellFormed_change ha hr.root hc hroot
  · exact hr.root

theorem sound_after {r : Registry α} (hr : r.Sound) {a : Action α} (ha : a.WellFormed) : (r.after a).Sound := by
  unfold after
  cases h : r.act a with
  | error e => exact hr
  | ok r' => exact sound_act hr ha h

theorem sound_run {r : Registry α} (hr : r.Sound) {as : List (Action α)} (has : ∀ a ∈ as, a.WellFormed) :
    (r.run as).Sound := by
  induction as generalizing r with
  | nil => exact hr
  | cons a as ih =>
    obtain ⟨ha, has⟩ := List.forall_mem_cons.mp has
    exact ih (sound_after hr ha) has

/-- A history with a sparse leaf, a group with an order of its own, a tuple, an entry that no order mentions, a refused
name and a new name. -/
def sampleActions : List (Action Symbol) :=
  [.attach "x" (.leaf (.scalar "x")),
    .attach "y" (.list [.leaf (.symbolic "y" ⟨2, 2, [⟨0, 0⟩, ⟨1, 1⟩], by decide, by decide, by decide⟩),
      .leaf (.scalar "v")]),
    .attach "y" (.list []),
    .attach "z" (.group ⟨[("a", .leaf (.scalar "a")), ("b", .leaf (.scalar "b"))], some ⟨[.name "b"]⟩⟩),
    .attach "e" (.leaf (.scalar "e")),
    .rename "x" "w",
    .setOrder ⟨[.name "w", .interleave ["y", "z"]]⟩]

def sample : Registry Symbol := (empty .permissive).run sampleActions

def frozenSample : Registry Symbol := sample.after .freeze

theorem wellFormed_sampleActions : ∀ a ∈ sampleActions, a.WellFormed := by
  simp [sampleActions, Action.WellFormed, Node.WellFormed, Node.ItemsWellFormed, Node.EntriesWellFormed,
    Group.WellNamed, Group.names, countBound]
  decide

theorem reachable_sample : sample.Reachable := ⟨_, _, wellFormed_sampleActions, rfl⟩

theorem reachable_frozenSample : frozenSample.Reachable := by
  refine ⟨.permissive, sampleActions ++ [.freeze], ?_, run_append _ _ _⟩
  intro a ha
  rcases List.mem_append.mp ha with ha | ha
  · exact wellFormed_sampleActions a ha
  · cases List.mem_singleton.mp ha
    trivial

theorem Reachable.sound {r : Registry α} (hr : r.Reachable) : r.Sound := by
  obtain ⟨policy, as, has, rfl⟩ := hr
  exact sound_run (sound_empty policy) has

end Registry
end QuantityLayout
