import QuantityLayout.Proofs.Registry.Reachable
import QuantityLayout.Proofs.Tree.Indexed
import QuantityLayout.Registry.InPlace

set_option autoImplicit false

namespace QuantityLayout.Registry.InPlace

variable {α : Type} {s : InPlace α}

/-- The program does to the registry what the step does. Where the step is refused, the program fails with the same error
and the registry is as it was. -/
def Follows (s : InPlace α) (p : Program α Unit) (step : Except Error (Registry α)) : Prop :=
  (∃ s', p.run s = .ok () s' ∧ s'.root.WellIndexed ∧ step = .ok s'.registry) ∨
    ∃ e, p.run s = .error e s ∧ step = .error e

theorem run_onRoot_ok {p : Group.Indexed.Program (Node α) Unit} {g : Group.Indexed (Node α)}
    (h : p.run s.root = .ok () g) : (onRoot p).run s = .ok () { s with root := g } := by
  have hrun : (onRoot p).run s = onRoot p s := rfl
  rw [hrun, onRoot, h]

theorem run_onRoot_error {p : Group.Indexed.Program (Node α) Unit} {f : Group.Fault} {g : Group.Indexed (Node α)}
    (h : p.run s.root = .error f g) : (onRoot p).run s = .error (.group f) { s with root := g } := by
  have hrun : (onRoot p).run s = onRoot p s := rfl
  rw [hrun, onRoot, h]

theorem follows_edit (hs : s.root.WellIndexed) (e : Edit) {p : Group.Indexed.Program (Node α) Unit}
    {change : Group (Node α) → Except Group.Fault (Group (Node α))} (hp : Group.Indexed.Carries p change) :
    s.Follows (edit e p) (s.registry.edit e change) := by
  cases hl : s.layout? with
  | some l =>
    exact .inr ⟨.frozen e, by simp [edit, hl], by simp [Registry.edit, isFrozen, registry, hl]⟩
  | none =>
    have hrun : (edit e p).run s = (onRoot p).run s := by simp [edit, hl]
    obtain ⟨g, hg, hindexed, hc⟩ | ⟨f, hf, hc⟩ := hp s.root hs
    · have hedit : s.registry.edit e change = .ok { s.registry with root := g.group } := by
        simp [Registry.edit, isFrozen, registry, hl, hc]
      exact .inl ⟨{ s with root := g }, hrun.trans (run_onRoot_ok hg), hindexed, hedit⟩
    · have hedit : s.registry.edit e change = .error (.group f) := by
        simp [Registry.edit, isFrozen, registry, hl, hc]
      exact .inr ⟨.group f, hrun.trans (run_onRoot_error hf), hedit⟩

theorem follows_freeze (hs : s.root.WellIndexed) : s.Follows freeze s.registry.freeze := by
  cases hl : s.layout? with
  | some l => exact .inr ⟨.alreadyFrozen, by simp [freeze, hl], by simp [Registry.freeze, isFrozen, registry, hl]⟩
  | none =>
    have hfreeze : s.registry.freeze
        = (resolve s.policy s.root.group).map fun l => { s.registry with layout? := some l } := by
      simp [Registry.freeze, isFrozen, registry, hl]
    cases hr : resolve s.policy s.root.group with
    | error e =>
      rw [hr] at hfreeze
      exact .inr ⟨e, by simp [freeze, hl, hr], hfreeze⟩
    | ok l =>
      rw [hr] at hfreeze
      exact .inl ⟨{ s with layout? := some l }, by simp [freeze, hl, hr], hs, hfreeze⟩

theorem follows_perform (hs : s.root.WellIndexed) (a : Action α) : s.Follows (perform a) (s.registry.act a) := by
  cases a with
  | attach name n => exact follows_edit hs _ (Group.Indexed.carries_attach name n)
  | rename old new => exact follows_edit hs _ (Group.Indexed.carries_rename old new)
  | setOrder o => exact follows_edit hs _ (Group.Indexed.carries_setOrder o)
  | freeze => exact follows_freeze hs

theorem answer_perform (hs : s.root.WellIndexed) (a : Action α) :
    answer ((perform a).run s) = s.registry.act a := by
  obtain ⟨s', hrun, -, hact⟩ | ⟨e, hrun, hact⟩ := follows_perform hs a
  · rw [hrun, hact, answer]
  · rw [hrun, hact, answer]

theorem act_of_run (hs : s.root.WellIndexed) {a : Action α} {s' : InPlace α} (h : (perform a).run s = .ok () s') :
    s.registry.act a = .ok s'.registry ∧ s'.root.WellIndexed := by
  obtain ⟨t, hrun, hindexed, hact⟩ | ⟨e, hrun, -⟩ := follows_perform hs a
  · rw [hrun] at h
    cases h
    exact ⟨hact, hindexed⟩
  · rw [hrun] at h
    cases h

theorem exists_run (hs : s.root.WellIndexed) {a : Action α} {r : Registry α} (h : s.registry.act a = .ok r) :
    ∃ s', (perform a).run s = .ok () s' ∧ s'.registry = r := by
  obtain ⟨s', hrun, -, hact⟩ | ⟨e, -, hact⟩ := follows_perform hs a
  · exact ⟨s', hrun, Except.ok.inj (hact.symm.trans h)⟩
  · rw [hact] at h
    cases h

theorem run_of_refused (hs : s.root.WellIndexed) {a : Action α} {e : Error} (h : s.registry.act a = .error e) :
    (perform a).run s = .error e s := by
  obtain ⟨s', -, -, hact⟩ | ⟨f, hrun, hact⟩ := follows_perform hs a
  · rw [hact] at h
    cases h
  · rw [hrun, Except.error.inj (hact.symm.trans h)]

/-- Nothing has been written when an operation fails. -/
theorem unchanged_of_error (hs : s.root.WellIndexed) {a : Action α} {e : Error} {s' : InPlace α}
    (h : (perform a).run s = .error e s') : s' = s := by
  obtain ⟨t, hrun, -⟩ | ⟨f, hrun, -⟩ := follows_perform hs a
  · rw [hrun] at h
    cases h
  · rw [hrun] at h
    cases h
    rfl

theorem left_perform (hs : s.root.WellIndexed) (a : Action α) :
    (left ((perform a).run s)).root.WellIndexed ∧ (left ((perform a).run s)).registry = s.registry.after a := by
  unfold Registry.after
  obtain ⟨s', hrun, hindexed, hact⟩ | ⟨e, hrun, hact⟩ := follows_perform hs a
  · rw [hrun, hact]
    exact ⟨hindexed, rfl⟩
  · rw [hrun, hact]
    exact ⟨hs, rfl⟩

theorem registry_run (hs : s.root.WellIndexed) (as : List (Action α)) :
    (s.run as).root.WellIndexed ∧ (s.run as).registry = s.registry.run as := by
  induction as generalizing s with
  | nil => exact ⟨hs, rfl⟩
  | cons a as ih =>
    obtain ⟨hindexed, hregistry⟩ := left_perform hs a
    have h := ih hindexed
    rw [hregistry] at h
    exact h

def refusal : Action α → Error
  | .attach name _ => .frozen (.attach name)
  | .rename old _ => .frozen (.rename old)
  | .setOrder _ => .frozen .setOrder
  | .freeze => .alreadyFrozen

theorem run_frozen (hs : s.layout?.isSome) (a : Action α) : (perform a).run s = .error (refusal a) s := by
  cases a <;> simp [perform, edit, freeze, refusal, hs]

theorem run_eq_self (hs : s.layout?.isSome) (as : List (Action α)) : s.run as = s := by
  induction as with
  | nil => rfl
  | cons a as ih =>
    have hleft : left ((perform a).run s) = s := by rw [run_frozen hs, left]
    rw [run, List.foldl_cons, hleft]
    exact ih

theorem isSome_layout_of_freeze {s' : InPlace α} (h : freeze.run s = .ok () s') : s'.layout?.isSome := by
  cases hl : s.layout? with
  | some l => simp [freeze, hl] at h
  | none =>
    cases hr : resolve s.policy s.root.group with
    | error e => simp [freeze, hl, hr] at h
    | ok l =>
      simp [freeze, hl, hr] at h
      simp [← h]

theorem wellIndexed_history (policy : Policy) (as : List (Action α)) : (history policy as).root.WellIndexed :=
  (registry_run Group.Indexed.wellIndexed_empty as).1

theorem registry_history (policy : Policy) (as : List (Action α)) :
    (history policy as).registry = (Registry.empty policy).run as :=
  (registry_run (s := empty policy) Group.Indexed.wellIndexed_empty as).2

theorem policy_history (policy : Policy) (as : List (Action α)) : (history policy as).policy = policy := by
  have hpolicy := policy_run (Registry.empty policy) as
  rw [← registry_history] at hpolicy
  exact hpolicy

theorem sound_history {policy : Policy} {as : List (Action α)} (has : ∀ a ∈ as, a.WellFormed) :
    (history policy as).registry.Sound := by
  rw [registry_history]
  exact sound_run (sound_empty policy) has

theorem kind_refusal (a : Action α) :
    (refusal a).kind = match a with | .freeze => .alreadyFrozen | _ => .immutableRegistry := by
  cases a <;> rfl

theorem history_of_freeze {policy : Policy} {earlier later : List (Action α)} {s' : InPlace α}
    (h : (perform .freeze).run (history policy earlier) = .ok () s') :
    history policy (earlier ++ .freeze :: later) = s' := by
  have hrun : history policy (earlier ++ .freeze :: later) = s'.run later := by
    rw [history, run, List.foldl_append, List.foldl_cons]
    change List.foldl _ (left ((perform .freeze).run (history policy earlier))) later = _
    rw [h]
    rfl
  rw [hrun, run_eq_self (isSome_layout_of_freeze h)]

/-- After any calls a registry is the one whose operations yield new ones. A failing call changes nothing, and once it
is frozen every call fails. -/
theorem lifecycle (policy : Policy) (calls : List (Action α)) :
    (history policy calls).registry = (Registry.empty policy).run calls ∧
    (∀ call, answer ((perform call).run (history policy calls)) = (history policy calls).registry.act call) ∧
    (∀ call e s', (perform call).run (history policy calls) = .error e s' → s' = history policy calls) ∧
    (∀ earlier later s', calls = earlier ++ .freeze :: later →
      (perform .freeze).run (history policy earlier) = .ok () s' →
        history policy calls = s' ∧
          ∀ call, ∃ e, (perform call).run s' = .error e s' ∧
            e.kind = match call with | .freeze => .alreadyFrozen | _ => .immutableRegistry) ∧
    ∀ l, (history policy calls).layout? = some l →
      resolve (history policy calls).policy (history policy calls).root.group = .ok l := by
  have hindexed := wellIndexed_history policy calls
  have hregistry := registry_history policy calls
  refine ⟨hregistry, fun call => answer_perform hindexed call, fun call e s' h => unchanged_of_error hindexed h, ?_, ?_⟩
  · intro earlier later s' hcalls h
    subst hcalls
    refine ⟨history_of_freeze h, fun call => ⟨refusal call, ?_, kind_refusal call⟩⟩
    exact run_frozen (isSome_layout_of_freeze h) call
  · have hcurrent := current_run (current_empty policy) calls
    rw [← hregistry] at hcurrent
    exact hcurrent

theorem lifecycle_sample :
    ∃ s', (perform .freeze).run (history .permissive sampleActions) = .ok () s' ∧ s'.registry = frozenSample ∧
      history .permissive (sampleActions ++ [.freeze]) = s' ∧
      ∃ e, (perform (.attach "q" (.list []))).run s' = .error e s' ∧ e.kind = .immutableRegistry := by
  obtain ⟨hregistry, hanswer, -⟩ := lifecycle .permissive sampleActions
  have hfreeze : answer ((perform .freeze).run (history .permissive sampleActions)) = .ok frozenSample := by
    rw [hanswer, hregistry]
    rfl
  cases h : (perform .freeze).run (history .permissive sampleActions) with
  | error e s' =>
    rw [h] at hfreeze
    cases hfreeze
  | ok u s' =>
    rw [h] at hfreeze
    obtain ⟨-, -, -, hlater, -⟩ := lifecycle .permissive (sampleActions ++ [.freeze])
    obtain ⟨hstate, hrefused⟩ := hlater sampleActions [] s' rfl h
    exact ⟨s', rfl, Except.ok.inj hfreeze, hstate, hrefused (.attach "q" (.list []))⟩

end QuantityLayout.Registry.InPlace
