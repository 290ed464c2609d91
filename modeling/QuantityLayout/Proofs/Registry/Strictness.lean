import QuantityLayout.Proofs.Order.GapFree
import QuantityLayout.Proofs.Registry.Composition

set_option autoImplicit false

namespace QuantityLayout

variable {α β : Type} {s t : Policy}

namespace Policy

/-- In each part the first policy is the same as the second one, or it is the strict one. -/
structure AsStrict (s t : Policy) : Prop where
  omission : s.omission = t.omission ∨ s.omission = .requireComplete
  interleaving : s.interleaving = t.interleaving ∨ s.interleaving = .requireEqual

theorem AsStrict.accepts (h : s.AsStrict t) {counts : List Nat} (hs : s.interleaving.acceptsLengths counts) :
    t.interleaving.acceptsLengths counts := by
  rcases h.interleaving with heq | heq
  · rwa [← heq]
  · cases ht : t.interleaving with
    | requireEqual => rwa [heq] at hs
    | allowRagged => exact accepts_of_even (even_of_accepts hs)

theorem AsStrict.requireComplete (h : s.AsStrict t) (ht : t.omission = .requireComplete) : s.omission = .requireComplete :=
  h.omission.elim (·.trans ht) id

end Policy

namespace Order

variable {entries : List (String × Column β)} {us : List β}

theorem Item.Resolves.of_asStrict (h : s.AsStrict t) {i : Item} (hi : i.Resolves s entries) : i.Resolves t entries := by
  cases i with
  | name n => exact hi
  | interleave ns => exact ⟨hi.1, h.accepts hi.2⟩

theorem resolve?_of_asStrict (h : s.AsStrict t) {o : Option Order} (hs : resolve? s entries o = .ok us) :
    resolve? t entries o = .ok us := by
  cases o with
  | none => exact hs
  | some o =>
    obtain ⟨hnames, hitems, hcomplete, hus⟩ := resolve_eq_ok.mp hs
    exact resolve_eq_ok.mpr
      ⟨hnames, fun i hi => (hitems i hi).of_asStrict h, fun ht => hcomplete (h.requireComplete ht), hus⟩

end Order

namespace Node

/-- A tree that can be visited falls into the same slots under both policies. -/
theorem slots_of_asStrict (h : s.AsStrict t) {n : Node α} (hn : n.WellFormed) {vs : List (Visit α)} (hs : n.visits s = .ok vs) :
    n.slots t = n.slots s := by
  induction n generalizing vs with
  | leaf l => rfl
  | list ns ih =>
    have hitems := exists_visits_list.mp ⟨vs, hs⟩
    rw [slots, slots, itemVisits_eq, itemVisits_eq]
    refine congrArg Except.ok (List.map_congr_left fun e he => ?_)
    have hmem := List.fst_mem_of_mem_zipIdx he
    obtain ⟨ws, hws⟩ := hitems e.1 hmem
    exact congrArg (Visits.under _) (visits_congr (ih e.1 hmem (hn.items e.1 hmem) hws))
  | group es o ih =>
    obtain ⟨⟨us, hus⟩, hentries⟩ := (exists_visits_group hn.names_nodup).mp ⟨vs, hs⟩
    have hcolumns : columns t es = columns s es := by
      rw [columns_eq, columns_eq]
      refine List.map_congr_left fun e he => ?_
      obtain ⟨ws, hws⟩ := hentries e he
      rw [ih e he (hn.entries e he) hws]
    rw [slots, slots, hcolumns, hus]
    exact Order.resolve?_of_asStrict h hus

end Node

namespace Registry

/-- If a registry can be frozen under a policy, it can be frozen with the same layout under each that is the same or
less strict in each part. -/
theorem freeze_less_strict (h : s.AsStrict t) {g : Group (Node α)} (hg : (Node.group g).WellFormed) {r : Registry α}
    (hr : (ofRoot s g).freeze = .ok r) :
    ∃ r' l, (ofRoot t g).freeze = .ok r' ∧ r.layout = .ok l ∧ r'.layout = .ok l := by
  obtain ⟨-, l, hl, rfl⟩ := freeze_eq_ok.mp hr
  obtain ⟨vs, hvs, -⟩ := resolve_eq_ok.mp hl
  have hvisits : (Node.group g).visits t = (Node.group g).visits s := Node.visits_congr (Node.slots_of_asStrict h hg hvs)
  exact ⟨_, l, freeze_eq_ok.mpr ⟨rfl, l, (resolve_congr hvisits).trans hl, rfl⟩, rfl, rfl⟩

def evenSample : Group (Node Symbol) :=
  ⟨[("x", .leaf (.scalar "x")), ("y", .list [.leaf (.scalar "u"), .leaf (.scalar "v")]),
    ("z", .group ⟨[("a", .leaf (.scalar "a")), ("b", .leaf (.scalar "b"))], some ⟨[.name "b", .name "a"]⟩⟩)],
    some ⟨[.interleave ["y", "z"], .name "x"]⟩⟩

theorem freeze_less_strict_evenSample :
    Policy.strict.AsStrict .permissive ∧ (Node.group evenSample).WellFormed ∧ ∃ r r' l,
      (ofRoot .strict evenSample).freeze = .ok r ∧ (ofRoot .permissive evenSample).freeze = .ok r' ∧
      r.layout = .ok l ∧ r'.layout = .ok l ∧ (l.slots.map fun s => s.path.render) = ["y[0]", "z.b", "y[1]", "z.a", "x"] := by
  have hpolicies : Policy.strict.AsStrict .permissive := ⟨.inr rfl, .inr rfl⟩
  have hroot : (Node.group evenSample).WellFormed := by
    simp [evenSample, Node.WellFormed, Node.ItemsWellFormed, Node.EntriesWellFormed, Group.WellNamed, Group.names, countBound]
    decide
  have hfreeze : (ofRoot .strict evenSample).freeze = .ok _ := rfl
  obtain ⟨r', l, hfreeze', hl, hl'⟩ := freeze_less_strict hpolicies hroot hfreeze
  refine ⟨hpolicies, hroot, _, r', l, hfreeze, hfreeze', hl, hl', ?_⟩
  cases hl
  decide

end Registry
end QuantityLayout
