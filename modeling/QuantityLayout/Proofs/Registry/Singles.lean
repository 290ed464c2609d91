import QuantityLayout.Proofs.Registry.Composition
import QuantityLayout.Proofs.Tree.Descent
/-!
Tuples of a single name. The entry is taken apart, but there is no other one to take turns with, so its slots come one after the
other and the entry is visited as it would be in one piece. What may differ is which of two faults is come upon first: an entry
that cannot be taken apart is found at once by a tuple, and after all the rest of the order by its bare name.
-/
set_option autoImplicit false

namespace QuantityLayout

variable {α : Type} {policy : Policy}

namespace Visits

variable {us us' ws ws' : List (Visits α)} {r r' s s' : Except Order.Fault (List (Visits α))}

theorem chain_append_congr (hus : chain us = chain us') (hws : chain ws = chain ws') :
    chain (us ++ ws) = chain (us' ++ ws') := by rw [chain_append, chain_append, hus, hws]

/-- Two ways to units that come to the same visits, or that end with the same fault. -/
def Alike (r r' : Except Order.Fault (List (Visits α))) : Prop := r.map chain = r'.map chain

theorem Alike.bind {k k' : List (Visits α) → Except Order.Fault (List (Visits α))} (h : Alike r r')
    (hk : ∀ us us', chain us = chain us' → Alike (k us) (k' us')) : Alike (r >>= k) (r' >>= k') := by
  cases r with
  | error f =>
    cases r' with
    | error f' =>
      cases h
      rfl
    | ok us' => cases h
  | ok us =>
    cases r' with
    | error f' => cases h
    | ok us' => exact hk us us' (Except.ok.inj h)

theorem Alike.append (h : Alike r r') (h' : Alike s s') :
    Alike (do let us ← r; let ws ← s; .ok (us ++ ws)) (do let us ← r'; let ws ← s'; .ok (us ++ ws)) :=
  h.bind fun _ _ hus => h'.bind fun _ _ hws => congrArg Except.ok (chain_append_congr hus hws)

end Visits

namespace Order

open Visits (Alike)

variable {entries : List (String × Column (Visits α))} {i j : Item}

theorem resolveItems_alike (h : Alike (i.resolve policy entries) (j.resolve policy entries)) (before after : List Item) :
    Alike (resolveItems policy entries (before ++ i :: after)) (resolveItems policy entries (before ++ j :: after)) := by
  induction before with
  | nil => exact h.append rfl
  | cons b before ih => exact Alike.append rfl ih

theorem resolve_alike (hnames : i.names = j.names) (h : Alike (i.resolve policy entries) (j.resolve policy entries))
    (before after : List Item) :
    Alike (resolve policy entries ⟨before ++ i :: after⟩) (resolve policy entries ⟨before ++ j :: after⟩) := by
  have hall : (Order.mk (before ++ i :: after)).names = (Order.mk (before ++ j :: after)).names := by
    simp [names, hnames]
  rw [resolve, resolve, omitted, omitted, hall]
  cases firstRepeat (Order.mk (before ++ j :: after)).names with
  | some n => rfl
  | none =>
    refine (resolveItems_alike h before after).bind fun us us' hus => ?_
    split
    · rfl
    · exact congrArg Except.ok (Visits.chain_append_congr hus rfl)

end Order

theorem Policy.acceptsLengths_singleton (i : Policy.Interleaving) (count : Nat) : i.acceptsLengths [count] := by
  cases i <;> simp [Interleaving.acceptsLengths, Interleaving.acceptsBy, descending]

namespace Node

open Visits (Alike)

variable {es : List (String × Node α)} {name : String}

/-- The slots of an entry, visited in turn, are the visit of the entry; alone in a tuple they come in no other sequence. -/
theorem resolve_single (h : ∀ n, es.lookup name = some n → ∃ us, n.slots policy = .ok us) :
    Alike ((Order.Item.interleave [name]).resolve policy (columns policy es))
      ((Order.Item.name name).resolve policy (columns policy es)) := by
  rw [Order.Item.resolve, Order.Item.resolve, Order.tuple, Order.column, lookup_columns]
  cases hlookup : es.lookup name with
  | none => rfl
  | some n =>
    obtain ⟨us, hus⟩ := h n hlookup
    have hchain : Visits.chain (us.map (Visits.under (.name name))) = (Visits.column (.name name) (.ok us)).whole :=
      Visits.chain_slots_column rfl
    rw [Option.map_some, hus]
    change Alike
      (if policy.interleaving.acceptsLengths [(us.map (Visits.under (.name name))).length]
        then .ok (RoundRobin.merge [us.map (Visits.under (.name name))]) else .error _)
      (.ok [(Visits.column (.name name) (.ok us)).whole])
    rw [if_pos (Policy.acceptsLengths_singleton _ _), RoundRobin.merge_singleton]
    exact congrArg Except.ok (hchain.trans (Visits.chain_singleton _).symm)

theorem visits_alike {n m : Node α} (h : Alike (n.slots policy) (m.slots policy)) :
    n.visits policy = m.visits policy := by
  rw [visits, visits]
  cases hn : n.slots policy <;> cases hm : m.slots policy <;> rw [hn, hm] at h
  · cases h
    rfl
  · cases h
  · cases h
  · exact Except.ok.inj h

theorem visits_single (h : ∀ n, es.lookup name = some n → ∃ us, n.slots policy = .ok us) (before after : List Order.Item) :
    (Node.group ⟨es, some ⟨before ++ .interleave [name] :: after⟩⟩).visits policy
      = (Node.group ⟨es, some ⟨before ++ .name name :: after⟩⟩).visits policy := by
  have hnames : (Order.Item.interleave [name]).names = (Order.Item.name name).names := rfl
  exact visits_alike (Order.resolve_alike hnames (resolve_single h) before after)

theorem exists_slots_of_visits {o : Option Order} {vs : List (Visit α)} (h : (Node.group ⟨es, o⟩).visits policy = .ok vs) {n : Node α}
    (hn : es.lookup name = some n) : ∃ us, n.slots policy = .ok us := by
  have hchild : Child (.group ⟨es, o⟩) (.name name) n := .entry hn
  obtain ⟨ws, hws, -⟩ := hchild.visits_sublist h
  obtain ⟨us, hus, -⟩ := visits_eq_ok.mp hws
  exact ⟨us, hus⟩

end Node

namespace Registry

variable {l : Layout}

def layoutOf (policy : Policy) (es : List (String × Node α)) (items : List Order.Item) : Except Error Layout :=
  (ofRoot policy ⟨es, some ⟨items⟩⟩).freeze >>= layout

theorem layoutOf_eq (policy : Policy) (es : List (String × Node α)) (items : List Order.Item) :
    layoutOf policy es items = resolve policy ⟨es, some ⟨items⟩⟩ := by
  have hfreeze : (ofRoot policy ⟨es, some ⟨items⟩⟩).freeze = (resolve policy ⟨es, some ⟨items⟩⟩).map _ := rfl
  rw [layoutOf, hfreeze]
  cases resolve policy ⟨es, some ⟨items⟩⟩ <;> rfl

theorem exists_slots_of_layoutOf {es : List (String × Node α)} {items : List Order.Item}
    (h : layoutOf policy es items = .ok l) {name : String} {n : Node α} (hn : es.lookup name = some n) :
    ∃ us, n.slots policy = .ok us := by
  rw [layoutOf_eq] at h
  obtain ⟨vs, hvs, -⟩ := resolve_eq_ok.mp h
  exact Node.exists_slots_of_visits hvs hn

theorem layoutOf_single {es : List (String × Node α)} {name : String}
    (h : ∀ n, es.lookup name = some n → ∃ us, n.slots policy = .ok us) (before after : List Order.Item) :
    layoutOf policy es (before ++ .interleave [name] :: after) = layoutOf policy es (before ++ .name name :: after) := by
  rw [layoutOf_eq, layoutOf_eq]
  exact resolve_congr (Node.visits_single h before after)

/-- The slots of a node, visited one after the other, are the visit of the node, faults included. So a tuple of a single
name has the layout of the bare name. -/
theorem taken_apart_as_whole (policy : Policy) :
    (∀ (p : Path) (n : Node α) (vs : List (Visit α)),
      (Piece.slotsAt policy p n >>= fun us => us.foldlM (Piece.visit policy) vs) = Piece.visit policy vs ⟨p, n⟩) ∧
    (∀ (p : Path) (n : Node α),
      Piece.slotVisits policy p n = Order.mapUnits (Order.Fault.below p) (Visits.below p) (n.slots policy) ∧
      Piece.visit policy [] ⟨p, n⟩ = (n.visits policy).below p) ∧
    ∀ (es : List (String × Node α)) (before after : List Order.Item) (name : String),
      (∀ l, layoutOf policy es (before ++ .interleave [name] :: after) = .ok l ↔
        layoutOf policy es (before ++ .name name :: after) = .ok l) ∧
      ((∀ n, es.lookup name = some n → ∃ us, n.slots policy = .ok us) →
        layoutOf policy es (before ++ .interleave [name] :: after) = layoutOf policy es (before ++ .name name :: after)) := by
  refine ⟨Piece.foldlM_visit_slotsAt policy, fun p n => ⟨Piece.slotVisits_eq policy p n, Piece.visit_eq policy p n⟩, ?_⟩
  refine fun es before after name => ⟨fun l => ⟨fun h => ?_, fun h => ?_⟩, fun h => layoutOf_single h before after⟩
  · rw [← layoutOf_single (fun _ hn => exists_slots_of_layoutOf h hn) before after]
    exact h
  · rw [layoutOf_single (fun _ hn => exists_slots_of_layoutOf h hn) before after]
    exact h

/-- The group below the root has an order of its own, in which one more entry stands alone in a tuple. -/
def nestedEntries : List (String × Node Symbol) :=
  [("x", .leaf (.scalar "x")),
    ("y", .group ⟨[("a", .leaf (.scalar "a")), ("b", .list [.leaf (.scalar "b"), .leaf (.scalar "c")])],
      some ⟨[.interleave ["b"], .name "a"]⟩⟩)]

theorem taken_apart_as_whole_nestedEntries :
    (∀ n, nestedEntries.lookup "y" = some n → ∃ us, n.slots .strict = .ok us) ∧
    layoutOf .strict nestedEntries [.interleave ["y"], .name "x"] = layoutOf .strict nestedEntries [.name "y", .name "x"] ∧
    ∃ l, layoutOf .strict nestedEntries [.interleave ["y"], .name "x"] = .ok l ∧
      (l.slots.map fun s => s.path.render) = ["y.b[0]", "y.b[1]", "y.a", "x"] := by
  have hslots : ∀ n, nestedEntries.lookup "y" = some n → ∃ us, n.slots .strict = .ok us := by
    intro n hn
    cases hn
    exact ⟨_, rfl⟩
  obtain ⟨-, -, hlayout⟩ := taken_apart_as_whole (α := Symbol) .strict
  exact ⟨hslots, (hlayout nestedEntries [] [.name "x"] "y").2 hslots, _, rfl, by decide⟩

/-- An entry whose own order says a name twice: the tuple finds this, the bare name finds the name after it that is not there. -/
example :
    let es : List (String × Node Symbol) := [("y", .group ⟨[], some ⟨[.name "a", .name "a"]⟩⟩)]
    layoutOf .strict es [.interleave ["y"], .name "q"] = .error (.order ⟨[.name "y"], .repeated "a"⟩) ∧
      layoutOf .strict es [.name "y", .name "q"] = .error (.order ⟨[], .unattached "q"⟩) := ⟨rfl, rfl⟩

end Registry
end QuantityLayout
