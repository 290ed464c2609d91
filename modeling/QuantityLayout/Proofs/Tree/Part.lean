import QuantityLayout.Proofs.Order.Placement
import QuantityLayout.Proofs.Tree.WellOrdered
import Mathlib.Data.List.Flatten
/-!
Parts of a tree: what stands at a path. The visits of a part are met in the visits of the whole tree in their own
sequence, and without a gap unless a tuple takes the part apart.
-/
set_option autoImplicit false

namespace QuantityLayout

variable {α : Type}

namespace Visits

theorem chain_eq_ok {us : List (Visits α)} {vs : List (Visit α)} :
    chain us = .ok vs ↔ ∃ wss : List (List (Visit α)), us = wss.map .ok ∧ vs = wss.flatten := by
  induction us generalizing vs with
  | nil => simp [chain, eq_comm]
  | cons u us ih =>
    cases u with
    | error f =>
      constructor
      · intro h
        cases h
      · rintro ⟨_ | ⟨ws, wss⟩, hus, -⟩ <;> cases hus
    | ok first =>
      simp only [chain, Outcome.map_eq_ok, ih]
      constructor
      · rintro ⟨_, ⟨wss, rfl, rfl⟩, rfl⟩
        exact ⟨first :: wss, rfl, rfl⟩
      · rintro ⟨_ | ⟨ws, wss⟩, hus, rfl⟩
        · cases hus
        · obtain ⟨hfirst, rfl⟩ := List.cons.inj hus
          cases hfirst
          exact ⟨wss.flatten, ⟨wss, rfl, rfl⟩, rfl⟩

theorem sublist_of_chain {us cs : List (Visits α)} {vs : List (Visit α)} (h : chain us = .ok vs)
    (hcs : cs.Sublist us) : ∃ ws, chain cs = .ok ws ∧ ws.Sublist vs := by
  obtain ⟨wss, rfl, rfl⟩ := chain_eq_ok.mp h
  obtain ⟨wss', hsub, rfl⟩ := List.sublist_map_iff.mp hcs
  exact ⟨wss'.flatten, chain_eq_ok.mpr ⟨wss', rfl, rfl⟩, hsub.flatten⟩

theorem infix_of_chain {us : List (Visits α)} {u : Visits α} {vs : List (Visit α)} (h : chain us = .ok vs)
    (hu : u ∈ us) : ∃ ws, u = .ok ws ∧ ws <:+: vs := by
  obtain ⟨wss, rfl, rfl⟩ := chain_eq_ok.mp h
  obtain ⟨ws, hws, rfl⟩ := List.mem_map.mp hu
  exact ⟨ws, rfl, List.infix_of_mem_flatten hws⟩

theorem under_eq_ok {s : Step} {u : Visits α} {vs : List (Visit α)} :
    u.under s = .ok vs ↔ ∃ ws, u = .ok ws ∧ vs = ws.map (Visit.under s) := by
  cases u <;> simp [under, eq_comm]

end Visits

def Visit.below (p : Path) (v : Visit α) : Visit α := ⟨p ++ v.path, v.leaf⟩

theorem Visit.map_below_nil (vs : List (Visit α)) : vs.map (below []) = vs := List.map_id vs

theorem Visit.map_below_cons (s : Step) (p : Path) (vs : List (Visit α)) :
    vs.map (below (s :: p)) = (vs.map (below p)).map (under s) := by
  rw [List.map_map]
  rfl

namespace Node

variable {policy : Policy} {n m k : Node α} {s : Step} {p : Path} {us : List (Visits α)} {vs ws : List (Visit α)}

inductive Child : Node α → Step → Node α → Prop
  | item {ns : List (Node α)} {i : Nat} {k : Node α} (h : ns[i]? = some k) : Child (.list ns) (.index i) k
  | entry {g : Group (Node α)} {name : String} {k : Node α} (h : g.get? name = some k) : Child (.group g) (.name name) k

def steps : Node α → List Step
  | .leaf _ => []
  | .list ns => (List.range ns.length).map .index
  | .group g => g.names.map .name

/-- The path ends with the name of an entry that the order of its group takes apart. -/
def Interleaved (n : Node α) (p : Path) : Prop :=
  ∃ q name g o, p = q ++ [.name name] ∧ n.place.walk q = .ok (.group g) ∧ g.order = some o ∧ o.Splits name

theorem place_injective (h : n.place = m.place) : n = m := by
  cases n <;> cases m <;> cases h <;> rfl

theorem walk_cons_place : n.place.walk (s :: p) = .ok m.place ↔ ∃ k, Child n s k ∧ k.place.walk p = .ok m.place := by
  rw [Place.walk_cons_eq_ok]
  cases n with
  | leaf l =>
    constructor
    · rintro ⟨y, hs, hp⟩
      rcases Place.step_leaf_eq_ok.mp hs with ⟨r, c, -, -, rfl⟩ | ⟨j, c, -, -, rfl⟩
      all_goals exact absurd (Place.walk_cell_eq_ok.mp hp).2 (Place.place_ne_cell m _ _)
    · rintro ⟨k, ⟨⟩, -⟩
  | list ns =>
    constructor
    · rintro ⟨y, hs, hp⟩
      obtain ⟨i, k, rfl, hi, rfl⟩ := Place.step_list_eq_ok.mp hs
      exact ⟨k, .item hi, hp⟩
    · rintro ⟨k, hk, hp⟩
      cases hk with
      | item hi => exact ⟨k.place, Place.step_list_eq_ok.mpr ⟨_, k, rfl, hi, rfl⟩, hp⟩
  | group g =>
    constructor
    · rintro ⟨y, hs, hp⟩
      obtain ⟨name, k, rfl, hk, rfl⟩ := Place.step_group_eq_ok.mp hs
      exact ⟨k, .entry hk, hp⟩
    · rintro ⟨k, hk, hp⟩
      cases hk with
      | entry hk => exact ⟨k.place, Place.step_group_eq_ok.mpr ⟨_, k, rfl, hk, rfl⟩, hp⟩

theorem Child.step (hk : Child n s k) : n.place.step s = .ok k.place := by
  cases hk with
  | item h => exact Place.step_list_eq_ok.mpr ⟨_, _, rfl, h, rfl⟩
  | entry h => exact Place.step_group_eq_ok.mpr ⟨_, _, rfl, h, rfl⟩

theorem mem_steps_iff : s ∈ m.steps ↔ ∃ k, Child m s k := by
  cases m with
  | leaf l => exact ⟨fun hs => absurd hs List.not_mem_nil, fun ⟨k, hk⟩ => nomatch hk⟩
  | list ns =>
    constructor
    · intro hs
      obtain ⟨i, hi, rfl⟩ := List.mem_map.mp hs
      exact ⟨_, .item (List.getElem?_eq_getElem (List.mem_range.mp hi))⟩
    · rintro ⟨k, hk⟩
      cases hk with
      | item hi => exact List.mem_map_of_mem (List.mem_range.mpr (List.getElem?_eq_some_iff.mp hi).1)
  | group g =>
    constructor
    · intro hs
      obtain ⟨name, hname, rfl⟩ := List.mem_map.mp hs
      obtain ⟨k, hk⟩ := Entries.exists_lookup hname
      exact ⟨k, .entry hk⟩
    · rintro ⟨k, hk⟩
      cases hk with
      | entry hget => exact List.mem_map_of_mem (List.mem_map_of_mem (f := Prod.fst) (Entries.mem_of_lookup hget))

theorem WellFormed.nodup_steps (hm : m.WellFormed) : m.steps.Nodup := by
  cases m with
  | leaf l => exact List.nodup_nil
  | list ns => exact List.nodup_range.map fun i j h => Step.index.inj h
  | group g => exact List.Nodup.map (fun a b h => Step.name.inj h) hm.names_nodup

theorem Child.wellFormed (hk : Child n s k) (hn : n.WellFormed) : k.WellFormed := by
  cases hk with
  | item h => exact hn.items k (List.mem_of_getElem? h)
  | entry h => exact hn.entries _ (Entries.mem_of_lookup h)

theorem WellFormed.part (hn : n.WellFormed) (hp : n.place.walk p = .ok m.place) : m.WellFormed := by
  induction p generalizing n with
  | nil =>
    cases place_injective (Except.ok.inj hp)
    exact hn
  | cons s p ih =>
    obtain ⟨k, hk, hp⟩ := walk_cons_place.mp hp
    exact ih (hk.wellFormed hn) hp

/-- A part is one of the slots of its node, or its own slots are among them. -/
theorem Child.whole_or_slots (hk : Child n s k) (h : n.slots policy = .ok us) :
    (k.visits policy).under s ∈ us ∨
      n.Interleaved [s] ∧ ∃ ks, k.slots policy = .ok ks ∧ (ks.map (Visits.under s)).Sublist us := by
  cases hk with
  | @item ns i k hi =>
    cases h
    rw [itemVisits_eq]
    exact .inl (List.mem_map.mpr ⟨(k, i), List.mem_zipIdx_iff_getElem?.mpr hi, rfl⟩)
  | @entry g name k hget =>
    obtain ⟨es, o⟩ := g
    rcases Order.whole_or_slots h (lookup_columns_of_lookup hget) with hwhole | ⟨⟨o', ho, hsplits⟩, cs, hcs, hsub⟩
    · rw [whole_column] at hwhole
      exact .inl hwhole
    · refine .inr ⟨⟨[], name, ⟨es, o⟩, o', rfl, rfl, ho, hsplits⟩, ?_⟩
      cases hslots : k.slots policy with
      | error f =>
        rw [hslots] at hcs
        cases hcs
      | ok ks =>
        rw [hslots] at hcs
        cases hcs
        exact ⟨ks, rfl, hsub⟩

theorem Child.visits_sublist (hk : Child n s k) (h : n.visits policy = .ok vs) :
    ∃ ws, k.visits policy = .ok ws ∧ (ws.map (Visit.under s)).Sublist vs := by
  obtain ⟨us, hus, hchain⟩ := visits_eq_ok.mp h
  rcases hk.whole_or_slots hus with hwhole | ⟨-, ks, hks, hsub⟩
  · obtain ⟨xs, hxs, hwithin⟩ := Visits.infix_of_chain hchain hwhole
    obtain ⟨ws, hws, rfl⟩ := Visits.under_eq_ok.mp hxs
    exact ⟨ws, hws, hwithin.sublist⟩
  · obtain ⟨xs, hxs, hsub⟩ := Visits.sublist_of_chain hchain hsub
    rw [Visits.chain_under] at hxs
    obtain ⟨ws, hws, rfl⟩ := Visits.under_eq_ok.mp hxs
    exact ⟨ws, visits_eq_ok.mpr ⟨ks, hks, hws⟩, hsub⟩

/-- A part can be visited on its own, and its visits keep their sequence in the whole tree. -/
theorem part_visits_sublist (h : n.visits policy = .ok vs) (hp : n.place.walk p = .ok m.place) :
    ∃ ws, m.visits policy = .ok ws ∧ (ws.map (Visit.below p)).Sublist vs := by
  induction p generalizing n vs with
  | nil =>
    cases place_injective (Except.ok.inj hp)
    exact ⟨vs, h, by rw [Visit.map_below_nil]⟩
  | cons s p ih =>
    obtain ⟨k, hk, hp⟩ := walk_cons_place.mp hp
    obtain ⟨ks, hks, hsub⟩ := hk.visits_sublist h
    obtain ⟨ws, hws, hws'⟩ := ih hks hp
    refine ⟨ws, hws, ?_⟩
    rw [Visit.map_below_cons]
    exact (hws'.map _).trans hsub

theorem inventory_part (hn : n.WellFormed) (hp : n.place.walk p = .ok m.place) :
    (n.inventory.filter fun v => p.isPrefixOf v.path).Perm (m.inventory.map (Visit.below p)) := by
  have hm := hn.part hp
  have hinj : Function.Injective (Visit.below p : Visit α → Visit α) := by
    rintro ⟨q, l⟩ ⟨q', l'⟩ h
    cases List.append_cancel_left (congrArg Visit.path h)
    cases congrArg Visit.leaf h
    rfl
  refine (List.perm_ext_iff_of_nodup ((inventory_nodup hn).of_map.filter _)
    ((inventory_nodup hm).of_map.map hinj)).mpr fun v => ?_
  obtain ⟨q, l⟩ := v
  simp only [List.mem_filter, List.mem_map, List.isPrefixOf_iff_prefix, mem_inventory_iff hn]
  constructor
  · rintro ⟨hq, q', rfl⟩
    obtain ⟨y, hy, hq'⟩ := Place.walk_append_eq_ok.mp hq
    rw [hp] at hy
    cases hy
    exact ⟨⟨q', l⟩, (mem_inventory_iff hm).mpr hq', rfl⟩
  · rintro ⟨⟨q', l'⟩, hv, h⟩
    cases h
    exact ⟨Place.walk_append_eq_ok.mpr ⟨_, hp, (mem_inventory_iff hm).mp hv⟩, List.prefix_append p q'⟩

/-- The visits under a path are the visits of the part that stands there. -/
theorem visits_part (hn : n.WellFormed) (h : n.visits policy = .ok vs) (hp : n.place.walk p = .ok m.place) :
    ∃ ws, m.visits policy = .ok ws ∧ vs.filter (fun v => p.isPrefixOf v.path) = ws.map (Visit.below p) := by
  obtain ⟨ws, hws, hsub⟩ := part_visits_sublist h hp
  refine ⟨ws, hws, ?_⟩
  have hall : (ws.map (Visit.below p)).filter (fun v => p.isPrefixOf v.path) = ws.map (Visit.below p) := by
    rw [List.filter_eq_self]
    rintro _ hv
    obtain ⟨w, -, rfl⟩ := List.mem_map.mp hv
    exact List.isPrefixOf_iff_prefix.mpr (List.prefix_append p w.path)
  have hperm : (vs.filter fun v => p.isPrefixOf v.path).Perm (ws.map (Visit.below p)) :=
    ((visits_perm_inventory hn h).filter _).trans
      ((inventory_part hn hp).trans ((visits_perm_inventory (hn.part hp) hws).map _).symm)
  have hsub := hsub.filter fun v => p.isPrefixOf v.path
  rw [hall] at hsub
  exact (hsub.eq_of_length hperm.length_eq.symm).symm

theorem Interleaved.cons (hk : Child n s k) (h : k.Interleaved p) : n.Interleaved (s :: p) := by
  obtain ⟨q, name, g, o, rfl, hq, ho, hsplits⟩ := h
  exact ⟨s :: q, name, g, o, rfl, Place.walk_cons_eq_ok.mpr ⟨_, hk.step, hq⟩, ho, hsplits⟩

end Node
end QuantityLayout
