import QuantityLayout.Proofs.Order.Units
import Mathlib.Data.List.Nodup
import Mathlib.Data.Set.Function
/-!
Orders under new names. As long as the names of the entries stay apart, an order that is renamed along with them can still
be followed, and its units come in the sequence in which they came before. Where the names stay what they are, faults come
out as before, too.
-/
set_option autoImplicit false

namespace QuantityLayout.Order

variable {β γ : Type} {policy : Policy} {entries : List (String × Column β)} {f : String → String} {k : Fault → Fault}
  {g : β → γ} {n : String} {o : Order}

def mapNames (f : String → String) (o : Order) : Order := ⟨o.items.map (Item.mapNames f)⟩

theorem names_mapNames (f : String → String) (o : Order) : (o.mapNames f).names = o.names.map f := by
  simp [names, mapNames, List.flatMap_map, List.map_flatMap]

def Column.map (k : Fault → Fault) (g : β → γ) (c : Column β) : Column γ :=
  ⟨g c.whole, (c.slots.map (List.map g)).mapError k⟩

def relabel (f : String → String) (k : Fault → Fault) (g : β → γ) (entries : List (String × Column β)) :
    List (String × Column γ) :=
  entries.map fun e => (f e.1, e.2.map k g)

def Apart (f : String → String) (entries : List (String × Column β)) : Prop :=
  Set.InjOn f {n | n ∈ entries.map Prod.fst}

theorem map_fst_relabel (f : String → String) (k : Fault → Fault) (g : β → γ) (entries : List (String × Column β)) :
    (relabel f k g entries).map Prod.fst = (entries.map Prod.fst).map f := by
  rw [relabel, List.map_map, List.map_map]
  rfl

theorem lookup_relabel (hf : Apart f entries) (hn : n ∈ entries.map Prod.fst) :
    (relabel f k g entries).lookup (f n) = (entries.lookup n).map (Column.map k g) :=
  Entries.lookup_renamed f (Column.map k g) fun _ hm heq => hf hm hn heq

theorem Column.slots_map {c : Column β} {us : List β} (h : c.slots = .ok us) : (c.map k g).slots = .ok (us.map g) := by
  rw [map, h]
  rfl

theorem Opens.name_mem (h : Opens entries n) : n ∈ entries.map Prod.fst := by
  obtain ⟨c, us, hc, -⟩ := h
  exact Entries.name_mem_of_lookup hc

theorem Opens.relabel (hf : Apart f entries) (h : Opens entries n) :
    Opens (relabel f k g entries) (f n) ∧ partsOf (Order.relabel f k g entries) (f n) = (partsOf entries n).map g := by
  have hlookup := lookup_relabel (k := k) (g := g) hf h.name_mem
  obtain ⟨c, us, hc, hs⟩ := h
  rw [hc, Option.map_some] at hlookup
  exact ⟨⟨c.map k g, us.map g, hlookup, Column.slots_map hs⟩,
    by rw [partsOf_eq hlookup (Column.slots_map hs), partsOf_eq hc hs]⟩

theorem Item.relabel (hf : Apart f entries) {i : Item} (hi : i.Resolves policy entries) :
    (i.mapNames f).Resolves policy (relabel f k g entries) ∧
      (i.mapNames f).units (Order.relabel f k g entries) = (i.units entries).map g := by
  cases i with
  | name n =>
    refine ⟨?_, ?_⟩
    · change f n ∈ (Order.relabel f k g entries).map Prod.fst
      rw [map_fst_relabel]
      exact List.mem_map_of_mem hi
    · simp only [mapNames, units, lookup_relabel hf hi]
      cases entries.lookup n <;> rfl
  | interleave ns =>
    obtain ⟨hns, haccepts⟩ := hi
    have hparts : (ns.map f).map (partsOf (Order.relabel f k g entries)) = (ns.map (partsOf entries)).map (List.map g) := by
      rw [List.map_map, List.map_map]
      exact List.map_congr_left fun n hn => ((hns n hn).relabel hf).2
    refine ⟨⟨fun m hm => ?_, ?_⟩, ?_⟩
    · obtain ⟨n, hn, rfl⟩ := List.mem_map.mp hm
      exact ((hns n hn).relabel hf).1
    · have hcounts := congrArg (List.map List.length) hparts
      simp only [List.map_map, Function.comp_def, List.length_map] at hcounts
      rw [List.map_map, Function.comp_def, hcounts]
      exact haccepts
    · rw [mapNames, units, hparts, RoundRobin.merge_map, units]

theorem omitted_relabel (hf : Apart f entries) (ho : ∀ n ∈ o.names, n ∈ entries.map Prod.fst) :
    (o.mapNames f).omitted (relabel f k g entries) = relabel f k g (o.omitted entries) := by
  have hsame : ∀ e ∈ entries, f e.1 ∈ o.names.map f ↔ e.1 ∈ o.names := by
    refine fun e he => ⟨fun h => ?_, List.mem_map_of_mem⟩
    obtain ⟨n, hn, heq⟩ := List.mem_map.mp h
    exact hf (ho n hn) (List.mem_map_of_mem he) heq ▸ hn
  rw [omitted, omitted, relabel, relabel, List.filter_map, names_mapNames]
  exact congrArg (List.map _) (List.filter_congr fun e he => by simp only [Function.comp_apply, hsame e he])

theorem whole_relabel (entries : List (String × Column β)) :
    ((relabel f k g entries).map fun e => e.2.whole) = (entries.map fun e => e.2.whole).map g := by
  rw [relabel, List.map_map, List.map_map]
  rfl

theorem resolve_relabel (hf : Apart f entries) {us : List β} (h : o.resolve policy entries = .ok us) :
    (o.mapNames f).resolve policy (relabel f k g entries) = .ok (us.map g) := by
  obtain ⟨hnames, hitems, hcomplete, rfl⟩ := resolve_eq_ok.mp h
  have hattached := attached_of_resolve h
  have homitted := omitted_relabel (k := k) (g := g) hf hattached
  refine resolve_eq_ok.mpr ⟨?_, ?_, ?_, ?_⟩
  · rw [names_mapNames]
    exact hnames.map_on fun m hm n hn heq => hf (hattached m hm) (hattached n hn) heq
  · intro i' hi'
    obtain ⟨i, hi, rfl⟩ := List.mem_map.mp hi'
    exact (Item.relabel hf (hitems i hi)).1
  · intro hp
    rw [homitted, hcomplete hp]
    rfl
  · have hunits : (o.mapNames f).items.flatMap (Item.units (relabel f k g entries))
        = (o.items.flatMap (Item.units entries)).map g := by
      rw [mapNames, List.flatMap_map, List.map_flatMap]
      exact List.flatMap_congr fun i hi => (Item.relabel hf (hitems i hi)).2
    rw [hunits, homitted, whole_relabel, List.map_append]

theorem resolve?_relabel (hf : Apart f entries) {o : Option Order} {us : List β}
    (h : resolve? policy entries o = .ok us) :
    resolve? policy (relabel f k g entries) (o.map (mapNames f)) = .ok (us.map g) := by
  cases o with
  | none =>
    cases h
    exact congrArg Except.ok (whole_relabel entries)
  | some o => exact resolve_relabel hf h

section Seen

def mapUnits (k : Fault → Fault) (g : β → γ) (r : Except Fault (List β)) : Except Fault (List γ) :=
  (r.map (List.map g)).mapError k

theorem omitted_relabel_id (o : Order) : o.omitted (relabel id k g entries) = relabel id k g (o.omitted entries) := by
  rw [omitted, omitted, relabel, relabel, List.filter_map]
  rfl

variable (hk : ∀ d, k ⟨[], d⟩ = ⟨[], d⟩)
include hk

theorem column_relabel_id (n : String) :
    column (relabel id k g entries) n = ((column entries n).map (Column.map k g)).mapError k := by
  have hlookup : (relabel id k g entries).lookup n = (entries.lookup n).map (Column.map k g) :=
    Entries.lookup_map (fun _ => Column.map k g) entries n
  rw [column, column, hlookup]
  cases entries.lookup n with
  | none => exact congrArg Except.error (hk _).symm
  | some c => rfl

theorem tuple_relabel_id (ns : List String) :
    tuple (relabel id k g entries) ns = ((tuple entries ns).map (List.map (List.map g))).mapError k := by
  induction ns with
  | nil => rfl
  | cons n ns ih =>
    rw [tuple, tuple, column_relabel_id hk, ih]
    cases column entries n with
    | error f => rfl
    | ok c =>
      obtain ⟨whole, slots⟩ := c
      cases slots with
      | error f => rfl
      | ok us => cases tuple entries ns <;> rfl

theorem Item.resolve_relabel_id (i : Item) :
    i.resolve policy (Order.relabel id k g entries) = mapUnits k g (i.resolve policy entries) := by
  cases i with
  | name n =>
    rw [Item.resolve, Item.resolve, column_relabel_id hk]
    cases column entries n <;> rfl
  | interleave ns =>
    rw [Item.resolve, Item.resolve, tuple_relabel_id hk]
    cases tuple entries ns with
    | error f => rfl
    | ok columns =>
      have hcounts : (columns.map (List.map g)).map List.length = columns.map List.length := by
        simp [Function.comp_def]
      change (if policy.interleaving.acceptsLengths _ then _ else _) = mapUnits k g (if policy.interleaving.acceptsLengths _ then _ else _)
      rw [hcounts]
      split
      · exact congrArg Except.ok (RoundRobin.merge_map g columns)
      · exact congrArg Except.error (hk _).symm

theorem resolveItems_relabel_id (is : List Item) :
    resolveItems policy (relabel id k g entries) is = mapUnits k g (resolveItems policy entries is) := by
  induction is with
  | nil => rfl
  | cons i is ih =>
    rw [resolveItems, resolveItems, Item.resolve_relabel_id hk, ih]
    cases i.resolve policy entries with
    | error f => rfl
    | ok us =>
      cases resolveItems policy entries is with
      | error f => rfl
      | ok ws => exact congrArg Except.ok List.map_append.symm

/-- An order is followed in the same way, and found at fault in the same way, whatever its units are seen as. -/
theorem resolve?_relabel_id (o : Option Order) :
    resolve? policy (relabel id k g entries) o = mapUnits k g (resolve? policy entries o) := by
  cases o with
  | none => exact congrArg Except.ok (whole_relabel entries)
  | some o =>
    rw [resolve?, resolve?, resolve, resolve, resolveItems_relabel_id hk, omitted_relabel_id]
    cases firstRepeat o.names with
    | some n => exact congrArg Except.error (hk _).symm
    | none =>
      cases resolveItems policy entries o.items with
      | error f => rfl
      | ok us =>
        have hlast (rest : List (String × Column β)) :
            us.map g ++ (relabel id k g rest).map (fun e => e.2.whole) = (us ++ rest.map fun e => e.2.whole).map g := by
          rw [whole_relabel, List.map_append]
        cases policy.omission with
        | appendOmitted => exact congrArg Except.ok (hlast _)
        | requireComplete =>
          cases o.omitted entries with
          | nil => exact congrArg Except.ok (hlast [])
          | cons e es =>
            have hnames : (relabel id k g (e :: es)).map Prod.fst = (e :: es).map Prod.fst := by
              rw [map_fst_relabel, List.map_id]
            change Except.error ⟨[], .omitted ((relabel id k g (e :: es)).map Prod.fst)⟩ = Except.error (k _)
            rw [hk, hnames]

end Seen

end QuantityLayout.Order
