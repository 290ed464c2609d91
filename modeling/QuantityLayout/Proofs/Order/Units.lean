import QuantityLayout.Order.Resolve
import QuantityLayout.Proofs.Entries
import QuantityLayout.Proofs.Order.Merge
import QuantityLayout.Proofs.Outcome

set_option autoImplicit false

namespace QuantityLayout.Order

open Outcome (bind_eq_ok)

variable {β M : Type} {policy : Policy} {entries : List (String × Column β)}

/-- The slots of an entry; an entry with a fault has none. -/
def Column.parts (c : Column β) : List β :=
  match c.slots with
  | .ok us => us
  | .error _ => []

def partsOf (entries : List (String × Column β)) (name : String) : List β :=
  ((entries.lookup name).map Column.parts).getD []

def Opens (entries : List (String × Column β)) (name : String) : Prop :=
  ∃ c us, entries.lookup name = some c ∧ c.slots = .ok us

theorem column_eq_ok {n : String} {c : Column β} : column entries n = .ok c ↔ entries.lookup n = some c := by
  unfold column
  cases entries.lookup n <;> simp

theorem partsOf_eq {n : String} {c : Column β} {us : List β} (hc : entries.lookup n = some c)
    (hs : c.slots = .ok us) : partsOf entries n = us := by
  simp [partsOf, Column.parts, hc, hs]

theorem tuple_eq_ok {ns : List String} {columns : List (List β)} :
    tuple entries ns = .ok columns ↔ (∀ n ∈ ns, Opens entries n) ∧ columns = ns.map (partsOf entries) := by
  induction ns generalizing columns with
  | nil => simp [tuple, eq_comm]
  | cons n ns ih =>
    simp only [tuple, bind_eq_ok, column_eq_ok, ih, List.forall_mem_cons, List.map_cons]
    constructor
    · intro hx
      obtain ⟨c, hc, us, hs, _, ⟨hns, rfl⟩, h⟩ := hx
      cases h
      exact ⟨⟨⟨c, us, hc, hs⟩, hns⟩, by rw [partsOf_eq hc hs]⟩
    · intro hx
      obtain ⟨⟨⟨c, us, hc, hs⟩, hns⟩, rfl⟩ := hx
      exact ⟨c, hc, us, hs, _, ⟨hns, rfl⟩, by rw [partsOf_eq hc hs]⟩

def Item.Resolves (policy : Policy) (entries : List (String × Column β)) : Item → Prop
  | .name n => n ∈ entries.map Prod.fst
  | .interleave ns =>
    (∀ n ∈ ns, Opens entries n) ∧ policy.interleaving.acceptsLengths (ns.map fun n => (partsOf entries n).length)

theorem Item.Resolves.attached {i : Item} (hi : i.Resolves policy entries) {n : String} (hn : n ∈ i.names) :
    n ∈ entries.map Prod.fst := by
  cases i with
  | name m =>
    cases List.mem_singleton.mp hn
    exact hi
  | interleave ns =>
    obtain ⟨c, us, hc, -⟩ := hi.1 n hn
    exact Entries.name_mem_of_lookup hc

def Item.units (entries : List (String × Column β)) : Item → List β
  | .name n => ((entries.lookup n).map Column.whole).toList
  | .interleave ns => RoundRobin.merge (ns.map (partsOf entries))

theorem Item.resolve_eq_ok {i : Item} {us : List β} :
    i.resolve policy entries = .ok us ↔ i.Resolves policy entries ∧ us = i.units entries := by
  cases i with
  | name n =>
    simp only [Item.resolve, bind_eq_ok, column_eq_ok, Item.Resolves, Item.units]
    constructor
    · intro hx
      obtain ⟨c, hc, h⟩ := hx
      cases h
      exact ⟨Entries.name_mem_of_lookup hc, by simp [hc]⟩
    · intro hx
      obtain ⟨hn, rfl⟩ := hx
      obtain ⟨c, hc⟩ := Entries.exists_lookup hn
      exact ⟨c, hc, by simp [hc]⟩
  | interleave ns =>
    simp only [Item.resolve, bind_eq_ok, tuple_eq_ok, Item.Resolves, Item.units]
    constructor
    · intro hx
      obtain ⟨columns, ⟨hns, rfl⟩, h⟩ := hx
      rw [List.map_map] at h
      split at h
      · next ha =>
        cases h
        exact ⟨⟨hns, ha⟩, rfl⟩
      · cases h
    · intro hx
      obtain ⟨⟨hns, ha⟩, rfl⟩ := hx
      refine ⟨_, ⟨hns, rfl⟩, ?_⟩
      rw [List.map_map]
      exact if_pos ha

theorem resolveItems_eq_ok {is : List Item} {us : List β} :
    resolveItems policy entries is = .ok us ↔
      (∀ i ∈ is, i.Resolves policy entries) ∧ us = is.flatMap (Item.units entries) := by
  induction is generalizing us with
  | nil => simp [resolveItems, eq_comm]
  | cons i is ih =>
    simp only [resolveItems, bind_eq_ok, Item.resolve_eq_ok, ih, List.forall_mem_cons, List.flatMap_cons]
    constructor
    · intro hx
      obtain ⟨_, ⟨hi, rfl⟩, _, ⟨his, rfl⟩, h⟩ := hx
      cases h
      exact ⟨⟨hi, his⟩, rfl⟩
    · intro hx
      obtain ⟨⟨hi, his⟩, rfl⟩ := hx
      exact ⟨_, ⟨hi, rfl⟩, _, ⟨his, rfl⟩, rfl⟩

/-- The units of the items come first, then the omitted entries. -/
theorem resolve_eq_ok {o : Order} {us : List β} :
    o.resolve policy entries = .ok us ↔
      o.names.Nodup ∧ (∀ i ∈ o.items, i.Resolves policy entries) ∧
      (policy.omission = .requireComplete → o.omitted entries = []) ∧
      us = o.items.flatMap (Item.units entries) ++ (o.omitted entries).map fun e => e.2.whole := by
  unfold resolve
  cases hr : firstRepeat o.names with
  | some n =>
    have hdup : ¬ o.names.Nodup := fun h => by simp [firstRepeat_eq_none.mpr h] at hr
    simp [hdup]
  | none =>
    simp only [bind_eq_ok, resolveItems_eq_ok, firstRepeat_eq_none.mp hr, true_and]
    constructor
    · intro hx
      obtain ⟨units, ⟨his, rfl⟩, h⟩ := hx
      refine ⟨his, ?_⟩
      split at h
      · cases h
      · next hopen =>
        cases h
        refine ⟨fun hp => ?_, rfl⟩
        cases ho : o.omitted entries with
        | nil => rfl
        | cons e es => exact absurd ho (hopen e es hp)
    · intro hx
      obtain ⟨his, hcomplete, rfl⟩ := hx
      refine ⟨_, ⟨his, rfl⟩, ?_⟩
      split
      · next hp ho =>
        rw [hcomplete hp] at ho
        cases ho
      · rfl

theorem attached_of_resolve {o : Order} {us : List β} (h : o.resolve policy entries = .ok us) :
    ∀ n ∈ o.names, n ∈ entries.map Prod.fst := by
  intro n hn
  obtain ⟨-, hitems, -⟩ := resolve_eq_ok.mp h
  obtain ⟨i, hi, hni⟩ := List.mem_flatMap.mp hn
  exact (hitems i hi).attached hni

theorem omitted_eq_nil {o : Order} : o.omitted entries = [] ↔ ∀ n ∈ entries.map Prod.fst, n ∈ o.names := by
  simp [omitted, List.filter_eq_nil_iff]

theorem map_fst_omitted (o : Order) (entries : List (String × Column β)) :
    (o.omitted entries).map Prod.fst = (entries.map Prod.fst).filter (· ∉ o.names) := by
  rw [omitted, List.filter_map]
  rfl

section Sums

variable [AddCommMonoid M]

def Column.total (f : β → M) (c : Column β) : M := (c.parts.map f).sum

theorem sum_merge (f : β → M) (columns : List (List β)) :
    ((RoundRobin.merge columns).map f).sum = (columns.map fun us => (us.map f).sum).sum := by
  rw [((RoundRobin.merge_perm columns).map f).sum_eq, List.map_flatten, List.sum_flatten, List.map_map]
  rfl

theorem sum_partsOf (f : β → M) (n : String) :
    ((partsOf entries n).map f).sum = Entries.part (Column.total f) entries n := by
  unfold partsOf Entries.part
  cases entries.lookup n <;> simp [Column.total]

theorem Item.sum_name (f : β → M) (n : String) :
    (((Item.name n).units entries).map f).sum = Entries.part (fun c => f c.whole) entries n := by
  simp only [Item.units, Entries.part]
  cases entries.lookup n <;> simp

theorem Item.sum_interleave (f : β → M) (ns : List String) :
    (((Item.interleave ns).units entries).map f).sum = (ns.map (Entries.part (Column.total f) entries)).sum := by
  simp only [Item.units, sum_merge, List.map_map, Function.comp_def, sum_partsOf]

/-- Slots amount to what their entry amounts to as a whole. -/
def Balanced (f : β → M) (entries : List (String × Column β)) : Prop :=
  ∀ e ∈ entries, ∀ us, e.2.slots = .ok us → (us.map f).sum = f e.2.whole

theorem part_total {f : β → M} (hf : Balanced f entries) {n : String} (hn : Opens entries n) :
    Entries.part (Column.total f) entries n = Entries.part (fun c => f c.whole) entries n := by
  obtain ⟨c, us, hc, hs⟩ := hn
  have htotal := hf _ (Entries.mem_of_lookup hc) us hs
  simp [Entries.part, hc, Column.total, Column.parts, hs, htotal]

theorem Item.sum_units {f : β → M} (hf : Balanced f entries) {i : Item} (hi : i.Resolves policy entries) :
    ((i.units entries).map f).sum = (i.names.map (Entries.part (fun c => f c.whole) entries)).sum := by
  cases i with
  | name n => simp [Item.sum_name, Item.names]
  | interleave ns =>
    rw [Item.sum_interleave, Item.names]
    exact congrArg List.sum (List.map_congr_left fun n hn => part_total hf (hi.1 n hn))

theorem sum_items {f : β → M} (hf : Balanced f entries) {is : List Item} (his : ∀ i ∈ is, i.Resolves policy entries) :
    ((is.flatMap (Item.units entries)).map f).sum
      = ((is.flatMap Item.names).map (Entries.part (fun c => f c.whole) entries)).sum := by
  induction is with
  | nil => rfl
  | cons i is ih =>
    obtain ⟨hi, his⟩ := List.forall_mem_cons.mp his
    simp only [List.flatMap_cons, List.map_append, List.sum_append, Item.sum_units hf hi, ih his]

/-- Whatever the order, the units amount to what the entries amount to. -/
theorem sum_resolve? {f : β → M} (hf : Balanced f entries) (hentries : (entries.map Prod.fst).Nodup)
    {o : Option Order} {us : List β} (h : resolve? policy entries o = .ok us) :
    (us.map f).sum = (entries.map fun e => f e.2.whole).sum := by
  cases o with
  | none =>
    cases h
    rw [List.map_map]
    rfl
  | some o =>
    obtain ⟨hnames, hitems, -, rfl⟩ := resolve_eq_ok.mp h
    have hattached := attached_of_resolve h
    rw [List.map_append, List.sum_append, sum_items hf hitems, List.map_map]
    exact Entries.sum_mentioned_omitted (fun c => f c.whole) hentries hnames hattached

end Sums

end QuantityLayout.Order
