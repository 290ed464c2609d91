import QuantityLayout.Proofs.Order.Fits

set_option autoImplicit false

namespace QuantityLayout.Order

open Outcome (bind_eq_error)

variable {β : Type} {policy : Policy} {entries : List (String × Column β)} {counts : List (String × Nat)}
variable {o : Order} {f : Fault}

/-- The order has the defect, as far as the names and the numbers of slots of the entries tell. -/
def Defect.Real (policy : Policy) (counts : List (String × Nat)) (o : Order) : Defect → Prop
  | .repeated n => 2 ≤ o.names.count n
  | .unattached n => n ∈ o.names ∧ n ∉ counts.map Prod.fst
  | .uneven ns cs => ns ∈ o.tuples ∧ (∀ n ∈ ns, n ∈ counts.map Prod.fst) ∧ cs = ns.map (countOf counts) ∧
      policy.interleaving.acceptsLengths cs = false
  | .omitted ns => policy.omission = .requireComplete ∧ ns ≠ [] ∧ ns = (counts.map Prod.fst).filter (· ∉ o.names)

theorem Defect.Real.not_fits {d : Defect} (h : d.Real policy counts o) : ¬ o.Fits policy counts := by
  intro hfits
  cases d with
  | repeated n => exact Nat.not_succ_le_self 1 (Nat.le_trans h (List.nodup_iff_count.mp hfits.distinct n))
  | unattached n => exact h.2 (hfits.attached n h.1)
  | uneven ns cs =>
    obtain ⟨hns, -, rfl, hrefused⟩ := h
    rw [hfits.accepted ns hns] at hrefused
    cases hrefused
  | omitted ns =>
    obtain ⟨hrequired, hne, rfl⟩ := h
    obtain ⟨n, hn⟩ := List.exists_mem_of_ne_nil _ hne
    obtain ⟨hmem, ho⟩ := List.mem_filter.mp hn
    exact of_decide_eq_true ho (hfits.complete hrequired n hmem)

/-- Where a fault comes from: the order itself, or an entry that a tuple of it takes apart. -/
inductive Cause (policy : Policy) (counts : List (String × Nat)) (entries : List (String × Column β)) (o : Order) :
    Fault → Prop
  | own {d : Defect} (h : d.Real policy counts o) : Cause policy counts entries o ⟨[], d⟩
  | entry {n : String} {c : Column β} {f : Fault} (hc : entries.lookup n = some c) (hs : c.slots = .error f) :
      Cause policy counts entries o f

namespace Counted

theorem cause_of_column (hc : Counted entries counts) {n : String} (hn : n ∈ o.names) (h : column entries n = .error f) :
    Cause policy counts entries o f := by
  unfold column at h
  split at h
  · cases h
  · next hnone =>
    cases h
    exact .own ⟨hn, hc.names ▸ Entries.lookup_eq_none_iff.mp hnone⟩

/-- The names are taken apart from left to right, up to the first one that has no entry or has an entry with a fault. -/
theorem cause_of_tuple (hc : Counted entries counts) {ns : List String} (hns : ∀ n ∈ ns, n ∈ o.names)
    (h : tuple entries ns = .error f) : Cause policy counts entries o f := by
  induction ns with
  | nil => cases h
  | cons n ns ih =>
    obtain ⟨hn, hns⟩ := List.forall_mem_cons.mp hns
    rcases bind_eq_error.mp h with h | ⟨c, hcolumn, h⟩
    · exact hc.cause_of_column hn h
    · rcases bind_eq_error.mp h with h | ⟨slots, -, h⟩
      · exact .entry (column_eq_ok.mp hcolumn) h
      · rcases bind_eq_error.mp h with h | ⟨rest, -, h⟩
        · exact ih hns h
        · cases h

theorem cause_of_item (hc : Counted entries counts) {i : Item} (hi : i ∈ o.items) (h : i.resolve policy entries = .error f) :
    Cause policy counts entries o f := by
  have hnames : ∀ n ∈ i.names, n ∈ o.names := fun n hn => List.mem_flatMap.mpr ⟨i, hi, hn⟩
  cases i with
  | name n =>
    rcases bind_eq_error.mp h with h | ⟨c, -, h⟩
    · exact hc.cause_of_column (hnames n (List.mem_singleton_self n)) h
    · cases h
  | interleave ns =>
    rcases bind_eq_error.mp h with h | ⟨columns, hcolumns, h⟩
    · exact hc.cause_of_tuple hnames h
    · obtain ⟨hopens, rfl⟩ := tuple_eq_ok.mp hcolumns
      have hlengths : (ns.map (partsOf entries)).map List.length = ns.map (countOf counts) := by
        rw [List.map_map]
        exact hc.lengths hopens
      simp only [hlengths] at h
      split at h
      · cases h
      · next hrefused =>
        cases h
        refine .own ⟨mem_tuples.mpr hi, fun n hn => ?_, rfl, Bool.eq_false_iff.mpr hrefused⟩
        obtain ⟨c, us, hlookup, -⟩ := hopens n hn
        exact hc.names ▸ Entries.name_mem_of_lookup hlookup

theorem cause_of_items (hc : Counted entries counts) {is : List Item} (his : ∀ i ∈ is, i ∈ o.items)
    (h : resolveItems policy entries is = .error f) : Cause policy counts entries o f := by
  induction is with
  | nil => cases h
  | cons i is ih =>
    obtain ⟨hi, his⟩ := List.forall_mem_cons.mp his
    rcases bind_eq_error.mp h with h | ⟨us, -, h⟩
    · exact hc.cause_of_item hi h
    · rcases bind_eq_error.mp h with h | ⟨rest, -, h⟩
      · exact ih his h
      · cases h

/-- A name said twice, an item that cannot be followed, entries left out where none may be: nothing else is reported. -/
theorem cause_of_resolve (hc : Counted entries counts) (h : o.resolve policy entries = .error f) :
    Cause policy counts entries o f := by
  unfold resolve at h
  split at h
  · next n hrepeat =>
    cases h
    exact .own (two_le_count_of_firstRepeat hrepeat)
  · rcases bind_eq_error.mp h with h | ⟨us, -, h⟩
    · exact hc.cause_of_items (fun i hi => hi) h
    · split at h
      · next e es hrequired homitted =>
        cases h
        refine .own ⟨hrequired, List.cons_ne_nil _ _, ?_⟩
        rw [← homitted, map_fst_omitted, hc.names]
      · cases h

end Counted

def Column.Shows (c : Column β) (u : β) : Prop := u = c.whole ∨ ∃ us, c.slots = .ok us ∧ u ∈ us

theorem Item.exists_mem_shows {i : Item} {u : β} (hi : i.Resolves policy entries) (hu : u ∈ i.units entries) :
    ∃ e ∈ entries, e.2.Shows u := by
  cases i with
  | name n =>
    have hwhole : ∃ c, entries.lookup n = some c ∧ c.whole = u := by simpa [units] using hu
    obtain ⟨c, hc, rfl⟩ := hwhole
    exact ⟨_, Entries.mem_of_lookup hc, .inl rfl⟩
  | interleave ns =>
    obtain ⟨column, hcolumn, hu⟩ := List.mem_flatten.mp ((RoundRobin.merge_perm _).mem_iff.mp hu)
    obtain ⟨n, hn, rfl⟩ := List.mem_map.mp hcolumn
    obtain ⟨c, us, hc, hs⟩ := hi.1 n hn
    exact ⟨_, Entries.mem_of_lookup hc, .inr ⟨us, hs, partsOf_eq hc hs ▸ hu⟩⟩

theorem exists_mem_shows {o : Option Order} {us : List β} {u : β} (h : resolve? policy entries o = .ok us) (hu : u ∈ us) :
    ∃ e ∈ entries, e.2.Shows u := by
  cases o with
  | none =>
    cases h
    obtain ⟨e, he, rfl⟩ := List.mem_map.mp hu
    exact ⟨e, he, .inl rfl⟩
  | some o =>
    obtain ⟨-, hitems, -, rfl⟩ := resolve_eq_ok.mp h
    rcases List.mem_append.mp hu with hu | hu
    · obtain ⟨i, hi, hu⟩ := List.mem_flatMap.mp hu
      exact Item.exists_mem_shows (hitems i hi) hu
    · obtain ⟨e, he, rfl⟩ := List.mem_map.mp hu
      exact ⟨e, List.mem_of_mem_filter he, .inl rfl⟩

theorem exists_shows_of_resolve? (hnames : (entries.map Prod.fst).Nodup) {o : Option Order} {us : List β} {u : β}
    (h : resolve? policy entries o = .ok us) (hu : u ∈ us) : ∃ n c, entries.lookup n = some c ∧ c.Shows u := by
  obtain ⟨e, he, hshows⟩ := exists_mem_shows h hu
  exact ⟨e.1, e.2, Entries.lookup_of_mem hnames he, hshows⟩

end QuantityLayout.Order
