import QuantityLayout.Order.Fits
import QuantityLayout.Proofs.Order.Units

set_option autoImplicit false

namespace QuantityLayout.Order

variable {β : Type} {policy : Policy} {entries : List (String × Column β)} {n : String} {c : Column β}

def Splits (o : Order) (n : String) : Prop := ∃ ns ∈ o.tuples, n ∈ ns

instance (o : Order) (n : String) : Decidable (o.Splits n) := inferInstanceAs (Decidable (∃ ns ∈ o.tuples, n ∈ ns))

theorem Item.whole_mem_units (hc : entries.lookup n = some c) : c.whole ∈ (Item.name n).units entries := by
  simp [Item.units, hc]

theorem Item.slots_sublist_units {ns : List String} (hi : (Item.interleave ns).Resolves policy entries) (hn : n ∈ ns)
    (hc : entries.lookup n = some c) :
    ∃ us, c.slots = .ok us ∧ us.Sublist ((Item.interleave ns).units entries) := by
  obtain ⟨d, us, hd, hus⟩ := hi.1 n hn
  rw [hc] at hd
  cases hd
  exact ⟨us, hus, RoundRobin.sublist_merge (List.mem_map.mpr ⟨n, hn, partsOf_eq hc hus⟩)⟩

theorem Item.units_sublist {i : Item} {is : List Item} (hi : i ∈ is) :
    (i.units entries).Sublist (is.flatMap (Item.units entries)) := by
  rw [List.flatMap_def]
  exact List.sublist_flatten_of_mem (List.mem_map_of_mem hi)

theorem mem_omitted {o : Order} (hc : entries.lookup n = some c) (hn : n ∉ o.names) : (n, c) ∈ o.omitted entries :=
  List.mem_filter.mpr ⟨Entries.mem_of_lookup hc, by simpa using hn⟩

/-- Bare names and omitted entries stay whole; only a tuple takes an entry apart. -/
theorem whole_or_slots {o : Option Order} {us : List β} (h : resolve? policy entries o = .ok us)
    (hc : entries.lookup n = some c) :
    c.whole ∈ us ∨ (∃ o', o = some o' ∧ o'.Splits n) ∧ ∃ cs, c.slots = .ok cs ∧ cs.Sublist us := by
  cases o with
  | none =>
    cases h
    exact .inl (List.mem_map_of_mem (f := fun e => e.2.whole) (Entries.mem_of_lookup hc))
  | some o =>
    obtain ⟨-, hitems, -, rfl⟩ := resolve_eq_ok.mp h
    by_cases hn : n ∈ o.names
    · obtain ⟨i, hi, hni⟩ := List.mem_flatMap.mp hn
      have hunits : (i.units entries).Sublist (o.items.flatMap (Item.units entries)) := Item.units_sublist hi
      cases i with
      | name m =>
        cases List.mem_singleton.mp hni
        exact .inl (List.mem_append_left _ (hunits.subset (Item.whole_mem_units hc)))
      | interleave ns =>
        obtain ⟨cs, hcs, hsub⟩ := Item.slots_sublist_units (hitems _ hi) hni hc
        have hsplits : o.Splits n := ⟨ns, mem_tuples.mpr hi, hni⟩
        exact .inr ⟨⟨o, rfl, hsplits⟩, cs, hcs, (hsub.trans hunits).trans (List.sublist_append_left _ _)⟩
    · exact .inl (List.mem_append_right _ (List.mem_map.mpr ⟨_, mem_omitted hc hn, rfl⟩))

end QuantityLayout.Order
