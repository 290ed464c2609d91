import QuantityLayout.Order.Fits
import QuantityLayout.Proofs.Order.Units

set_option autoImplicit false

namespace QuantityLayout.Order

variable {β : Type} {policy : Policy} {entries : List (String × Column β)} {counts : List (String × Nat)}

/-- The counts name the same entries, and count the slots of each one that can be taken apart. -/
structure Counted (entries : List (String × Column β)) (counts : List (String × Nat)) : Prop where
  names : counts.map Prod.fst = entries.map Prod.fst
  slots : ∀ n c us, entries.lookup n = some c → c.slots = .ok us → countOf counts n = us.length

theorem Counted.length_partsOf (hc : Counted entries counts) {n : String} (hn : Opens entries n) :
    (partsOf entries n).length = countOf counts n := by
  obtain ⟨c, us, hl, hs⟩ := hn
  rw [partsOf_eq hl hs, hc.slots n c us hl hs]

theorem Counted.lengths (hc : Counted entries counts) {ns : List String} (hns : ∀ n ∈ ns, Opens entries n) :
    ns.map (fun n => (partsOf entries n).length) = ns.map (countOf counts) :=
  List.map_congr_left fun n hn => hc.length_partsOf (hns n hn)

theorem Counted.length_omitted (hc : Counted entries counts) (o : Order) :
    (o.omitted entries).length = (counts.filter fun e => e.1 ∉ o.names).length := by
  have hfilter : ∀ {γ : Type} (es : List (String × γ)),
      (es.filter fun e => e.1 ∉ o.names).length = ((es.map Prod.fst).filter fun n => n ∉ o.names).length := by
    intro γ es
    rw [List.filter_map, List.length_map]
    rfl
  rw [omitted, hfilter, hfilter, hc.names]

theorem length_merge (columns : List (List β)) :
    (RoundRobin.merge columns).length = (columns.map List.length).sum := by
  rw [(RoundRobin.merge_perm columns).length_eq, List.length_flatten]

theorem Counted.length_units (hc : Counted entries counts) {i : Item} (hi : i.Resolves policy entries) :
    (i.units entries).length = i.unitCount counts := by
  cases i with
  | name n =>
    obtain ⟨c, hl⟩ := Entries.exists_lookup hi
    simp [Item.units, Item.unitCount, hl]
  | interleave ns =>
    rw [Item.units, length_merge, List.map_map, Item.unitCount, ← hc.lengths hi.1]
    rfl

theorem Counted.length_resolve (hc : Counted entries counts) {o : Order} {us : List β}
    (h : o.resolve policy entries = .ok us) : us.length = o.unitCount counts := by
  obtain ⟨-, hitems, -, rfl⟩ := resolve_eq_ok.mp h
  have hunits : (o.items.flatMap (Item.units entries)).length = (o.items.map (Item.unitCount counts)).sum := by
    rw [List.length_flatMap]
    exact congrArg List.sum (List.map_congr_left fun i hi => hc.length_units (hitems i hi))
  rw [List.length_append, hunits, List.length_map, hc.length_omitted, unitCount]

theorem Counted.resolves_iff (hc : Counted entries counts)
    (hopen : ∀ n ∈ entries.map Prod.fst, Opens entries n) {i : Item} :
    i.Resolves policy entries ↔ (∀ n ∈ i.names, n ∈ counts.map Prod.fst) ∧
      ∀ ns, i = .interleave ns → policy.interleaving.acceptsLengths (ns.map (countOf counts)) := by
  cases i with
  | name n => simp [Item.Resolves, Item.names, hc.names]
  | interleave ns =>
    have hopens : (∀ n ∈ ns, Opens entries n) ↔ ∀ n ∈ ns, n ∈ counts.map Prod.fst := by
      rw [hc.names]
      refine ⟨fun h n hn => ?_, fun h n hn => hopen n (h n hn)⟩
      obtain ⟨c, us, hl, -⟩ := h n hn
      exact Entries.name_mem_of_lookup hl
    unfold Item.Resolves
    refine ⟨?_, ?_⟩
    · intro hx
      obtain ⟨hns, ha⟩ := hx
      refine ⟨hopens.mp hns, fun ms hms => ?_⟩
      cases hms
      rw [← hc.lengths hns]
      exact ha
    · intro hx
      obtain ⟨hns, ha⟩ := hx
      have hns := hopens.mpr hns
      refine ⟨hns, ?_⟩
      rw [hc.lengths hns]
      exact ha ns rfl

/-- Where every entry can be taken apart, fitting is all that an order needs. -/
theorem Counted.exists_resolve_iff (hc : Counted entries counts)
    (hopen : ∀ n ∈ entries.map Prod.fst, Opens entries n) {o : Order} :
    (∃ us, o.resolve policy entries = .ok us) ↔ o.Fits policy counts := by
  refine ⟨?_, ?_⟩
  · intro hx
    obtain ⟨us, h⟩ := hx
    obtain ⟨hnames, hitems, hcomplete, -⟩ := resolve_eq_ok.mp h
    refine ⟨hnames, ?_, ?_, ?_⟩
    · intro n hn
      obtain ⟨i, hi, hni⟩ := List.mem_flatMap.mp hn
      exact ((hc.resolves_iff hopen).mp (hitems i hi)).1 n hni
    · intro ns hns
      exact ((hc.resolves_iff hopen).mp (hitems _ (mem_tuples.mp hns))).2 ns rfl
    · intro hp
      rw [hc.names]
      exact omitted_eq_nil.mp (hcomplete hp)
  · intro h
    refine ⟨_, resolve_eq_ok.mpr ⟨h.distinct, ?_, ?_, rfl⟩⟩
    · intro i hi
      refine (hc.resolves_iff hopen).mpr ⟨?_, ?_⟩
      · exact fun n hn => h.attached n (List.mem_flatMap.mpr ⟨i, hi, hn⟩)
      · intro ns hns
        subst hns
        exact h.accepted ns (mem_tuples.mpr hi)
    · intro hp
      rw [omitted_eq_nil, ← hc.names]
      exact h.complete hp

end QuantityLayout.Order
