import QuantityLayout.Proofs.Order.Renaming
import QuantityLayout.Tree.Visit
import Mathlib.Algebra.Order.Monoid.Unbundled.WithTop
import Mathlib.Algebra.BigOperators.Group.List.Basic
import Mathlib.Algebra.Order.Group.Multiset
/-!
Visits without their sequence. A fault counts as the greatest content, so that following visits one after the other
adds up their contents.
-/
set_option autoImplicit false

namespace QuantityLayout

variable {α : Type}

namespace Visits

def content : Visits α → WithTop (Multiset (Visit α))
  | .ok vs => ((vs : Multiset (Visit α)) : WithTop (Multiset (Visit α)))
  | .error _ => ⊤

theorem content_ne_top_iff {u : Visits α} : u.content ≠ ⊤ ↔ ∃ vs, u = .ok vs := by
  cases u <;> simp [content]

theorem content_eq_coe_iff {u : Visits α} {vs : List (Visit α)} :
    u.content = ((vs : Multiset (Visit α)) : WithTop (Multiset (Visit α))) ↔ ∃ ws, u = .ok ws ∧ ws.Perm vs := by
  cases u <;> simp [content]

theorem content_chain (us : List (Visits α)) : (chain us).content = (us.map content).sum := by
  induction us with
  | nil => rfl
  | cons u us ih =>
    rw [List.map_cons, List.sum_cons, ← ih]
    cases u with
    | error f => exact (WithTop.top_add _).symm
    | ok first =>
      cases hc : chain us with
      | error f => simp [chain, hc, content, Except.map]
      | ok rest =>
        simp only [chain, hc, content, Except.map]
        rw [← WithTop.coe_add, Multiset.coe_add]

theorem chain_append (us ws : List (Visits α)) :
    chain (us ++ ws) = (chain us).bind fun vs => (chain ws).map (vs ++ ·) := by
  induction us with
  | nil =>
    change chain ws = (chain ws).map id
    cases chain ws <;> rfl
  | cons u us ih =>
    cases u with
    | error f => rfl
    | ok first =>
      rw [List.cons_append, chain, ih, chain]
      cases chain us with
      | error f => rfl
      | ok rest =>
        change ((chain ws).map (rest ++ ·)).map (first ++ ·) = (chain ws).map (first ++ rest ++ ·)
        cases chain ws with
        | error f => rfl
        | ok vs => exact congrArg Except.ok (List.append_assoc first rest vs).symm

theorem chain_singleton (u : Visits α) : chain [u] = u := by
  cases u with
  | error f => rfl
  | ok vs => exact congrArg Except.ok (List.append_nil vs)

theorem chain_mapUnits (k : Order.Fault → Order.Fault) (g : Visit α → Visit α) (us : List (Visits α)) :
    chain (us.map (Order.mapUnits k g)) = Order.mapUnits k g (chain us) := by
  induction us with
  | nil => rfl
  | cons u us ih =>
    cases u with
    | error f => rfl
    | ok first =>
      rw [List.map_cons, chain]
      change (chain (us.map (Order.mapUnits k g))).map (first.map g ++ ·) = _
      rw [ih]
      cases chain us with
      | error f => rfl
      | ok rest => exact congrArg Except.ok List.map_append.symm

theorem under_eq_mapUnits (s : Step) (u : Visits α) : u.under s = Order.mapUnits (Order.Fault.under s) (Visit.under s) u := by
  cases u <;> rfl

theorem chain_under (s : Step) (us : List (Visits α)) : chain (us.map (under s)) = (chain us).under s := by
  rw [funext (under_eq_mapUnits s), chain_mapUnits]

theorem chain_slots_column {s : Step} {r : Except Order.Fault (List (Visits α))} {us : List (Visits α)}
    (h : (column s r).slots = .ok us) : chain us = (column s r).whole := by
  cases r with
  | error f => cases h
  | ok slots =>
    cases h
    exact chain_under s slots

theorem sum_ne_top_iff {M ι : Type} [AddCommMonoid M] {xs : List ι} {f : ι → WithTop M} :
    (xs.map f).sum ≠ ⊤ ↔ ∀ x ∈ xs, f x ≠ ⊤ := by
  induction xs with
  | nil => simp
  | cons x xs ih => rw [List.map_cons, List.sum_cons, WithTop.add_ne_top, ih, List.forall_mem_cons]

/-- Parts of known contents that come together make up all these contents. -/
theorem perm_flatMap {ι : Type} {xs : List ι} {u : ι → Visits α} {part : ι → List (Visit α)} {vs : List (Visit α)}
    (hparts : ∀ x ∈ xs, ∀ ws, u x = .ok ws → ws.Perm (part x))
    (hsum : (xs.map fun x => (u x).content).sum = ((vs : Multiset (Visit α)) : WithTop (Multiset (Visit α)))) :
    vs.Perm (xs.flatMap part) := by
  have hdefined : ∀ x ∈ xs, (u x).content ≠ ⊤ := sum_ne_top_iff.mp (hsum ▸ WithTop.coe_ne_top)
  have hfound : ∀ x ∈ xs, (u x).content = ((part x : Multiset (Visit α)) : WithTop (Multiset (Visit α))) := by
    intro x hx
    obtain ⟨ws, hws⟩ := content_ne_top_iff.mp (hdefined x hx)
    exact content_eq_coe_iff.mpr ⟨ws, hws, hparts x hx ws hws⟩
  have htotal : (xs.map fun x => (u x).content).sum
      = ((xs.flatMap part : Multiset (Visit α)) : WithTop (Multiset (Visit α))) := by
    rw [List.map_congr_left hfound]
    clear hsum hparts hdefined hfound
    induction xs with
    | nil => rfl
    | cons x xs ih => rw [List.map_cons, List.sum_cons, ih, ← WithTop.coe_add, Multiset.coe_add, List.flatMap_cons]
  rw [htotal] at hsum
  exact (Multiset.coe_eq_coe.mp (WithTop.coe_injective hsum)).symm

end Visits
end QuantityLayout
