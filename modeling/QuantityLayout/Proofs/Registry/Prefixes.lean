import QuantityLayout.Error.Message
import QuantityLayout.Proofs.Registry.Visits

set_option autoImplicit false

namespace QuantityLayout.Registry

variable {α : Type} {r : Registry α} {p q : Path} {e : Error}

def Leads (r : Registry α) (p : Path) : Prop := ∃ x, r.lookup p = .ok x

theorem leads_iff : r.Leads p ↔ ∃ x, r.locate p = .ok x := by
  simp only [Leads, lookup, Outcome.map_eq_ok]
  exact ⟨fun ⟨_, x, hx, _⟩ => ⟨x, hx⟩, fun ⟨x, hx⟩ => ⟨_, x, hx, rfl⟩⟩

theorem not_leads_of_error (h : r.lookup p = .error e) : ¬ r.Leads p := by
  rintro ⟨x, hx⟩
  cases hx.symm.trans h

theorem leads_of_prefix (h : r.Leads p) (hq : q <+: p) : r.Leads q := by
  obtain ⟨rest, rfl⟩ := hq
  obtain ⟨x, hx⟩ := leads_iff.mp h
  obtain ⟨y, hy, -⟩ := Place.walk_append_eq_ok.mp (locate_eq_ok.mp hx)
  exact leads_iff.mpr ⟨y, locate_eq_ok.mpr hy⟩

theorem lookup_eq_error : r.lookup p = .error e ↔ ∃ q s rest x reason, p = q ++ s :: rest ∧ r.locate q = .ok x ∧
    x.step s = .error reason ∧ e = .walk ⟨q ++ [s], reason⟩ := by
  simp only [lookup, Outcome.map_eq_error, locate, Outcome.mapError_eq_error, Place.walk_eq_error, Outcome.mapError_eq_ok]
  constructor
  · rintro ⟨f, ⟨q, s, rest, x, reason, hp, hq, hs, rfl⟩, rfl⟩
    exact ⟨q, s, rest, x, reason, hp, hq, hs, rfl⟩
  · rintro ⟨q, s, rest, x, reason, hp, hq, hs, rfl⟩
    exact ⟨_, ⟨q, s, rest, x, reason, hp, hq, hs, rfl⟩, rfl⟩

/-- The path leads as far as its first `d` steps and no further. The error is about the next step, for the path and for
every part of it that has this step. -/
structure StopsAfter (r : Registry α) (p : Path) (d : Nat) (e : Error) : Prop where
  proper : d < p.length
  leads : ∀ n, n ≤ d → r.Leads (p.take n)
  stops : ∀ n, d < n → r.lookup (p.take n) = .error e
  cause : ∃ x s reason, r.locate (p.take d) = .ok x ∧ p[d]? = some s ∧ x.step s = .error reason ∧
    e = .walk ⟨p.take (d + 1), reason⟩

theorem exists_stopsAfter (h : r.lookup p = .error e) : ∃ d, r.StopsAfter p d e := by
  obtain ⟨q, s, rest, x, reason, rfl, hq, hs, rfl⟩ := lookup_eq_error.mp h
  have htake : (q ++ s :: rest).take q.length = q := List.take_left
  have hnext : (q ++ s :: rest).take (q.length + 1) = q ++ [s] := by simp [List.take_append]
  refine ⟨q.length, by simp, fun n hn => ?_, fun n hn => ?_, x, s, reason, ?_, by simp, hs, ?_⟩
  · refine leads_of_prefix (leads_iff.mpr ⟨x, hq⟩) ?_
    rw [List.take_append_of_le_length hn]
    exact List.take_prefix n q
  · obtain ⟨k, rfl⟩ := Nat.exists_eq_add_of_lt hn
    refine lookup_eq_error.mpr ⟨q, s, rest.take k, x, reason, ?_, hq, hs, rfl⟩
    simp [List.take_append, Nat.add_assoc]
  · rw [htake, hq]
  · rw [hnext]

namespace StopsAfter

variable {d d' : Nat}

theorem kind (h : r.StopsAfter p d e) : e.kind = .pathNotFound := by
  obtain ⟨-, -, -, -, -, -, rfl⟩ := h.cause
  rfl

theorem message (h : r.StopsAfter p d e) :
    ∃ reason, e.message = Wording.notFound (Path.render (p.take (d + 1))) reason := by
  obtain ⟨-, -, reason, -, -, -, rfl⟩ := h.cause
  exact ⟨reason.message, rfl⟩

theorem unique (h : r.StopsAfter p d e) (hleads : r.Leads (p.take d'))
    (hstops : ∀ n, d' < n → n ≤ p.length → ¬ r.Leads (p.take n)) : d' = d := by
  have hle : d' ≤ d := Nat.le_of_not_lt fun hlt => not_leads_of_error (h.stops d' hlt) hleads
  have hge : d ≤ d' := Nat.le_of_not_lt fun hlt => hstops d hlt (Nat.le_of_lt h.proper) (h.leads d (Nat.le_refl d))
  exact Nat.le_antisymm hle hge

end StopsAfter

/-- A path that leads nowhere stops at just one of its proper parts, in any registry, and the error is about the part
that has one step more. -/
theorem lookup_stops_once (r : Registry α) (p : Path) :
    (∀ x, r.lookup p = .ok x → ∀ q, q <+: p → ∃ y, r.lookup q = .ok y) ∧
    ∀ e, r.lookup p = .error e →
      ∃ d, r.StopsAfter p d e ∧ e.kind = .pathNotFound ∧
        (∃ reason, e.message = Wording.notFound (Path.render (p.take (d + 1))) reason) ∧
        ∀ d', (∃ y, r.lookup (p.take d') = .ok y) →
          (∀ n, d' < n → n ≤ p.length → ¬ ∃ y, r.lookup (p.take n) = .ok y) → d' = d := by
  refine ⟨fun x hx q hq => leads_of_prefix ⟨x, hx⟩ hq, fun e he => ?_⟩
  obtain ⟨d, h⟩ := exists_stopsAfter he
  exact ⟨d, h, h.kind, h.message, fun _ => h.unique⟩

theorem lookup_stops_once_sample :
    sample.isFrozen = false ∧
    (∃ x, sample.lookup [.name "y", .index 0] = .ok x) ∧ (∃ y, sample.lookup [.name "y"] = .ok y) ∧
    ∃ e, sample.lookup [.name "y", .index 2, .cell 0 0, .name "a"] = .error e ∧
      sample.StopsAfter [.name "y", .index 2, .cell 0 0, .name "a"] 1 e ∧ e.kind = .pathNotFound ∧
      e.message = "Path 'y[2]' not found: index 2 out of range for a list of 2" := by
  have hok : sample.lookup [.name "y", .index 0] = .ok _ := rfl
  have herror : sample.lookup [.name "y", .index 2, .cell 0 0, .name "a"] = .error _ := rfl
  have hprefix := (lookup_stops_once sample [.name "y", .index 0]).1 _ hok [.name "y"] ⟨[.index 0], rfl⟩
  obtain ⟨d, h, hkind, -, hunique⟩ :=
    (lookup_stops_once sample [.name "y", .index 2, .cell 0 0, .name "a"]).2 _ herror
  have hd : 1 = d := by
    refine hunique 1 ⟨_, rfl⟩ fun n hn hle => ?_
    have hcases : n = 2 ∨ n = 3 ∨ n = 4 := by simp at hle; omega
    rcases hcases with rfl | rfl | rfl <;> exact fun ⟨_, hy⟩ => nomatch hy
  subst hd
  exact ⟨rfl, ⟨_, hok⟩, hprefix, _, herror, h, hkind, by decide⟩

end QuantityLayout.Registry
