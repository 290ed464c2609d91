import QuantityLayout.Proofs.Valuation.Tabled

set_option autoImplicit false

namespace QuantityLayout.Valuation

variable {α : Type} {v : Valuation α} {vs : List (Visit α)} {x : Layout.Indexed}

namespace Kept

/-- A call leaves the numbers of its operation if it succeeds, and those it found if it fails. -/
theorem left_perform (h : v.Kept vs x) (a : Action) :
    (InPlace.left ((Tabled.perform x a).run v)).Kept vs x ∧
      (InPlace.left ((Tabled.perform x a).run v)).registry = v.registry := by
  rw [h.run_perform, InPlace.left_perform h.staged]
  obtain ⟨hstaged, hregistry⟩ := h.staged.after a
  -- the layout is that of the registry, and no call changes the registry
  have hlayout := hstaged.laid.layout
  rw [hregistry, h.staged.laid.layout] at hlayout
  exact ⟨⟨hstaged, h.layout.trans (Except.ok.inj hlayout), h.tables⟩, hregistry⟩

theorem run (h : v.Kept vs x) (calls : List Action) :
    (Tabled.run x v calls).Kept vs x ∧ (Tabled.run x v calls).registry = v.registry := by
  induction calls generalizing v with
  | nil => exact ⟨h, rfl⟩
  | cons a calls ih =>
    obtain ⟨hleft, hregistry⟩ := h.left_perform a
    obtain ⟨hrun, hsame⟩ := ih hleft
    exact ⟨hrun, hsame.trans hregistry⟩

end Kept

end QuantityLayout.Valuation

namespace QuantityLayout.Registry

variable {α : Type} {r : Registry α}

end QuantityLayout.Registry
