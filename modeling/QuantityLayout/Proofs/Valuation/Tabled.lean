import QuantityLayout.Proofs.Registry.Tabled
import QuantityLayout.Proofs.Valuation.InPlace
import QuantityLayout.Proofs.Valuation.Reads
import QuantityLayout.Valuation.Tabled
/-!
Numbers on a registry with tables against numbers on a registry that is searched. As many buffers as slots are there, and
each is as long as its slot says, so every position that is taken without a test is in range.
-/
set_option autoImplicit false

namespace QuantityLayout

namespace Valuation

open Registry Access

variable {α : Type} {v : Valuation α} {vs : List (Visit α)} {x : Layout.Indexed} {i : Nat} {u : Visit α} {p : Path}

structure Kept (v : Valuation α) (vs : List (Visit α)) (x : Layout.Indexed) : Prop where
  staged : v.Staged vs
  layout : x.layout = v.layout
  tables : x.Of x.layout.leaves

namespace Kept

theorem registry (h : v.Kept vs x) : v.registry.Kept vs x := ⟨h.layout ▸ h.staged.laid, h.tables⟩

theorem slots_eq (h : v.Kept vs x) : x.slots = v.layout.slots := congrArg Layout.slots h.layout

theorem totalNnz_eq (h : v.Kept vs x) : x.totalNnz = v.layout.totalNnz := congrArg Layout.totalNnz h.layout

theorem position_visit (h : v.Kept vs x) (hu : vs[i]? = some u) : Tabled.position x u.path = .ok i := by
  rw [Tabled.position, h.registry.positions_visit hu]

theorem target_eq (h : v.Kept vs x) (p : Path) : Tabled.target x p v = ofAnswer (v.target p) := by
  rw [Tabled.target, Registry.Tabled.locate_eq, target]
  refine ofAnswer_bind fun y hy => ?_
  cases y with
  | leaf f =>
    obtain ⟨i, hu⟩ := h.staged.laid.exists_visit hy
    have hposition := h.position_visit hu
    have hslot := h.staged.leafSlot_visit hu
    dsimp only at hposition hslot ⊢
    rw [hposition, hslot]
    simp only [bind, Except.bind, read_of_getElem? (h.registry.slots_visit hu), ofAnswer_ok]
  | cell f c =>
    obtain ⟨i, u, s, hu, rfl, rfl, -⟩ := h.staged.laid.locate_eq_cell hy
    have howner := h.registry.owner_eq hy
    dsimp only
    rw [howner, List.dropLast_concat]
    simp only [bind, Except.bind, h.position_visit hu, h.staged.leafSlot_visit hu,
      read_of_getElem? (h.registry.slots_visit hu), ofAnswer_ok]
  | _ => rfl

/-- A question that goes on from the target of a path is looked at for each target by itself. -/
theorem target_bind {β : Type} (h : v.Kept vs x) {next : Target → Access β} {follow : Target → Except Error β}
    (hleaf : ∀ (i : Nat) (u : Visit α), vs[i]? = some u →
      next (.leaf i (slotOf vs i u)) = ofAnswer (follow (.leaf i (slotOf vs i u))))
    (hcell : ∀ (i : Nat) (u : Visit α) (c : Cell), vs[i]? = some u →
      next (.cell i (slotOf vs i u) c) = ofAnswer (follow (.cell i (slotOf vs i u) c)))
    (hsubtree : next .subtree = ofAnswer (follow .subtree)) :
    (Tabled.target x p v >>= next) = ofAnswer (v.target p >>= follow) := by
  rw [h.target_eq]
  refine ofAnswer_bind fun t ht => ?_
  obtain ⟨i, u, hu, -, rfl⟩ | ⟨i, u, -, c, hu, -, -, -, rfl⟩ | ⟨-, -, -, rfl⟩ := h.staged.target_cases ht
  · exact hleaf i u hu
  · exact hcell i u c hu
  · exact hsubtree

theorem checkCount_eq (h : v.Kept vs x) (p : Path) (count : Nat) :
    Tabled.checkCount x p count v = ofAnswer (v.checkCount p count) := by
  refine h.target_bind (fun i u _ => ?_) (fun _ _ _ _ => rfl) rfl
  dsimp only
  split <;> rfl

end Kept

namespace Tabled

open Valuation.InPlace

theorem run_look_bind {β γ : Type} {access : Valuation α → Access β} {next : β → Program α γ} :
    (look access >>= next).run v =
      match access v with
      | .ok b => (next b).run v
      | .error stop => .error stop v := by
  have hlook : (look access).run v = (match access v with
      | .ok b => pure b
      | .error stop => throw stop : Program α β).run v := rfl
  rw [EStateM.run_bind, hlook]
  cases access v <;> rfl

theorem run_look_ofAnswer {β γ : Type} {access : Valuation α → Access β} {search : Valuation α → Except Error β}
    (h : access v = ofAnswer (search v)) {next next' : β → Program α γ}
    (hnext : ∀ b, search v = .ok b → (next b).run v = (next' b).run v) :
    (look access >>= next).run v = (ask search >>= next').run v := by
  rw [run_look_bind, run_ask_bind, h]
  cases hb : search v with
  | ok b => exact hnext b hb
  | error e => rfl

theorem run_look_within {γ : Type} {rows cols : Nat} {cells : List Cell} (h : ∀ c ∈ cells, c.row < rows ∧ c.col < cols)
    {next : Program α γ} : ((look fun _ => within rows cols cells) >>= fun _ => next).run v = next.run v := by
  have hwithin : within rows cols cells = .ok () := if_pos h
  rw [run_look_bind, hwithin]

end Tabled

namespace Kept

open Valuation.Tabled Valuation.InPlace

theorem run_set (h : v.Kept vs x) (p : Path) (m : Matrix Binary64) :
    (Tabled.set x p m).run v = (InPlace.set p m).run v := by
  refine run_look_ofAnswer (h.target_eq p) fun t ht => ?_
  cases t with
  | leaf i s =>
    dsimp only
    split
    · rfl
    · next hextent =>
      obtain ⟨hrows, hcols⟩ := Decidable.not_not.mp hextent
      have hinside : ∀ c ∈ s.shape.cells, c.row < m.rows ∧ c.col < m.cols := by
        rw [hrows, hcols]
        exact s.shape.inside
      generalize (matrixCells m).find? _ = found
      cases found with
      | none => exact run_look_within hinside
      | some e => rfl
  | cell i s c =>
    dsimp only
    split
    · rfl
    · next hsingle =>
      obtain ⟨hrows, hcols⟩ := Decidable.not_not.mp hsingle
      exact run_look_within (by simp [hrows, hcols])
  | subtree => rfl

theorem run_setNonzeros (h : v.Kept vs x) (p : Path) (xs : List Binary64) :
    (Tabled.setNonzeros x p xs).run v = (InPlace.setNonzeros p xs).run v :=
  run_look_ofAnswer (h.checkCount_eq p xs.length) fun _ _ => rfl

theorem run_setScalar (h : v.Kept vs x) (p : Path) (y : Binary64) :
    (Tabled.setScalar x p y).run v = (InPlace.setScalar p y).run v :=
  run_look_ofAnswer (h.target_eq p) fun t _ => by cases t <;> rfl

theorem run_fill (h : v.Kept vs x) (p : Path) (y : Binary64) :
    (Tabled.fill x p y).run v = (InPlace.fill p y).run v := by
  refine run_look_ofAnswer (h.target_eq p) fun t _ => ?_
  cases t with
  | subtree =>
    dsimp only
    rw [h.layout]
    rfl
  | _ => rfl

theorem run_loadNonzero (h : v.Kept vs x) (xs : List Binary64) :
    (Tabled.loadNonzero x xs).run v = (InPlace.loadNonzero xs).run v := by
  simp [Tabled.loadNonzero, InPlace.loadNonzero, h.slots_eq, h.totalNnz_eq]

theorem run_stage (h : v.Kept vs x) (s : Snapshot) : (Tabled.stage x s).run v = (InPlace.stage s).run v := by
  induction s with
  | nil => rfl
  | cons e s ih =>
    refine run_look_ofAnswer (h.checkCount_eq e.path e.values.length) fun i _ => ?_
    rw [EStateM.run_bind, EStateM.run_bind, ih]

theorem run_load (h : v.Kept vs x) (text : String) : (Tabled.load x text).run v = (InPlace.load text).run v := by
  rw [Tabled.load, InPlace.load]
  cases Json.decode Snapshot.ofJson text with
  | error f => rfl
  | ok s =>
    dsimp only
    rw [EStateM.run_bind, EStateM.run_bind, h.run_stage]

theorem run_perform (h : v.Kept vs x) (a : Action) : (Tabled.perform x a).run v = (InPlace.perform a).run v := by
  cases a with
  | write w =>
    cases w with
    | set p m => exact h.run_set p m
    | setColumns p m => exact h.run_set p m.toRows
    | setNonzeros p xs => exact h.run_setNonzeros p xs
    | setScalar p y => exact h.run_setScalar p y
    | fill p y => exact h.run_fill p y
  | loadNonzero xs => exact h.run_loadNonzero xs
  | load text => exact h.run_load text
  | reset => rfl

end Kept

/-- Why a question about numbers or a change of them is refused: the path leads nowhere, or to a place where it makes no
sense, or the numbers do not fit the place. -/
inductive Refused : Error → Prop where
  | nowhere (f : Walk.Fault) : Refused (.walk f)
  | misfit (p : Path) (m : Misfit) : Refused (.misfit p m)

namespace Staged

variable {e : Error}

end Staged

namespace Kept

end Kept
end Valuation

namespace Registry

open Access

variable {α : Type} {r : Registry α}

end Registry
end QuantityLayout
