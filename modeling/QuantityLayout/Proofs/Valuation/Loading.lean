import QuantityLayout.Proofs.Valuation.InPlace
import QuantityLayout.Proofs.Valuation.Reads
import QuantityLayout.Proofs.Valuation.Snapshot

set_option autoImplicit false

namespace QuantityLayout

def Snapshot.last? (s : Snapshot) (p : Path) : Option Snapshot.Entry := (s.filter fun e => e.path = p).getLast?

theorem Snapshot.last?_cons (e : Snapshot.Entry) (s : Snapshot) (p : Path) :
    Snapshot.last? (e :: s) p = (s.last? p).or (if e.path = p then some e else none) := by
  by_cases hp : e.path = p
  · rw [last?, List.filter_cons_of_pos (by simp [hp]), List.getLast?_cons, if_pos hp, last?]
    cases (List.filter (fun e => decide (e.path = p)) s).getLast? <;> rfl
  · rw [last?, List.filter_cons_of_neg (by simp [hp]), if_neg hp, Option.or_none, last?]

namespace Valuation

open Registry

variable {α : Type} {v v' : Valuation α} {vs : List (Visit α)} {i : Nat} {p : Path} {xs : List Binary64}
  {e : Snapshot.Entry} {s : Snapshot}

def setEntry (v : Valuation α) (e : Snapshot.Entry) : Except Error (Valuation α) := v.setNonzeros e.path e.values

def Accepts (v : Valuation α) (e : Snapshot.Entry) : Prop := ∃ v', v.setEntry e = .ok v'

theorem setEntry_eq_ok : v.setEntry e = .ok v' ↔
    ∃ i, v.checkCount e.path e.values.length = .ok i ∧ v.setBuffer i e.values = v' := by
  rw [setEntry, setNonzeros, Outcome.bind_eq_ok]
  simp

theorem setEntry_eq_error {f : Error} :
    v.setEntry e = .error f ↔ v.checkCount e.path e.values.length = .error f := by
  rw [setEntry, setNonzeros]
  cases v.checkCount e.path e.values.length <;> simp [bind, Except.bind]

theorem stage_setBuffer (v : Valuation α) (i : Nat) (xs : List Binary64) (s : Snapshot) :
    (v.setBuffer i xs).stage s = v.stage s := by
  induction s with
  | nil => rfl
  | cons e s ih =>
    rw [stage, stage, ih]
    rfl

/-- All at once is as good as one by one, also in what is refused. -/
theorem apply_eq_foldlM (v : Valuation α) (s : Snapshot) : v.apply s = s.foldlM setEntry v := by
  induction s generalizing v with
  | nil => rfl
  | cons e s ih =>
    rw [List.foldlM_cons, setEntry, setNonzeros, apply, stage]
    cases v.checkCount e.path e.values.length with
    | error f => rfl
    | ok i =>
      -- the entries that come later are for the same leaves whether or not this one is written
      have hrest := ih (v.setBuffer i e.values)
      rw [apply, stage_setBuffer] at hrest
      cases hs : v.stage s with
      | error f =>
        rw [hs] at hrest
        exact hrest
      | ok writes =>
        rw [hs] at hrest
        exact hrest

/-- Either every entry is accepted, or there is a first one that is not, and its error is the answer. -/
theorem stage_cases (v : Valuation α) (s : Snapshot) :
    ((∀ e ∈ s, v.Accepts e) ∧ ∃ writes, v.stage s = .ok writes) ∨
      ∃ before e after f, s = before ++ e :: after ∧ (∀ b ∈ before, v.Accepts b) ∧ v.setEntry e = .error f ∧
        v.stage s = .error f := by
  induction s with
  | nil => exact .inl ⟨by simp, [], rfl⟩
  | cons e s ih =>
    rw [stage]
    cases hc : v.checkCount e.path e.values.length with
    | error f => exact .inr ⟨[], e, s, f, rfl, by simp, setEntry_eq_error.mpr hc, rfl⟩
    | ok i =>
      have he : v.Accepts e := ⟨_, setEntry_eq_ok.mpr ⟨i, hc, rfl⟩⟩
      obtain ⟨hall, writes, hs⟩ | ⟨before, d, after, f, rfl, hbefore, hd, hs⟩ := ih
      · rw [hs]
        exact .inl ⟨List.forall_mem_cons.mpr ⟨he, hall⟩, _, rfl⟩
      · rw [hs]
        exact .inr ⟨e :: before, d, after, f, rfl, List.forall_mem_cons.mpr ⟨he, hbefore⟩, hd, rfl⟩

namespace Staged

theorem nonzeros_setEntry (h : v.Staged vs) (he : v.setEntry e = .ok v') (p : Path) :
    v'.Staged vs ∧ v'.nonzeros p = if e.path = p then .ok e.values else v.nonzeros p := by
  obtain ⟨i, hi, rfl⟩ := setEntry_eq_ok.mp he
  obtain ⟨u, hu, hpath, hlength⟩ := h.checkCount_eq_ok hi
  have h' := h.setBuffer hu hlength
  refine ⟨h', ?_⟩
  by_cases hp : e.path = p
  · rw [if_pos hp, ← hp, hpath, h'.nonzeros_visit hu, buffer_setBuffer_self (h.lt_buffers hu)]
  · have htarget : (v.setBuffer i e.values).target p = v.target p := rfl
    rw [if_neg hp, nonzeros, nonzeros, htarget]
    cases ht : v.target p with
    | error f => rfl
    | ok t =>
      obtain ⟨j, w, hw, hpw, rfl⟩ | ⟨j, w, s, c, -, -, -, -, rfl⟩ | ⟨-, -, -, rfl⟩ := h.target_cases ht
      · have hij : i ≠ j := by
          intro hij
          subst hij
          cases hu.symm.trans hw
          exact hp (hpath.trans hpw.symm)
        exact congrArg Except.ok (buffer_setBuffer_ne hij)
      · rfl
      · rfl

/-- The leaves that a snapshot names have their last numbers in it, and the other ones have kept theirs. -/
theorem nonzeros_foldlM (h : v.Staged vs) (hs : s.foldlM setEntry v = .ok v') (p : Path) :
    v'.nonzeros p = match s.last? p with
      | some e => .ok e.values
      | none => v.nonzeros p := by
  induction s generalizing v with
  | nil =>
    cases hs
    rfl
  | cons e s ih =>
    rw [List.foldlM_cons] at hs
    obtain ⟨w, hw, hs⟩ := Outcome.bind_eq_ok.mp hs
    obtain ⟨hstaged, hread⟩ := h.nonzeros_setEntry hw p
    rw [ih hstaged hs, Snapshot.last?_cons, hread]
    cases Snapshot.last? s p with
    | some d => rfl
    | none => by_cases hp : e.path = p <;> simp [hp]

theorem run_forM_setNonzeros (h : v.Staged vs) (hs : s.foldlM setEntry v = .ok v') :
    (s.forM fun e => InPlace.setNonzeros e.path e.values).run v = .ok () v' := by
  induction s generalizing v with
  | nil =>
    cases hs
    rfl
  | cons e s ih =>
    rw [List.foldlM_cons] at hs
    obtain ⟨w, hw, hs⟩ := Outcome.bind_eq_ok.mp hs
    have hrun := InPlace.run_setNonzeros h e.path e.values
    rw [setEntry] at hw
    rw [hw] at hrun
    have hrest := ih (h.nonzeros_setEntry hw e.path).1 hs
    simpa [hrun] using hrest

end Staged

/-- A snapshot is loaded as its entries are written one after the other, if each of them is accepted. If not, the first
error is the answer, and nothing is written. -/
theorem load_all_or_nothing {r : Registry α} (hr : r.Reachable) {v : Valuation α} (hv : Reachable r v) {text : String}
    {s : Snapshot} (hs : Json.decode Snapshot.ofJson text = .ok s) :
    ((∀ e ∈ s, ∃ v', v.setNonzeros e.path e.values = .ok v') →
      ∃ v', (InPlace.perform (.load text)).run v = .ok () v' ∧
        s.foldlM (fun w e => w.setNonzeros e.path e.values) v = .ok v' ∧
        (s.forM fun e => InPlace.setNonzeros e.path e.values).run v = .ok () v' ∧
        ∀ p, v'.nonzeros p = match s.last? p with
          | some e => .ok e.values
          | none => v.nonzeros p) ∧
    ((¬∀ e ∈ s, ∃ v', v.setNonzeros e.path e.values = .ok v') →
      ∃ before e after f, s = before ++ e :: after ∧
        (∀ b ∈ before, ∃ v', v.setNonzeros b.path b.values = .ok v') ∧
        v.setNonzeros e.path e.values = .error f ∧
        (InPlace.perform (.load text)).run v = .error (.refused (.error f)) v) := by
  obtain ⟨vs, h, -⟩ := hv.staged hr
  have hrun : (InPlace.perform (.load text)).run v = InPlace.outcome v ((v.apply s).mapError .error) := by
    rw [InPlace.run_perform h, act, load, hs]
  obtain ⟨hall, writes, hstage⟩ | ⟨before, e, after, f, hsplit, hbefore, he, hstage⟩ := stage_cases v s
  · obtain ⟨v', hv'⟩ : ∃ v', v.apply s = .ok v' := ⟨_, by rw [apply, hstage]; rfl⟩
    have hfold := (apply_eq_foldlM v s).symm.trans hv'
    refine ⟨fun _ => ⟨v', ?_, hfold, h.run_forM_setNonzeros hfold, h.nonzeros_foldlM hfold⟩, fun hnot => absurd hall hnot⟩
    rw [hrun, hv']
    rfl
  · have hrefused : v.apply s = .error f := by
      rw [apply, hstage]
      rfl
    refine ⟨fun hall => ?_, fun _ => ⟨before, e, after, f, hsplit, hbefore, he, ?_⟩⟩
    · obtain ⟨v', hv'⟩ := hall e (by simp [hsplit])
      cases hv'.symm.trans he
    · rw [hrun, hrefused]
      rfl

def repeatedEntries : Snapshot :=
  [⟨[.name "y", .index 0], [.oneAndHalf, .tenth]⟩, ⟨[.name "y", .index 0], [.tenth, .oneAndHalf]⟩]

def misplacedEntries : Snapshot := repeatedEntries ++ [⟨[.name "y"], []⟩]

theorem readable_misplacedEntries : ∀ e ∈ misplacedEntries, e.Readable := by
  have hy : Path.Writable [.name "y"] := Path.writable_cons.mpr ⟨by decide, List.forall_mem_nil _⟩
  have hleaf : Path.Writable [.name "y", .index 0] :=
    Path.writable_cons.mpr ⟨by decide, Path.writable_cons.mpr ⟨by decide, List.forall_mem_nil _⟩⟩
  obtain ⟨-, hhalf, htenth⟩ := Binary64.restored_samples
  simp only [misplacedEntries, repeatedEntries, List.cons_append, List.nil_append, List.forall_mem_cons]
  refine ⟨⟨hleaf, ?_⟩, ⟨hleaf, ?_⟩, ⟨hy, List.forall_mem_nil _⟩, List.forall_mem_nil _⟩
  · simp [hhalf, htenth]
  · simp [hhalf, htenth]

theorem load_all_or_nothing_frozenSample :
    ∃ v v' f, Reachable frozenSample v ∧
      (InPlace.perform (.load ((Snapshot.toJson repeatedEntries).render .pretty))).run v = .ok () v' ∧
      v'.nonzeros [.name "y", .index 0] = .ok [.tenth, .oneAndHalf] ∧
      (InPlace.perform (.load ((Snapshot.toJson misplacedEntries).render .pretty))).run v
        = .error (.refused (.error f)) v := by
  obtain ⟨v₀, hzeros⟩ : ∃ v₀, zeros frozenSample = .ok v₀ := ⟨_, rfl⟩
  have hv : Reachable frozenSample (v₀.run sampleWrites) := ⟨v₀, sampleWrites, hzeros, rfl⟩
  have hall : ∀ e ∈ repeatedEntries, ∃ v', (v₀.run sampleWrites).setNonzeros e.path e.values = .ok v' := by
    cases hzeros
    simp only [repeatedEntries, List.forall_mem_cons]
    exact ⟨⟨_, rfl⟩, ⟨_, rfl⟩, List.forall_mem_nil _⟩
  have hnot : ¬∀ e ∈ misplacedEntries, ∃ v', (v₀.run sampleWrites).setNonzeros e.path e.values = .ok v' := by
    intro hall
    obtain ⟨w, hw⟩ := hall ⟨[.name "y"], []⟩ (by simp [misplacedEntries])
    cases hzeros
    cases hw
  have hreadable := readable_misplacedEntries
  have hrepeated := Snapshot.decode_text fun e he => hreadable e (List.mem_append_left _ he)
  have hmisplaced := Snapshot.decode_text hreadable
  obtain ⟨v', hload, -, -, hread⟩ := (load_all_or_nothing reachable_frozenSample hv hrepeated).1 hall
  obtain ⟨-, -, -, f, -, -, -, hstop⟩ := (load_all_or_nothing reachable_frozenSample hv hmisplaced).2 hnot
  exact ⟨_, v', f, hv, hload, hread _, hstop⟩

end Valuation
end QuantityLayout
