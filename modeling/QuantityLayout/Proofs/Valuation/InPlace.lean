import QuantityLayout.Proofs.Valuation.Frame
import QuantityLayout.Valuation.InPlace
/-!
Changes in place against operations that yield new numbers. On staged numbers every program does what the operation of
its name does; where that fails, the program has refused before its first write, and no index is out of range.
-/
set_option autoImplicit false

namespace QuantityLayout.Valuation

open Registry

variable {α : Type} {v v' : Valuation α} {vs : List (Visit α)} {i k : Nat} {u : Visit α} {p : Path} {x : Binary64}
  {xs ys : List Binary64}

theorem buffers_foldl_setBuffer (n : Nat) (bs : List (List Binary64)) (hlength : v.buffers.length = n + bs.length) :
    ((bs.zipIdx n).foldl (fun v e => v.setBuffer e.2 e.1) v).buffers = v.buffers.take n ++ bs := by
  induction bs generalizing n v with
  | nil =>
    have hn : v.buffers.length ≤ n := by simp [hlength]
    simp [List.take_of_length_le hn]
  | cons b bs ih =>
    have hn : n < v.buffers.length := by simp [hlength]
    have hrest : (v.setBuffer n b).buffers.length = n + 1 + bs.length := by
      simp only [setBuffer, List.length_set, hlength, List.length_cons]
      omega
    rw [List.zipIdx_cons, List.foldl_cons, ih (n + 1) hrest]
    simp [setBuffer, List.take_add_one, List.take_set_of_le, hn]

theorem eq_of_buffers (hr : v'.registry = v.registry) (hb : v'.buffers = v.buffers) : v' = v := by
  obtain ⟨r, l, hl, bs⟩ := v
  obtain ⟨r', l', hl', bs'⟩ := v'
  cases hr
  cases hb
  cases hl.symm.trans hl'
  rfl

theorem foldl_setBuffer_zipIdx {bs : List (List Binary64)} (hlength : v.buffers.length = bs.length) :
    bs.zipIdx.foldl (fun v e => v.setBuffer e.2 e.1) v = { v with buffers := bs } := by
  have hregistry := registry_foldl (v := v) (f := fun v (e : List Binary64 × Nat) => v.setBuffer e.2 e.1)
    (fun _ _ => rfl) bs.zipIdx
  refine eq_of_buffers hregistry ?_
  rw [buffers_foldl_setBuffer 0 bs (by omega)]
  rfl

namespace InPlace

/-- How a program ends that does what an operation with this answer does: it has refused before it wrote anything. -/
def outcome (v : Valuation α) : Except Failure (Valuation α) → EStateM.Result Stop (Valuation α) Unit
  | .ok v' => .ok () v'
  | .error f => .error (.refused f) v

@[simp] theorem outcome_ok : outcome v (.ok v') = .ok () v' := rfl

@[simp] theorem outcome_error {f : Failure} : outcome v (.error f) = .error (.refused f) v := rfl

@[simp] theorem mapError_ok : (Except.ok v' : Except Error (Valuation α)).mapError Failure.error = .ok v' := rfl

@[simp] theorem mapError_error {e : Error} :
    (Except.error e : Except Error (Valuation α)).mapError Failure.error = .error (.error e) := rfl

@[simp] theorem run_refuse {β : Type} {e : Error} :
    (refuse e : Program α β).run v = .error (.refused (.error e)) v := rfl

theorem run_ask_bind {β γ : Type} {look : Valuation α → Except Error β} {next : β → Program α γ} :
    (ask look >>= next).run v =
      match look v with
      | .ok b => (next b).run v
      | .error e => .error (.refused (.error e)) v := by
  cases h : look v <;> simp [ask, h]

theorem run_put (hxs : v.buffers[i]? = some xs) : (put i ys).run v = .ok () (v.setBuffer i ys) := by
  simp [put, bufferAt, hxs]

theorem run_putNumber (hxs : v.buffers[i]? = some xs) (hk : k < xs.length) :
    (putNumber i k x).run v = .ok () (v.mapBuffer i (·.set k x)) := by
  simp [putNumber, bufferAt, hxs, hk, run_put hxs, mapBuffer_eq_setBuffer hxs]

theorem run_copy (hxs : v.buffers[i]? = some xs) (hlength : xs.length = ys.length) :
    (copy i ys).run v = .ok () (v.setBuffer i ys) := by
  simp [copy, bufferAt, hxs, hlength, run_put hxs]

theorem run_fillAt (hxs : v.buffers[i]? = some xs) :
    (fillAt x i).run v = .ok () (v.mapBuffer i (fillBuffer x)) := by
  simp [fillAt, bufferAt, hxs, run_put hxs, mapBuffer_eq_setBuffer hxs]

theorem run_forM {β : Type} {round : β → Program α Unit} {change : Valuation α → β → Valuation α} {bs : List β}
    (hround : ∀ b ∈ bs, ∀ w : Valuation α, w.Staged vs →
      (round b).run w = .ok () (change w b) ∧ (change w b).Staged vs)
    (h : v.Staged vs) : (bs.forM round).run v = .ok () (bs.foldl change v) := by
  induction bs generalizing v with
  | nil => rfl
  | cons b bs ih =>
    obtain ⟨hrun, hstaged⟩ := hround b List.mem_cons_self v h
    have hrest := ih (fun b hb => hround b (List.mem_cons_of_mem _ hb)) hstaged
    simpa [hrun] using hrest

theorem run_forM_buffers {β : Type} {es : List β} {value : β → List Binary64} {round : β × Nat → Program α Unit}
    (h : v.Staged vs) (hlength : es.length = v.buffers.length)
    (hround : ∀ (e : β) (i : Nat) (u : Visit α), es[i]? = some e → vs[i]? = some u →
      (value e).length = u.leaf.shape.nnz ∧
        ∀ w : Valuation α, w.Staged vs → (round (e, i)).run w = .ok () (w.setBuffer i (value e))) :
    (es.zipIdx.forM round).run v = .ok () { v with buffers := es.map value } := by
  have hwritten : es.zipIdx.foldl (fun w e => w.setBuffer e.2 (value e.1)) v = { v with buffers := es.map value } := by
    rw [← foldl_setBuffer_zipIdx (by rw [List.length_map, hlength]), List.zipIdx_map, List.foldl_map]
    rfl
  rw [← hwritten]
  refine run_forM (fun e he w hw => ?_) h
  have he := List.mem_zipIdx_iff_getElem?.mp he
  have hi : e.2 < vs.length := by
    rw [← h.length_buffers, ← hlength]
    exact (List.getElem?_eq_some_iff.mp he).1
  have hu := List.getElem?_eq_getElem hi
  obtain ⟨hfits, hrun⟩ := hround _ _ _ he hu
  exact ⟨hrun w hw, hw.setBuffer hu hfits⟩

theorem run_setCell (h : v.Staged vs) (hu : vs[i]? = some u) (p : Path) (c : Cell) (x : Binary64) :
    (setCell p i (slotOf vs i u) c x).run v
      = outcome v ((v.setCell p i (slotOf vs i u) c x).mapError .error) := by
  obtain ⟨xs, hxs, hlength⟩ := h.exists_buffer hu
  rw [setCell, Valuation.setCell]
  cases hk : (slotOf vs i u).shape.nzIndex c with
  | none => simp
  | some k =>
    have hlt : k < xs.length := hlength ▸ Shape.lt_nnz (Shape.nzIndex_eq_some.mp hk)
    simp [run_putNumber hxs hlt]

theorem run_target_bind (h : v.Staged vs) {next : Target → Program α Unit}
    {change : Target → Except Error (Valuation α)}
    (hleaf : ∀ (i : Nat) (u : Visit α), vs[i]? = some u →
      (next (.leaf i (slotOf vs i u))).run v = outcome v ((change (.leaf i (slotOf vs i u))).mapError .error))
    (hcell : ∀ (i : Nat) (u : Visit α) (c : Cell), vs[i]? = some u →
      (next (.cell i (slotOf vs i u) c)).run v = outcome v ((change (.cell i (slotOf vs i u) c)).mapError .error))
    (hsubtree : (next .subtree).run v = outcome v ((change .subtree).mapError .error)) :
    (ask (·.target p) >>= next).run v = outcome v ((v.target p >>= change).mapError .error) := by
  rw [run_ask_bind]
  cases ht : v.target p with
  | error e => rfl
  | ok t =>
    obtain ⟨i, u, hu, -, rfl⟩ | ⟨i, u, -, c, hu, -, -, -, rfl⟩ | ⟨-, -, -, rfl⟩ := h.target_cases ht
    · exact hleaf i u hu
    · exact hcell i u c hu
    · exact hsubtree

theorem run_set (h : v.Staged vs) (p : Path) (m : Matrix Binary64) :
    (set p m).run v = outcome v ((v.set p m).mapError .error) := by
  refine run_target_bind h (fun i u hu => ?_) (fun i u c hu => ?_) rfl
  · obtain ⟨xs, hxs, -⟩ := h.exists_buffer hu
    dsimp only
    split
    · rfl
    · generalize (matrixCells m).find? _ = found
      cases found with
      | none => simp [run_put hxs]
      | some e => rfl
  · dsimp only
    split
    · rfl
    · exact run_setCell h hu _ c _

theorem run_setNonzeros (h : v.Staged vs) (p : Path) (xs : List Binary64) :
    (setNonzeros p xs).run v = outcome v ((v.setNonzeros p xs).mapError .error) := by
  rw [setNonzeros, run_ask_bind, Valuation.setNonzeros]
  cases hc : v.checkCount p xs.length with
  | error e => rfl
  | ok i =>
    obtain ⟨u, hu, -, hcount⟩ := h.checkCount_eq_ok hc
    obtain ⟨ys, hys, hlength⟩ := h.exists_buffer hu
    exact run_copy hys (hlength.trans hcount.symm)

theorem run_setScalar (h : v.Staged vs) (p : Path) (x : Binary64) :
    (setScalar p x).run v = outcome v ((v.setScalar p x).mapError .error) := by
  refine run_target_bind h (fun i u hu => ?_) (fun i u c hu => run_setCell h hu _ c x) rfl
  dsimp only
  split
  · exact run_setCell h hu _ _ x
  · rfl

theorem run_fill (h : v.Staged vs) (p : Path) (x : Binary64) :
    (fill p x).run v = outcome v ((v.fill p x).mapError .error) := by
  refine run_target_bind h (fun i u hu => ?_) (fun i u c hu => run_setCell h hu _ c x) ?_
  · obtain ⟨xs, hxs, -⟩ := h.exists_buffer hu
    exact run_fillAt hxs
  · refine run_forM (fun e he w hw => ?_) h
    obtain ⟨u, hu, -⟩ := h.mem_leavesUnder he
    obtain ⟨xs, hxs, -⟩ := hw.exists_buffer hu
    exact ⟨run_fillAt hxs, hw.mapBuffer (length_fillBuffer x)⟩

theorem run_copySlice (h : v.Staged vs) (hu : vs[i]? = some u) (hlength : xs.length = (vs.map (·.leaf.shape.nnz)).sum) :
    (copySlice xs i (slotOf vs i u)).run v = .ok () (v.setBuffer i (stretch xs (slotOf vs i u))) := by
  obtain ⟨hfits, hstretch⟩ := length_stretch hu hlength
  obtain ⟨ys, hys, hbuffer⟩ := h.exists_buffer hu
  have hslice : (slice xs (slotOf vs i u).nnzOffset (slotOf vs i u).shape.nnz).run v
      = .ok (stretch xs (slotOf vs i u)) v := by
    simp [slice, slotOf, stretch, hfits]
  have hcopy := run_copy hys (hbuffer.trans hstretch.symm)
  simp [copySlice, hslice, hcopy]

theorem run_loadNonzero (h : v.Staged vs) (xs : List Binary64) :
    (loadNonzero xs).run v = outcome v ((v.loadNonzero xs).mapError .error) := by
  by_cases htotal : xs.length = v.layout.totalNnz
  · have hslots : v.layout.slots.map (stretch xs) = (v.layout.slots.zip v.buffers).map fun e => stretch xs e.1 := by
      have hle : v.layout.slots.length ≤ v.buffers.length := by simp [h.laid.length_slots, h.length_buffers]
      conv_lhs => rw [← List.map_fst_zip hle, List.map_map]
      rfl
    have hok : v.loadNonzero xs = .ok { v with buffers := v.layout.slots.map (stretch xs) } := if_pos htotal
    have hrun : (loadNonzero xs).run v
        = ((v.layout.slots.zip v.buffers).zipIdx.forM fun e => copySlice xs e.2 e.1.1).run v := by
      simp [loadNonzero, htotal]
    rw [hok, hslots, hrun]
    have hsum := htotal.trans h.laid.total
    refine run_forM_buffers h (by simp [h.laid.length_slots, h.length_buffers]) fun e i u he hu => ?_
    obtain ⟨hs, -⟩ := List.getElem?_zip_eq_some.mp he
    rw [h.laid.slot_visit hu, Option.some.injEq] at hs
    rw [← hs]
    exact ⟨(length_stretch hu hsum).2, fun w hw => run_copySlice hw hu hsum⟩
  · simp [loadNonzero, Valuation.loadNonzero, htotal]

theorem run_reset (h : v.Staged vs) : (reset : Program α Unit).run v = .ok () v.reset := by
  refine run_forM_buffers h rfl fun xs i u hxs hu => ?_
  obtain ⟨ys, hys, hlength⟩ := h.exists_buffer hu
  cases hxs.symm.trans hys
  refine ⟨(length_fillBuffer .zero xs).trans hlength, fun w hw => ?_⟩
  obtain ⟨zs, hzs, -⟩ := hw.exists_buffer hu
  exact run_put hzs

theorem run_stage (v : Valuation α) (s : Snapshot) :
    (stage s).run v =
      match v.stage s with
      | .ok writes => .ok writes v
      | .error e => .error (.refused (.error e)) v := by
  induction s with
  | nil => rfl
  | cons e s ih =>
    rw [stage, run_ask_bind, Valuation.stage]
    cases v.checkCount e.path e.values.length with
    | error f => rfl
    | ok i =>
      change (stage s >>= fun rest => pure ((i, e.values) :: rest)).run v = _
      rw [EStateM.run_bind, ih]
      cases v.stage s <;> rfl

theorem run_load (h : v.Staged vs) (text : String) : (load text).run v = outcome v (v.load text) := by
  rw [load, Valuation.load]
  cases Json.decode Snapshot.ofJson text with
  | error f => rfl
  | ok s =>
    have hstage := run_stage v s
    cases hs : v.stage s with
    | error e =>
      simp [hstage, hs, apply, Except.map]
    | ok writes =>
      have hwrites : (writes.forM fun w => put w.1 w.2).run v
          = .ok () (writes.foldl (fun v w => v.setBuffer w.1 w.2) v) := by
        refine run_forM (fun w hw t ht => ?_) h
        obtain ⟨u, hu, hlength⟩ := h.stage_fits hs w hw
        obtain ⟨xs, hxs, -⟩ := ht.exists_buffer hu
        exact ⟨run_put hxs, ht.setBuffer hu hlength⟩
      simpa [hstage, hs, apply, Except.map] using hwrites

theorem run_perform (h : v.Staged vs) (a : Action) : (perform a).run v = outcome v (v.act a) := by
  cases a with
  | write w =>
    cases w with
    | set p m => exact run_set h p m
    | setColumns p m => exact run_set h p m.toRows
    | setNonzeros p xs => exact run_setNonzeros h p xs
    | setScalar p x => exact run_setScalar h p x
    | fill p x => exact run_fill h p x
  | loadNonzero xs => exact run_loadNonzero h xs
  | load text => exact run_load h text
  | reset => exact run_reset h

theorem run_perform_eq_ok (h : v.Staged vs) {a : Action} : (perform a).run v = .ok () v' ↔ v.act a = .ok v' := by
  rw [run_perform h]
  cases v.act a <;> simp

theorem left_perform (h : v.Staged vs) (a : Action) : left ((perform a).run v) = v.after a := by
  rw [run_perform h, Valuation.after]
  cases v.act a <;> rfl

theorem run_eq (h : v.Staged vs) (as : List Action) : run v as = v.run as := by
  induction as generalizing v with
  | nil => rfl
  | cons a as ih =>
    rw [run, List.foldl_cons, left_perform h]
    exact ih (h.after a).1

theorem eq_of_error {stop : Stop} (h : v.Staged vs) {a : Action} (ha : (perform a).run v = .error stop v') :
    v' = v ∧ ∃ f, stop = .refused f ∧ v.act a = .error f := by
  rw [run_perform h] at ha
  cases hact : v.act a with
  | ok w => simp [hact] at ha
  | error f =>
    rw [hact] at ha
    cases ha
    exact ⟨rfl, f, rfl, rfl⟩

/-- Whatever calls have been made in place, the next one ends as the operation does that yields new numbers. If it
fails, every number is what it was before. -/
theorem failed_call_keeps_numbers {r : Registry α} (hr : r.Reachable) {v₀ : Valuation α} (hv : zeros r = .ok v₀)
    (calls : List Action) :
    run v₀ calls = v₀.run calls ∧
    (∀ call, (perform call).run (run v₀ calls) = outcome (run v₀ calls) ((run v₀ calls).act call)) ∧
    ∀ call stop v', (perform call).run (run v₀ calls) = .error stop v' →
      v' = run v₀ calls ∧ ∃ f, stop = .refused f ∧ (run v₀ calls).act call = .error f := by
  obtain ⟨vs, hzeros, -⟩ := staged_zeros hr.sound hv
  have hrun := run_eq hzeros calls
  have h : (run v₀ calls).Staged vs := hrun ▸ (hzeros.run calls).1
  exact ⟨hrun, run_perform h, fun _ _ _ hcall => eq_of_error h hcall⟩

def sampleMatrix : Matrix Binary64 := ⟨2, 2, [⟨4⟩, ⟨5⟩, .zero, ⟨6⟩], rfl⟩

theorem failed_call_keeps_numbers_frozenSample :
    ∃ v₀ stop v', zeros frozenSample = .ok v₀ ∧
      (perform (.write (.set [.name "y", .index 0] sampleMatrix))).run (run v₀ sampleWrites) = .error stop v' ∧
      stop = .refused (.error (.misfit [.name "y", .index 0] (.notZero ⟨0, 1⟩))) ∧
      v'.nonzeros [.name "y", .index 0] = .ok [⟨2⟩, ⟨3⟩] := by
  obtain ⟨v₀, hzeros⟩ : ∃ v₀, zeros frozenSample = .ok v₀ := ⟨_, rfl⟩
  obtain ⟨hrun, hcall, hkept⟩ := failed_call_keeps_numbers reachable_frozenSample hzeros sampleWrites
  have hrefused : (run v₀ sampleWrites).act (.write (.set [.name "y", .index 0] sampleMatrix))
      = .error (.error (.misfit [.name "y", .index 0] (.notZero ⟨0, 1⟩))) := by
    rw [hrun]
    cases hzeros
    rfl
  have hstop := hcall (.write (.set [.name "y", .index 0] sampleMatrix))
  rw [hrefused, outcome_error] at hstop
  obtain ⟨hsame, -⟩ := hkept _ _ _ hstop
  refine ⟨v₀, _, _, hzeros, hstop, rfl, ?_⟩
  rw [hsame, hrun]
  cases hzeros
  rfl

end InPlace
end QuantityLayout.Valuation
