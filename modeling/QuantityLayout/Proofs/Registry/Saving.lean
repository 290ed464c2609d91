import QuantityLayout.Proofs.Layout.Indexed
import QuantityLayout.Proofs.Layout.Json
import QuantityLayout.Proofs.Registry.Offsets
import QuantityLayout.Proofs.Tree.Writable

set_option autoImplicit false

namespace QuantityLayout

open Json

namespace Layout.Indexed

variable {x : Indexed}

theorem map_layout_check (read : Layout) : (check read).map layout = Layout.check read := by
  unfold check Layout.check
  rw [← map_layout_ofLeaves]
  cases ofLeaves read.leaves with
  | error c => rfl
  | ok x =>
    by_cases heq : x.layout = read
    · simp [Except.map, heq]
    · simp [Except.map, heq]

/-- Loading with tables accepts what loading without them accepts, and refuses the rest with the same complaint. -/
theorem map_layout_load (text : String) : (load text).map layout = Layout.load text := by
  refine map_decode (fun v => Decoder.map_record (fun fields => ?_) v) text
  obtain ⟨totalNumel, totalNnz, slots⟩ := fields
  cases totalNumel <;> cases totalNnz <;> cases slots
  case some.some.some => exact map_layout_check _
  all_goals rfl

theorem check_eq_ok {read : Layout} : check read = .ok x ↔ x.layout = read ∧ ofLeaves read.leaves = .ok x := by
  unfold check
  cases ofLeaves read.leaves with
  | error c => simp
  | ok y =>
    dsimp only
    by_cases heq : y.layout = read
    · rw [if_pos heq, Except.ok.injEq, Except.ok.injEq]
      exact ⟨fun hy => ⟨hy ▸ heq, hy⟩, fun hy => hy.2⟩
    · rw [if_neg heq]
      refine iff_of_false (fun hy => nomatch hy) fun hy => ?_
      obtain ⟨hx, hy⟩ := hy
      cases hy
      exact heq hx

theorem ofJson_eq (v : Value) : ofJson v = ofJsonUnchecked v >>= check := by
  have hfinish : ofFields = fun fields => fields.unchecked >>= check := by
    funext ⟨totalNumel, totalNnz, slots⟩
    cases totalNumel <;> cases totalNnz <;> cases slots <;> rfl
  rw [ofJson, hfinish, Decoder.record_bind, ofJsonUnchecked]

/-- What is loaded stands in the text, and is the layout of its leaves. -/
theorem load_eq_ok {text : String} :
    load text = .ok x ↔ loadUnchecked text = .ok x.layout ∧ ofLeaves x.layout.leaves = .ok x := by
  simp only [load, loadUnchecked, decode_eq_ok, ofJson_eq, Outcome.bind_eq_ok, check_eq_ok]
  constructor
  · rintro ⟨v, hv, read, hread, rfl, hleaves⟩
    exact ⟨⟨v, hv, hread⟩, hleaves⟩
  · rintro ⟨⟨v, hv, hread⟩, hleaves⟩
    exact ⟨v, hv, _, hread, rfl, hleaves⟩

theorem computed_of_load {text : String} (h : load text = .ok x) : ofLeaves x.layout.leaves = .ok x :=
  (load_eq_ok.mp h).2

/-- The layouts that there can be: those of frozen registries and those that have been loaded. The table of present cells
is a stored list, so its length is a count. -/
inductive Held : Indexed → Prop where
  | frozen {α : Type} {r : Registry α} {x : Indexed} (hr : r.Reachable) (hl : r.layout = .ok x.layout)
    (hx : ofLeaves x.layout.leaves = .ok x) (hstored : x.nonzeros.length < countBound) : Held x
  | loaded {text : String} {x : Indexed} (h : load text = .ok x) : Held x

theorem Held.computed (hx : x.Held) : ofLeaves x.layout.leaves = .ok x := by
  cases hx with
  | frozen _ _ hx _ => exact hx
  | loaded h => exact computed_of_load h

theorem Held.storable (hx : x.Held) : x.layout.Storable := by
  cases hx with
  | @frozen α r _ hr hl hx hstored =>
    obtain ⟨vs, h⟩ := hr.sound.laid_of_layout hl
    refine ⟨?_, fun s hs => ?_, (of_ofLeaves hx).length_nonzeros ▸ hstored⟩
    · rw [← map_layout_ofLeaves, hx]
      rfl
    · obtain ⟨i, v, hv, rfl⟩ := h.mem_slots hs
      exact Node.writable_walk hr.sound.root (Registry.locate_eq_ok.mp (h.located v (List.mem_of_getElem? hv)))
  | @loaded text _ h =>
    have hplain : Layout.load text = .ok x.layout := by
      rw [← map_layout_load, h]
      rfl
    exact storable_of_load hplain

/-- A layout that is saved and loaded again is the one it was, with the same tables; and these have what a search
through the slots finds. -/
theorem held_round_trip {x : Indexed} (hx : x.Held) :
    load x.save = .ok x ∧ Layout.load x.layout.save = .ok x.layout ∧
      (∀ p : Path, x.positions[p]? = x.layout.indexOf p) ∧ ∀ k : Nat, x.nonzeros[k]? = x.layout.nonzeroAt k := by
  have hcomputed := hx.computed
  have hplain := hx.storable.load_text
  have hload : load x.save = .ok x := by
    -- without the tables the layout comes back; with them it is the only one of its leaves
    have hmap := map_layout_load x.save
    rw [save, hplain] at hmap
    obtain ⟨y, hy, hlayout⟩ := Outcome.map_eq_ok.mp hmap
    have hback := computed_of_load hy
    rw [hlayout, hcomputed] at hback
    cases hback
    exact hy
  exact ⟨hload, hplain, (of_ofLeaves hcomputed).lookup hx.storable.paths.1⟩

theorem held_round_trip_frozenSample :
    ∃ x : Indexed, x.Held ∧ Registry.frozenSample.layout = .ok x.layout ∧ load x.save = .ok x ∧
      x.nonzeros[4]? = some (3, 0) := by
  obtain ⟨l, hl, hcomputed, hcount, hat⟩ : ∃ l, Registry.frozenSample.layout = .ok l ∧
      Layout.ofLeaves l.leaves = .ok l ∧ l.totalNnz < countBound ∧ l.nonzeroAt 4 = some (3, 0) :=
    ⟨_, rfl, rfl, by decide, by decide⟩
  obtain ⟨x, hx, rfl⟩ := Outcome.map_eq_ok.mp ((map_layout_ofLeaves l.leaves).trans hcomputed)
  have hheld : x.Held := .frozen Registry.reachable_frozenSample hl hx ((of_ofLeaves hx).length_nonzeros ▸ hcount)
  obtain ⟨hload, -, -, hnonzeros⟩ := held_round_trip hheld
  exact ⟨x, hheld, hl, hload, (hnonzeros 4).trans hat⟩

end Layout.Indexed

namespace Layout

variable {l : Layout}

theorem Storable.eq_of_prefix (h : l.Storable) {s t : Slot} (hs : s ∈ l.slots) (ht : t ∈ l.slots)
    (hpre : s.path <+: t.path) (hne : s.path ≠ []) : s = t := by
  obtain ⟨hnodup, hapart⟩ := h.paths
  have hle : t.path.length ≤ s.path.length :=
    Nat.le_of_not_lt fun hlt => hapart t ht s hs (encloses_iff.mpr ⟨hne, hlt, hpre⟩)
  exact List.inj_on_of_nodup_map hnodup hs ht (hpre.eq_of_length_le hle)

theorem length_leavesUnder_nil (l : Layout) : (l.leavesUnder []).length = l.slots.length := by
  simp [leavesUnder]

/-- In a layout that is loaded no path is there twice, and none runs on to another one but for the empty path, which is
not looked for. -/
theorem paths_apart_of_load {text : String} {l : Layout} (h : load text = .ok l) :
    (l.slots.map (·.path)).Nodup ∧
      (∀ s ∈ l.slots, ∀ t ∈ l.slots, s.path <+: t.path → s = t ∨ s.path = []) ∧
      ∀ (i : Nat) (s : Slot), l.slots[i]? = some s →
        (l.leavesUnder s.path = [(i, s)] ↔ s.path ≠ [] ∨ l.slots.length = 1) := by
  have hl := storable_of_load h
  have hnodup := hl.paths.1
  refine ⟨hnodup, fun s hs t ht hpre => ?_, fun i s hi => ⟨fun hunder => ?_, fun hcase => ?_⟩⟩
  · by_cases hne : s.path = []
    · exact .inr hne
    · exact .inl (hl.eq_of_prefix hs ht hpre hne)
  · by_cases hne : s.path = []
    · have hlength := l.length_leavesUnder_nil
      rw [hne] at hunder
      rw [hunder] at hlength
      exact .inr hlength.symm
    · exact .inl hne
  · -- below the path of the leaf there is nothing else, or there is nothing else at all
    refine leavesUnder_leaf hi fun j t hj hpre => ?_
    have hjlt := (List.getElem?_eq_some_iff.mp hj).1
    have hilt := (List.getElem?_eq_some_iff.mp hi).1
    rcases hcase with hne | hone
    · have heq := hl.eq_of_prefix (List.mem_of_getElem? hi) (List.mem_of_getElem? hj) hpre hne
      have hpaths : (l.slots.map (·.path))[j]? = (l.slots.map (·.path))[i]? := by simp [hi, hj, heq]
      exact (List.getElem?_inj (by rwa [List.length_map]) hnodup).mp hpaths
    · omega

def rooted : Layout := ⟨[⟨[], .scalar, 0, 0⟩, ⟨[.name "a"], .scalar, 1, 1⟩], 2, 2⟩

theorem storable_rooted : rooted.Storable := by
  refine ⟨rfl, fun s hs => ?_, by decide⟩
  rcases List.mem_pair.mp hs with rfl | rfl
  · exact fun _ ht => nomatch ht
  · exact Path.writable_cons.mpr ⟨by decide, fun _ ht => nomatch ht⟩

/-- The path of the leaf at the root is part of every other path, and the layout is accepted nevertheless. -/
theorem root_leaf_not_apart :
    load rooted.save = .ok rooted ∧ ∃ s t, rooted.slots = [s, t] ∧ s.path ≠ t.path ∧ s.path <+: t.path ∧
      rooted.leavesUnder s.path = [(0, s), (1, t)] :=
  ⟨storable_rooted.load_text, _, _, rfl, by decide, by decide, rfl⟩

theorem paths_apart_of_load_rooted :
    load rooted.save = .ok rooted ∧ (rooted.slots.map (·.path)).Nodup ∧
      ∃ s, rooted.slots[1]? = some s ∧ rooted.leavesUnder s.path = [(1, s)] := by
  have hload := storable_rooted.load_text
  obtain ⟨hnodup, -, hunder⟩ := paths_apart_of_load hload
  exact ⟨hload, hnodup, _, rfl, (hunder 1 _ rfl).mpr (.inl (List.cons_ne_nil _ _))⟩

end Layout
end QuantityLayout
