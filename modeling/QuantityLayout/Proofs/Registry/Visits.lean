import QuantityLayout.Proofs.Registry.Freeze
import QuantityLayout.Registry.Query

set_option autoImplicit false

namespace QuantityLayout.Registry

variable {α : Type} {r : Registry α} {vs : List (Visit α)}

theorem locate_eq_ok {p : Path} {x : Place α} :
    r.locate p = .ok x ↔ (Node.group r.root).place.walk p = .ok x := Outcome.mapError_eq_ok

theorem locate_concat_iff {p : Path} {x y : Place α} {s : Step} (hp : r.locate p = .ok x) :
    r.locate (p ++ [s]) = .ok y ↔ x.step s = .ok y := by
  rw [locate_eq_ok, Place.walk_append_eq_ok]
  constructor
  · rintro ⟨z, hz, hlast⟩
    cases (locate_eq_ok.mp hp).symm.trans hz
    obtain ⟨w, hs, ⟨⟩⟩ := Place.walk_cons_eq_ok.mp hlast
    exact hs
  · exact fun hs => ⟨x, locate_eq_ok.mp hp, Place.walk_cons_eq_ok.mpr ⟨y, hs, rfl⟩⟩

theorem locate_concat {p : Path} {x y : Place α} {s : Step} (hp : r.locate p = .ok x) (hs : x.step s = .ok y) :
    r.locate (p ++ [s]) = .ok y := (locate_concat_iff hp).mpr hs

theorem locate_eq_leaf {policy : Policy} (hr : (Node.group r.root).WellFormed)
    (h : (Node.group r.root).visits policy = .ok vs) {p : Path} {l : Leaf α} :
    r.locate p = .ok (.leaf l) ↔ ⟨p, l⟩ ∈ vs := by
  rw [locate_eq_ok, (Node.visits_perm_inventory hr h).mem_iff, Node.mem_inventory_iff hr]

theorem nodup_visits {policy : Policy} {n : Node α} (hn : n.WellFormed) (h : n.visits policy = .ok vs) :
    (vs.map Visit.path).Nodup :=
  ((Node.visits_perm_inventory hn h).map _).nodup_iff.mpr (Node.inventory_nodup hn)

theorem apart_visits {policy : Policy} {n : Node α} (hn : n.WellFormed) (h : n.visits policy = .ok vs)
    {v w : Visit α} (hv : v ∈ vs) (hw : w ∈ vs) (hpre : v.path <+: w.path) : v = w := by
  have hperm := Node.visits_perm_inventory hn h
  exact Node.inventory_prefix_free hn (hperm.mem_iff.mp hv) (hperm.mem_iff.mp hw) hpre

/-- Every leaf of a tree is visited exactly once, by the path that leads to it, and no path to a leaf runs on to
another one. -/
theorem visits_cover (r : Registry α) (hr : (Node.group r.root).WellFormed) (policy : Policy) {vs : List (Visit α)}
    (h : (Node.group r.root).visits policy = .ok vs) :
    (vs.map Visit.leaf).Perm (Node.group r.root).leaves ∧
    (∀ p l, r.locate p = .ok (.leaf l) ↔ ⟨p, l⟩ ∈ vs) ∧
    (vs.map Visit.path).Nodup ∧
    ∀ v ∈ vs, ∀ w ∈ vs, v.path <+: w.path → v = w := by
  have hleaves : (vs.map Visit.leaf).Perm (Node.group r.root).leaves := by
    rw [← Node.map_leaf_inventory]
    exact (Node.visits_perm_inventory hr h).map _
  exact ⟨hleaves, fun _ _ => locate_eq_leaf hr h, nodup_visits hr h, fun _ hv _ hw => apart_visits hr h hv hw⟩

def sampleVisits : List (Visit Symbol) :=
  match (Node.group sample.root).visits .permissive with
  | .ok vs => vs
  | .error _ => []

theorem visits_cover_sample : (Node.group sample.root).WellFormed ∧
    (Node.group sample.root).visits .permissive = .ok sampleVisits ∧
    (sampleVisits.map fun v => v.path.render) = ["w", "y[0]", "z.b", "y[1]", "z.a", "e"] ∧
    (sampleVisits.map Visit.leaf).Perm (Node.group sample.root).leaves ∧
    ∀ v ∈ sampleVisits, sample.locate v.path = .ok (.leaf v.leaf) := by
  have hroot := reachable_sample.sound.root
  have hvisits : (Node.group sample.root).visits .permissive = .ok sampleVisits := rfl
  obtain ⟨hleaves, hlocate, -⟩ := visits_cover sample hroot .permissive hvisits
  exact ⟨hroot, hvisits, by decide, hleaves, fun v hv => (hlocate v.path v.leaf).mpr hv⟩

/-- The registry is frozen with a layout that is made of these visits. -/
structure Laid (r : Registry α) (vs : List (Visit α)) (l : Layout) : Prop where
  root : (Node.group r.root).WellFormed
  visits : (Node.group r.root).visits r.policy = .ok vs
  layout : r.layout = .ok l
  slots : l.slots = Layout.place 0 0 (listed vs)
  totalNumel : l.totalNumel = word (vs.map (·.leaf.shape.numel)).sum
  total : l.totalNnz = (vs.map (·.leaf.shape.nnz)).sum
  located : ∀ v ∈ vs, r.locate v.path = .ok (.leaf v.leaf)
  nodup : (vs.map Visit.path).Nodup
  apart : ∀ v ∈ vs, ∀ w ∈ vs, v.path <+: w.path → v = w

theorem Sound.laid (hr : r.Sound) (hfrozen : r.isFrozen) : ∃ vs l, r.Laid vs l := by
  obtain ⟨l, hl⟩ := Option.isSome_iff_exists.mp hfrozen
  obtain ⟨vs, hvs, hlay⟩ := resolve_eq_ok.mp (hr.layout l hl)
  obtain ⟨-, rfl⟩ := Layout.ofLeaves_eq_ok.mp hlay
  refine ⟨vs, _, hr.root, hvs, by rw [Registry.layout, hl], rfl, ?_, ?_, ?_, nodup_visits hr.root hvs,
    fun v hv w hw => apart_visits hr.root hvs hv hw⟩
  · simp [listed, Function.comp_def]
  · simp [listed, Function.comp_def]
  · exact fun v hv => (locate_eq_leaf hr.root hvs).mpr hv

theorem layout_eq_ok {r : Registry α} {l : Layout} : r.layout = .ok l ↔ r.layout? = some l := by
  unfold Registry.layout
  cases r.layout? <;> simp

theorem Sound.laid_of_layout (hr : r.Sound) {l : Layout} (hl : r.layout = .ok l) : ∃ vs, r.Laid vs l := by
  have hfrozen : r.isFrozen := by rw [isFrozen, layout_eq_ok.mp hl, Option.isSome_some]
  obtain ⟨vs, l', h⟩ := hr.laid hfrozen
  cases h.layout.symm.trans hl
  exact ⟨vs, h⟩

def numelBefore (vs : List (Visit α)) (i : Nat) : Nat := ((vs.take i).map (·.leaf.shape.numel)).sum

def nnzBefore (vs : List (Visit α)) (i : Nat) : Nat := ((vs.take i).map (·.leaf.shape.nnz)).sum

def slotOf (vs : List (Visit α)) (i : Nat) (v : Visit α) : Layout.Slot :=
  ⟨v.path, v.leaf.shape, word (numelBefore vs i), nnzBefore vs i⟩

namespace Laid

variable {l : Layout}

theorem mem_visits_iff (h : r.Laid vs l) {p : Path} {f : Leaf α} : r.locate p = .ok (.leaf f) ↔ ⟨p, f⟩ ∈ vs :=
  locate_eq_leaf h.root h.visits

theorem exists_visit (h : r.Laid vs l) {p : Path} {f : Leaf α} (hp : r.locate p = .ok (.leaf f)) :
    ∃ i : Nat, vs[i]? = some ⟨p, f⟩ := List.getElem?_of_mem (h.mem_visits_iff.mp hp)

theorem getElem?_slots (h : r.Laid vs l) (i : Nat) : l.slots[i]? = vs[i]?.map (slotOf vs i) := by
  rw [h.slots, Layout.getElem?_place countBound_pos]
  cases hv : vs[i]? <;> simp [listed, hv, slotOf, numelBefore, nnzBefore, Function.comp_def]

theorem leaves_eq (h : r.Laid vs l) : l.leaves = listed vs := by rw [Layout.leaves, h.slots, Layout.leaves_place]

theorem paths_slots (h : r.Laid vs l) : l.slots.map (·.path) = vs.map Visit.path := by
  rw [← paths_listed, ← h.leaves_eq, Layout.leaves, List.map_map]
  rfl

theorem length_slots (h : r.Laid vs l) : l.slots.length = vs.length := by
  simpa using congrArg List.length h.paths_slots

theorem nnz_slots (h : r.Laid vs l) : (l.slots.map fun s => s.shape.nnz) = vs.map fun v => v.leaf.shape.nnz := by
  have hshapes := congrArg (List.map fun e : Path × Shape => e.2.nnz) h.leaves_eq
  rw [Layout.leaves, listed, List.map_map, List.map_map] at hshapes
  exact hshapes

theorem slot_visit (h : r.Laid vs l) {i : Nat} {v : Visit α} (hv : vs[i]? = some v) :
    l.slots[i]? = some (slotOf vs i v) := by rw [h.getElem?_slots, hv, Option.map_some]

theorem slotAt_visit (h : r.Laid vs l) {i : Nat} {v : Visit α} (hv : vs[i]? = some v) :
    slotAt l v.path = .ok (slotOf vs i v) := by
  have hfind := Layout.getElem?_slot? (h.paths_slots ▸ h.nodup) (h.slot_visit hv)
  rw [slotAt, show v.path = (slotOf vs i v).path from rfl, hfind]

theorem leavesUnder_visit (h : r.Laid vs l) {i : Nat} {v : Visit α} (hv : vs[i]? = some v) :
    l.leavesUnder v.path = [(i, slotOf vs i v)] := by
  apply Layout.leavesUnder_leaf (h.slot_visit hv)
  intro j t ht hpre
  rw [h.getElem?_slots] at ht
  obtain ⟨w, hw, rfl⟩ := Option.map_eq_some_iff.mp ht
  have hvw : v = w := h.apart v (List.mem_of_getElem? hv) w (List.mem_of_getElem? hw) hpre
  have hpaths : (vs.map Visit.path)[j]? = (vs.map Visit.path)[i]? := by
    simp [hv, hw, hvw]
  have hlen : j < (vs.map Visit.path).length := by
    simpa using (List.getElem?_eq_some_iff.mp hw).1
  exact (List.getElem?_inj hlen h.nodup).mp hpaths

end Laid

end QuantityLayout.Registry
