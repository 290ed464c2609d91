import QuantityLayout.Proofs.Order.Renaming
import QuantityLayout.Proofs.Registry.Flatten
import QuantityLayout.Proofs.Registry.Lifecycle

set_option autoImplicit false

namespace QuantityLayout

variable {α : Type} {policy : Policy} {f : String → String} {vs : List (Visit α)}

def Step.mapName (f : String → String) : Step → Step
  | .name n => .name (f n)
  | s => s

def Path.mapFirst (f : String → String) : Path → Path
  | [] => []
  | s :: p => s.mapName f :: p

def Visit.mapFirst (f : String → String) (v : Visit α) : Visit α := ⟨v.path.mapFirst f, v.leaf⟩

def Order.Fault.mapFirst (f : String → String) (t : Order.Fault) : Order.Fault := ⟨t.group.mapFirst f, t.defect⟩

namespace Visits

def mapFirst (f : String → String) (u : Visits α) : Visits α :=
  Except.mapError (Order.Fault.mapFirst f) (Except.map (List.map (Visit.mapFirst f)) u)

theorem under_mapName (f : String → String) (s : Step) (u : Visits α) :
    u.under (s.mapName f) = (u.under s).mapFirst f := by
  cases u with
  | error t => rfl
  | ok vs =>
    have hvisits : vs.map (Visit.under (s.mapName f)) = (vs.map (Visit.under s)).map (Visit.mapFirst f) := by
      rw [List.map_map]
      rfl
    exact congrArg Except.ok hvisits

theorem column_mapName (f : String → String) (s : Step) (r : Except Order.Fault (List (Visits α))) :
    column (s.mapName f) r = (column s r).map (Order.Fault.mapFirst f) (mapFirst f) := by
  cases r with
  | error t => rfl
  | ok us =>
    have hslots : us.map (under (s.mapName f)) = (us.map (under s)).map (mapFirst f) := by
      rw [List.map_map]
      exact List.map_congr_left fun u _ => under_mapName f s u
    simp only [column, Order.Column.map, under_mapName, hslots]
    rfl

theorem chain_mapFirst (f : String → String) (us : List (Visits α)) :
    chain (us.map (mapFirst f)) = (chain us).mapFirst f :=
  chain_mapUnits (Order.Fault.mapFirst f) (Visit.mapFirst f) us

end Visits

namespace Group

def mapNames {ν : Type} (f : String → String) (g : Group ν) : Group ν :=
  ⟨g.entries.map fun e => (f e.1, e.2), g.order.map (Order.mapNames f)⟩

theorem mapNames_id {ν : Type} (g : Group ν) : g.mapNames id = g := by
  obtain ⟨es, o⟩ := g
  have hitem : Order.Item.mapNames id = id := funext fun i => by cases i <;> simp [Order.Item.mapNames]
  cases o <;> simp [mapNames, Order.mapNames, hitem]

theorem relabel_eq {ν : Type} (g : Group ν) (old new : String) :
    g.relabel old new = g.mapNames fun n => if n = old then new else n := rfl

end Group

namespace Node

theorem columns_mapNames (f : String → String) (es : List (String × Node α)) :
    columns policy (es.map fun e => (f e.1, e.2))
      = Order.relabel f (Order.Fault.mapFirst f) (Visits.mapFirst f) (columns policy es) := by
  rw [columns_eq, columns_eq, Order.relabel, List.map_map, List.map_map]
  exact List.map_congr_left fun e _ => congrArg (Prod.mk (f e.1)) (Visits.column_mapName f (.name e.1) _)

/-- The leaves are visited in the same sequence under the new names. -/
theorem visits_mapNames {g : Group (Node α)} (hf : Set.InjOn f {n | n ∈ g.names})
    (h : (Node.group g).visits policy = .ok vs) :
    (Node.group (g.mapNames f)).visits policy = .ok (vs.map (Visit.mapFirst f)) := by
  obtain ⟨es, o⟩ := g
  obtain ⟨us, hus, hchain⟩ := visits_eq_ok.mp h
  have hapart : Order.Apart f (columns policy es) := by
    rw [Order.Apart, names_columns]
    exact hf
  have hus' := Order.resolve?_relabel (k := Order.Fault.mapFirst f) (g := Visits.mapFirst f) hapart hus
  rw [← columns_mapNames] at hus'
  refine visits_eq_ok.mpr ⟨_, hus', ?_⟩
  rw [Visits.chain_mapFirst, hchain]
  rfl

end Node

namespace Layout

def mapPaths (h : Path → Path) (l : Layout) : Layout :=
  { l with slots := l.slots.map fun s => { s with path := h s.path } }

theorem place_map (h : Path → Path) (n m : Nat) (ls : List (Path × Shape)) :
    place n m (ls.map fun e => (h e.1, e.2)) = (place n m ls).map fun s => { s with path := h s.path } := by
  induction ls generalizing n m with
  | nil => rfl
  | cons e ls ih =>
    rw [List.map_cons, place, ih]
    rfl

end Layout

namespace Registry

variable {l l' : Layout} {old new : String}

theorem listed_mapFirst (f : String → String) (vs : List (Visit α)) :
    listed (vs.map (Visit.mapFirst f)) = (listed vs).map fun e => (e.1.mapFirst f, e.2) := by
  rw [listed, listed, List.map_map, List.map_map]
  rfl

/-- An entry that takes a name which no other entry has: all names stay apart. The entries and the order are those of before
under the names of after. -/
theorem rename_eq_mapNames {g g' : Group (Node α)} (h : g.rename old new = .ok g') :
    Set.InjOn (fun n => if n = old then new else n) {n | n ∈ g.names} ∧
      g' = g.mapNames fun n => if n = old then new else n := by
  rcases (Group.rename_eq_ok.mp h).2 with ⟨rfl, rfl⟩ | ⟨-, -, hnew, rfl⟩
  · have hid : (fun n => if n = old then old else n) = id := funext fun n => by split <;> simp_all
    rw [hid, Group.mapNames_id]
    exact ⟨Set.injOn_id _, rfl⟩
  · refine ⟨fun m hm n hn heq => ?_, Group.relabel_eq g old new⟩
    have hm' : m ≠ new := fun h => hnew (h ▸ hm)
    have hn' : n ≠ new := fun h => hnew (h ▸ hn)
    by_cases ho : m = old <;> by_cases ho' : n = old <;> simp_all

theorem mapPaths_ofLeaves {h : Path → Path} {ls : List (Path × Shape)} (hl : Layout.ofLeaves ls = .ok l)
    (hl' : Layout.ofLeaves (ls.map fun e => (h e.1, e.2)) = .ok l') : l' = l.mapPaths h := by
  obtain ⟨-, rfl⟩ := Layout.ofLeaves_eq_ok.mp hl
  obtain ⟨-, rfl⟩ := Layout.ofLeaves_eq_ok.mp hl'
  rw [Layout.place_map, List.map_map, List.map_map]
  rfl

theorem resolve_mapNames {g : Group (Node α)} (hf : Set.InjOn f {n | n ∈ g.names})
    (hg : (Node.group (g.mapNames f)).WellFormed) (h : resolve policy g = .ok l) :
    resolve policy (g.mapNames f) = .ok (l.mapPaths (Path.mapFirst f)) := by
  obtain ⟨vs, hvs, hl⟩ := resolve_eq_ok.mp h
  have hvs' := Node.visits_mapNames hf hvs
  obtain ⟨l', hl'⟩ := exists_layout hg hvs'
  refine resolve_eq_ok.mpr ⟨_, hvs', ?_⟩
  rw [hl']
  rw [listed_mapFirst] at hl'
  exact congrArg Except.ok (mapPaths_ofLeaves hl hl')

theorem freeze_of_rename {r frozen renamed : Registry α} (hr : r.Sound) (hfreeze : r.freeze = .ok frozen)
    (hrename : r.rename old new = .ok renamed) :
    ∃ frozen' vs l, renamed.freeze = .ok frozen' ∧ frozen.Laid vs l ∧
      frozen'.Laid (vs.map (Visit.mapFirst fun n => if n = old then new else n))
        (l.mapPaths (Path.mapFirst fun n => if n = old then new else n)) := by
  have hfrozen := sound_act (a := .freeze) hr trivial hfreeze
  have hrenamed := sound_act (a := .rename old new) hr trivial hrename
  obtain ⟨hopen, l, hl, rfl⟩ := freeze_eq_ok.mp hfreeze
  obtain ⟨-, root, hroot, rfl⟩ := edit_eq_ok.mp hrename
  obtain ⟨hapart, rfl⟩ := rename_eq_mapNames hroot
  have hl' := resolve_mapNames hapart hrenamed.root hl
  have hopen' : Registry.isFrozen { r with root := r.root.mapNames fun n => if n = old then new else n } = false := hopen
  have hfreeze' := freeze_eq_ok.mpr ⟨hopen', _, hl', rfl⟩
  obtain ⟨vs, h⟩ := hfrozen.laid_of_layout (l := l) rfl
  obtain ⟨vs', h'⟩ := (sound_act (a := .freeze) hrenamed trivial hfreeze').laid_of_layout rfl
  cases h'.visits.symm.trans (Node.visits_mapNames hapart h.visits)
  exact ⟨_, vs, l, hfreeze', h, h'⟩

theorem Laid.flatten_mapFirst {r r' : Registry α} (h : r.Laid vs l) (h' : r'.Laid (vs.map (Visit.mapFirst f)) l') :
    r'.flattenNonzero = r.flattenNonzero ∧ r'.flattenDense = r.flattenDense := by
  rw [h.flattenNonzero, h'.flattenNonzero, h.flattenDense, h'.flattenDense, flatDense, flatDense, List.flatMap_map,
    List.flatMap_map]
  exact ⟨rfl, rfl⟩

namespace InPlace

/-- An entry that gets a new name before freezing changes the first step of its paths, and nothing else of the layout or
of the flattenings. -/
theorem freeze_rename {calls : List (Action α)} (hcalls : ∀ a ∈ calls, a.WellFormed) {frozen renamed : InPlace α}
    (hfreeze : (perform .freeze).run (history policy calls) = .ok () frozen)
    (hrename : (perform (.rename old new)).run (history policy calls) = .ok () renamed) :
    renamed.root.WellIndexed ∧ ∃ frozen' l xs ys,
      (perform .freeze).run renamed = .ok () frozen' ∧ frozen.layout? = some l ∧
      frozen'.layout? = some (l.mapPaths (Path.mapFirst fun n => if n = old then new else n)) ∧
      frozen.registry.flattenNonzero = .ok xs ∧ frozen'.registry.flattenNonzero = .ok xs ∧
      frozen.registry.flattenDense = .ok ys ∧ frozen'.registry.flattenDense = .ok ys := by
  have hindexed := wellIndexed_history policy calls
  obtain ⟨hfrozen, -⟩ := act_of_run hindexed hfreeze
  obtain ⟨hrenamed, hindexed'⟩ := act_of_run hindexed hrename
  obtain ⟨r, vs, l, hr, h, h'⟩ := freeze_of_rename (sound_history hcalls) hfrozen hrenamed
  obtain ⟨frozen', hrun, rfl⟩ := exists_run (a := .freeze) hindexed' hr
  obtain ⟨hnonzero, hdense⟩ := h.flatten_mapFirst h'
  refine ⟨hindexed', frozen', l, _, _, hrun, layout_eq_ok.mp h.layout, layout_eq_ok.mp h'.layout, h.flattenNonzero, ?_,
    h.flattenDense, ?_⟩
  · rw [hnonzero, h.flattenNonzero]
  · rw [hdense, h.flattenDense]

theorem freeze_rename_sample :
    (∀ a ∈ sampleActions, a.WellFormed) ∧ ∃ frozen renamed frozen' l,
      (perform .freeze).run (history .permissive sampleActions) = .ok () frozen ∧
      (perform (.rename "y" "q")).run (history .permissive sampleActions) = .ok () renamed ∧
      (perform .freeze).run renamed = .ok () frozen' ∧ frozen'.layout? = some l ∧
      (l.slots.map fun s => s.path.render) = ["w", "q[0]", "z.b", "q[1]", "z.a", "e"] := by
  have hindexed := wellIndexed_history .permissive sampleActions
  have hregistry : (history .permissive sampleActions).registry = sample := registry_history .permissive sampleActions
  obtain ⟨frozen, hfreeze, hfrozen⟩ := exists_run (a := .freeze) (r := frozenSample) hindexed (by rw [hregistry]; rfl)
  obtain ⟨renamed, hrename, -⟩ := exists_run (a := .rename "y" "q") hindexed (by rw [hregistry]; rfl)
  obtain ⟨-, frozen', l, -, -, hrun, hl, hl', -⟩ := freeze_rename wellFormed_sampleActions hfreeze hrename
  have hlayout : frozenSample.layout? = some l := by
    rw [← hfrozen]
    exact hl
  refine ⟨wellFormed_sampleActions, frozen, renamed, frozen', _, hfreeze, hrename, hrun, hl', ?_⟩
  cases hlayout
  decide

end InPlace
end Registry
end QuantityLayout
