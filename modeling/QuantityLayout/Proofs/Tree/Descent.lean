import QuantityLayout.Proofs.Order.Defects
import QuantityLayout.Proofs.Order.Renaming
import QuantityLayout.Proofs.Tree.Part
/-!
The descent into a tree, written out twice. One walk takes a piece of the tree apart into its slots, each with the whole path to
it; the other one goes through all of a piece and adds its leaves to those seen before. To visit the slots one after the other is
to visit the piece. Seen from the beginning of a path, the slots and the visits of a node are what the two walks find at the end
of this path.
-/
set_option autoImplicit false

namespace QuantityLayout

variable {α : Type}

namespace Order.Fault

/-- What an order is blamed for by itself stands at the path of its group; the faults of its entries stand where they were
found. -/
def ownAt (p : Path) (f : Fault) : Fault := if f.group = [] then ⟨p, f.defect⟩ else f

def below (p : Path) (f : Fault) : Fault := ⟨p ++ f.group, f.defect⟩

def entryBelow (p : Path) (f : Fault) : Fault := if f.group = [] then f else f.below p

theorem ownAt_entryBelow (p : Path) (f : Fault) : (f.entryBelow p).ownAt p = f.below p := by
  obtain ⟨q, d⟩ := f
  cases q with
  | nil => simp [entryBelow, ownAt, below]
  | cons s q => simp [entryBelow, ownAt, below]

theorem below_under (p : Path) (s : Step) (f : Fault) : (f.under s).below p = f.below (p ++ [s]) := by
  simp [under, below]

theorem entryBelow_under (p : Path) (s : Step) (f : Fault) : (f.under s).entryBelow p = f.below (p ++ [s]) :=
  (if_neg (List.cons_ne_nil _ _)).trans (below_under p s f)

end Order.Fault

namespace Visits

def below (p : Path) : Visits α → Visits α := Order.mapUnits (Order.Fault.below p) (Visit.below p)

theorem below_under (p : Path) (s : Step) (u : Visits α) : (u.under s).below p = u.below (p ++ [s]) := by
  cases u with
  | error f => exact congrArg Except.error (f.below_under p s)
  | ok vs =>
    have hvisits : (vs.map (Visit.under s)).map (Visit.below p) = vs.map (Visit.below (p ++ [s])) := by
      rw [List.map_map]
      exact List.map_congr_left fun v _ => by simp [Visit.below, Visit.under]
    exact congrArg Except.ok hvisits

section Fold

variable {β : Type} {f : List (Visit α) → β → Visits α} {us : List β}
  (hf : ∀ u ∈ us, ∀ vs, f vs u = (f [] u).map (vs ++ ·)) (vs : List (Visit α))
include hf

theorem foldlM_eq_chain : us.foldlM f vs = (chain (us.map (f []))).map (vs ++ ·) := by
  induction us generalizing vs with
  | nil => exact congrArg Except.ok (List.append_nil vs).symm
  | cons u us ih =>
    obtain ⟨hu, hus⟩ := List.forall_mem_cons.mp hf
    rw [List.foldlM_cons, hu, List.map_cons]
    cases f [] u with
    | error t => rfl
    | ok first =>
      change us.foldlM f (vs ++ first) = ((chain (us.map (f []))).map (first ++ ·)).map (vs ++ ·)
      rw [ih hus]
      cases chain (us.map (f [])) with
      | error t => rfl
      | ok rest => exact congrArg Except.ok (List.append_assoc vs first rest)

theorem foldlM_append : us.foldlM f vs = (us.foldlM f []).map (vs ++ ·) := by
  rw [foldlM_eq_chain hf, foldlM_eq_chain hf []]
  cases chain (us.map (f [])) <;> rfl

end Fold

end Visits

structure Piece (α : Type) where
  path : Path
  node : Node α

namespace Piece

mutual
/-- What a node falls into: the node itself if it is a leaf, the items of a list, the entries of a group in order. -/
def slotsAt (policy : Policy) (p : Path) : Node α → Except Order.Fault (List (Piece α))
  | .leaf l => .ok [⟨p, .leaf l⟩]
  | .list ns => .ok (ns.zipIdx.map fun (n, i) => ⟨p ++ [.index i], n⟩)
  | .group g => unitsAt policy p g

def unitsAt (policy : Policy) (p : Path) : Group (Node α) → Except Order.Fault (List (Piece α))
  | ⟨es, o⟩ => (Order.resolve? policy (columnsAt policy p es) o).mapError (Order.Fault.ownAt p)

def columnsAt (policy : Policy) (p : Path) : List (String × Node α) → List (String × Order.Column (Piece α))
  | [] => []
  | (s, n) :: es => (s, ⟨⟨p ++ [.name s], n⟩, slotsAt policy (p ++ [.name s]) n⟩) :: columnsAt policy p es
end

theorem columnsAt_eq (policy : Policy) (p : Path) (es : List (String × Node α)) :
    columnsAt policy p es
      = es.map fun e => (e.1, ⟨⟨p ++ [.name e.1], e.2⟩, slotsAt policy (p ++ [.name e.1]) e.2⟩) := by
  induction es with
  | nil => rfl
  | cons e es ih => rw [columnsAt, ih, List.map_cons]

section Size

variable {policy : Policy} {p : Path} {n : Node α} {g : Group (Node α)} {us : List (Piece α)} {u : Piece α}

theorem sizeOf_item {ns : List (Node α)} {e : Node α × Nat} (he : e ∈ ns.zipIdx) : sizeOf e.1 < sizeOf (Node.list ns) := by
  have hlt := List.sizeOf_lt_of_mem (List.mem_of_getElem? (List.mem_zipIdx_iff_getElem?.mp he))
  simp only [Node.list.sizeOf_spec]
  omega

/-- What comes out of a group in order is an entry of it, or a slot of one; both are smaller than the group. -/
theorem sizeOf_unit (h : unitsAt policy p g = .ok us) (hu : u ∈ us)
    (hslots : ∀ e ∈ g.entries, ∀ q ws, slotsAt policy q e.2 = .ok ws → u ∈ ws → sizeOf u.node ≤ sizeOf e.2) :
    sizeOf u.node < sizeOf (Node.group g) := by
  obtain ⟨es, o⟩ := g
  obtain ⟨c, hc, hshows⟩ := Order.exists_mem_shows (Outcome.mapError_eq_ok.mp h) hu
  rw [columnsAt_eq] at hc
  obtain ⟨⟨s, m⟩, he, rfl⟩ := List.mem_map.mp hc
  have hle : sizeOf u.node ≤ sizeOf m := by
    rcases hshows with rfl | ⟨ws, hws, hu⟩
    · exact Nat.le_refl _
    · exact hslots _ he _ ws hws hu
  have hlt : 1 + sizeOf s + sizeOf m < sizeOf es := List.sizeOf_lt_of_mem he
  simp only [Node.group.sizeOf_spec, Group.mk.sizeOf_spec]
  omega

theorem sizeOf_slotsAt (h : slotsAt policy p n = .ok us) (hu : u ∈ us) : sizeOf u.node ≤ sizeOf n := by
  induction n generalizing p us with
  | leaf l =>
    cases h
    cases List.mem_singleton.mp hu
    exact Nat.le_refl _
  | list ns ih =>
    cases h
    obtain ⟨e, he, rfl⟩ := List.mem_map.mp hu
    exact (sizeOf_item he).le
  | group es o ih => exact (sizeOf_unit h hu fun e he q ws hws hu => ih e he hws hu).le

theorem sizeOf_unitsAt (h : unitsAt policy p g = .ok us) (hu : u ∈ us) : sizeOf u.node < sizeOf (Node.group g) :=
  sizeOf_unit h hu fun _ _ _ _ hws hu => sizeOf_slotsAt hws hu

end Size

/-- All leaves of a piece, added to the visits that were made before: those of a list item by item, those of a group as its order
has the entries. -/
def visit (policy : Policy) (vs : List (Visit α)) : Piece α → Except Order.Fault (List (Visit α))
  | ⟨p, .leaf l⟩ => .ok (vs ++ [⟨p, l⟩])
  | ⟨p, .list ns⟩ => ns.zipIdx.attach.foldlM (fun vs e => visit policy vs ⟨p ++ [.index e.1.2], e.1.1⟩) vs
  | ⟨p, .group g⟩ =>
    match _h : unitsAt policy p g with
    | .error f => .error f
    | .ok us => us.attach.foldlM (fun vs u => visit policy vs u.1) vs
termination_by u => sizeOf u.node
decreasing_by
  · exact sizeOf_item e.2
  · exact sizeOf_unitsAt _h u.2

theorem visit_list (policy : Policy) (vs : List (Visit α)) (p : Path) (ns : List (Node α)) :
    visit policy vs ⟨p, .list ns⟩ = (ns.zipIdx.map fun (n, i) => ⟨p ++ [.index i], n⟩).foldlM (visit policy) vs := by
  rw [visit, List.foldlM_map]
  conv_rhs => rw [← List.attach_map_subtype_val ns.zipIdx, List.foldlM_map]

theorem visit_group (policy : Policy) (vs : List (Visit α)) (p : Path) (g : Group (Node α)) :
    visit policy vs ⟨p, .group g⟩ = unitsAt policy p g >>= fun us => us.foldlM (visit policy) vs := by
  rw [visit]
  split
  · next f h =>
    rw [h]
    rfl
  · next us h =>
    rw [h]
    change _ = us.foldlM (visit policy) vs
    conv_rhs => rw [← List.attach_map_subtype_val us, List.foldlM_map]

/-- To visit the slots of a piece one after the other is to visit the piece. -/
theorem foldlM_visit_slotsAt (policy : Policy) (p : Path) (n : Node α) (vs : List (Visit α)) :
    (slotsAt policy p n >>= fun us => us.foldlM (visit policy) vs) = visit policy vs ⟨p, n⟩ := by
  cases n with
  | leaf l => exact bind_pure (visit policy vs ⟨p, .leaf l⟩)
  | list ns => exact (visit_list policy vs p ns).symm
  | group g => exact (visit_group policy vs p g).symm

/-- What was visited before has no influence on what is visited next. -/
theorem visit_append (policy : Policy) (vs : List (Visit α)) (u : Piece α) :
    visit policy vs u = (visit policy [] u).map (vs ++ ·) := by
  induction hsize : sizeOf u.node using Nat.strongRecOn generalizing u vs with
  | ind size ih =>
    subst hsize
    obtain ⟨p, n⟩ := u
    cases n with
    | leaf l =>
      rw [visit, visit]
      rfl
    | list ns =>
      rw [visit_list, visit_list]
      refine Visits.foldlM_append (fun u hu vs => ?_) vs
      obtain ⟨e, he, rfl⟩ := List.mem_map.mp hu
      exact ih _ (sizeOf_item he) vs _ rfl
    | group g =>
      rw [visit_group, visit_group]
      cases h : unitsAt policy p g with
      | error f => rfl
      | ok us => exact Visits.foldlM_append (fun u hu vs => ih _ (sizeOf_unitsAt h hu) vs u rfl) vs

def slotVisits (policy : Policy) (p : Path) (n : Node α) : Except Order.Fault (List (Visits α)) :=
  (slotsAt policy p n).map (List.map (visit policy []))

theorem visit_eq_chain (policy : Policy) (p : Path) (n : Node α) :
    visit policy [] ⟨p, n⟩ = (slotVisits policy p n).bind Visits.chain := by
  rw [← foldlM_visit_slotsAt, slotVisits]
  cases slotsAt policy p n with
  | error f => rfl
  | ok us =>
    change us.foldlM (visit policy) [] = Visits.chain (us.map (visit policy []))
    rw [Visits.foldlM_eq_chain fun u _ vs => visit_append policy vs u]
    cases Visits.chain (us.map (visit policy [])) <;> rfl

section Below

variable {policy : Policy} {p : Path} {s : Step} {n : Node α}

theorem visit_of_slotVisits
    (h : slotVisits policy p n = Order.mapUnits (Order.Fault.below p) (Visits.below p) (n.slots policy)) :
    visit policy [] ⟨p, n⟩ = (n.visits policy).below p := by
  rw [visit_eq_chain, h, Node.visits]
  cases n.slots policy with
  | error f => rfl
  | ok us => exact Visits.chain_mapUnits (Order.Fault.below p) (Visit.below p) us

theorem column_of_slotVisits
    (h : slotVisits policy (p ++ [s]) n
      = Order.mapUnits (Order.Fault.below (p ++ [s])) (Visits.below (p ++ [s])) (n.slots policy)) :
    (Order.Column.mk ⟨p ++ [s], n⟩ (slotsAt policy (p ++ [s]) n)).map id (visit policy [])
      = (Visits.column s (n.slots policy)).map (Order.Fault.entryBelow p) (Visits.below p) := by
  have hwhole := visit_of_slotVisits h
  rw [← Visits.below_under, ← Node.whole_column] at hwhole
  rw [slotVisits] at h
  rw [Order.Column.map, Order.Column.map, hwhole, h]
  cases n.slots policy with
  | error f =>
    change Order.Column.mk _ (.error (f.below (p ++ [s]))) = ⟨_, .error ((f.under s).entryBelow p)⟩
    rw [Order.Fault.entryBelow_under]
  | ok us =>
    have hslots : us.map (Visits.below (p ++ [s])) = (us.map (Visits.under s)).map (Visits.below p) := by
      rw [List.map_map]
      exact List.map_congr_left fun u _ => (Visits.below_under p s u).symm
    change Order.Column.mk _ (.ok (us.map (Visits.below (p ++ [s])))) = _
    rw [hslots]
    rfl

/-- Taken apart and visited from the beginning of a path, a node has the slots that it has by itself. -/
theorem slotVisits_eq (policy : Policy) (p : Path) (n : Node α) :
    slotVisits policy p n = Order.mapUnits (Order.Fault.below p) (Visits.below p) (n.slots policy) := by
  induction n generalizing p with
  | leaf l =>
    simp [slotVisits, slotsAt, Node.slots, Order.mapUnits, Except.map, Except.mapError, visit, Visits.below, Visit.below]
  | list ns ih =>
    have hitems : (ns.zipIdx.map fun (n, i) => Piece.mk (p ++ [.index i]) n).map (visit policy [])
        = (ns.zipIdx.map fun (n, i) => (n.visits policy).under (.index i)).map (Visits.below p) := by
      rw [List.map_map, List.map_map]
      refine List.map_congr_left fun e he => ?_
      have hmem := List.mem_of_getElem? (List.mem_zipIdx_iff_getElem?.mp he)
      exact (visit_of_slotVisits (ih e.1 hmem _)).trans (Visits.below_under p _ _).symm
    rw [slotVisits, slotsAt, Node.slots, Node.itemVisits_eq]
    exact congrArg Except.ok hitems
  | group es o ih =>
    -- both sides follow the same order, one over pieces and one over visits; the columns agree by hypothesis
    have hcolumns : Order.relabel id id (visit policy []) (columnsAt policy p es)
        = Order.relabel id (Order.Fault.entryBelow p) (Visits.below p) (Node.columns policy es) := by
      rw [columnsAt_eq, Node.columns_eq, Order.relabel, Order.relabel, List.map_map, List.map_map]
      exact List.map_congr_left fun e he => congrArg (Prod.mk e.1) (column_of_slotVisits (ih e he _))
    have hpieces : Order.resolve? policy (Order.relabel id id (visit policy []) (columnsAt policy p es)) o
        = Order.mapUnits id (visit policy []) (Order.resolve? policy (columnsAt policy p es) o) :=
      Order.resolve?_relabel_id (fun _ => rfl) o
    have hvisits : Order.resolve? policy
          (Order.relabel id (Order.Fault.entryBelow p) (Visits.below p) (Node.columns policy es)) o
        = Order.mapUnits (Order.Fault.entryBelow p) (Visits.below p) (Order.resolve? policy (Node.columns policy es) o) :=
      Order.resolve?_relabel_id (fun _ => rfl) o
    calc slotVisits policy p (.group ⟨es, o⟩)
      _ = (Order.mapUnits id (visit policy []) (Order.resolve? policy (columnsAt policy p es) o)).mapError
            (Order.Fault.ownAt p) := by
          rw [slotVisits, slotsAt, unitsAt]
          cases Order.resolve? policy (columnsAt policy p es) o <;> rfl
      _ = (Order.mapUnits (Order.Fault.entryBelow p) (Visits.below p) ((Node.group ⟨es, o⟩).slots policy)).mapError
            (Order.Fault.ownAt p) := by rw [← hpieces, hcolumns, hvisits, Node.slots]
      _ = Order.mapUnits (Order.Fault.below p) (Visits.below p) ((Node.group ⟨es, o⟩).slots policy) := by
          cases (Node.group ⟨es, o⟩).slots policy with
          | error f => exact congrArg Except.error (f.ownAt_entryBelow p)
          | ok us => rfl

/-- What is found at the end of a path is what the node there has by itself, its faults as well as its leaves. -/
theorem visit_eq (policy : Policy) (p : Path) (n : Node α) : visit policy [] ⟨p, n⟩ = (n.visits policy).below p :=
  visit_of_slotVisits (slotVisits_eq policy p n)

end Below

end Piece
end QuantityLayout
