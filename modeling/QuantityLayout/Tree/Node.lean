import QuantityLayout.Leaf
import QuantityLayout.Tree.Group

set_option autoImplicit false

namespace QuantityLayout

inductive Node (α : Type) where
  | leaf : Leaf α → Node α
  | list : List (Node α) → Node α
  | group : Group (Node α) → Node α

namespace Node

variable {α : Type}

@[elab_as_elim, induction_eliminator]
theorem byParts {motive : Node α → Prop} (leaf : ∀ l, motive (.leaf l))
    (list : ∀ ns, (∀ n ∈ ns, motive n) → motive (.list ns))
    (group : ∀ es o, (∀ e ∈ es, motive e.2) → motive (.group ⟨es, o⟩)) : ∀ n, motive n
  | .leaf l => leaf l
  | .list ns => list ns fun n hn =>
    have := List.sizeOf_lt_of_mem hn
    byParts leaf list group n
  | .group ⟨es, o⟩ => group es o fun (s, n) hn =>
    have : 1 + sizeOf s + sizeOf n < sizeOf es := List.sizeOf_lt_of_mem hn
    byParts leaf list group n

mutual
/-- The leaves from left to right, entries of a group as they were attached. -/
def leaves : Node α → List (Leaf α)
  | .leaf l => [l]
  | .list ns => itemLeaves ns
  | .group ⟨es, _⟩ => entryLeaves es

def itemLeaves : List (Node α) → List (Leaf α)
  | [] => []
  | n :: ns => n.leaves ++ itemLeaves ns

def entryLeaves : List (String × Node α) → List (Leaf α)
  | [] => []
  | (_, n) :: es => n.leaves ++ entryLeaves es
end

theorem itemLeaves_eq (ns : List (Node α)) : itemLeaves ns = ns.flatMap leaves := by
  induction ns with
  | nil => rfl
  | cons n ns ih => rw [itemLeaves, ih, List.flatMap_cons]

theorem entryLeaves_eq (es : List (String × Node α)) : entryLeaves es = es.flatMap fun e => e.2.leaves := by
  induction es with
  | nil => rfl
  | cons e es ih => rw [entryLeaves, ih, List.flatMap_cons]

def leafCount (n : Node α) : Nat := n.leaves.length

def numel (n : Node α) : Nat := word ((n.leaves.map (·.shape.numel)).foldr (· + ·) 0)

def nnz (n : Node α) : Nat := (n.leaves.map (·.shape.nnz)).foldr (· + ·) 0

/-- The cells of all leaves can be counted, present or not. -/
def InRange (n : Node α) : Prop := (n.leaves.map (·.shape.numel)).foldr (· + ·) 0 < countBound

instance (n : Node α) : Decidable n.InRange := inferInstanceAs (Decidable (_ < _))

variable [DecidableEq α]

mutual
def decEq : (a b : Node α) → Decidable (a = b)
  | .leaf l, .leaf m => if h : l = m then .isTrue (h ▸ rfl) else .isFalse fun e => h (Node.leaf.inj e)
  | .list ns, .list ms =>
    match decEqItems ns ms with
    | .isTrue h => .isTrue (h ▸ rfl)
    | .isFalse h => .isFalse fun e => h (Node.list.inj e)
  | .group ⟨es, o⟩, .group ⟨fs, p⟩ =>
    match decEqEntries es fs with
    | .isTrue h =>
      if h' : o = p then .isTrue (h ▸ h' ▸ rfl) else .isFalse fun e => h' (Group.mk.inj (Node.group.inj e)).2
    | .isFalse h => .isFalse fun e => h (Group.mk.inj (Node.group.inj e)).1
  | .leaf _, .list _ | .leaf _, .group _ | .list _, .leaf _ | .list _, .group _ | .group _, .leaf _
  | .group _, .list _ => .isFalse nofun

def decEqItems : (as bs : List (Node α)) → Decidable (as = bs)
  | [], [] => .isTrue rfl
  | a :: as, b :: bs =>
    match decEq a b, decEqItems as bs with
    | .isTrue h, .isTrue h' => .isTrue (h ▸ h' ▸ rfl)
    | .isFalse h, _ => .isFalse fun e => h (List.cons.inj e).1
    | _, .isFalse h => .isFalse fun e => h (List.cons.inj e).2
  | [], _ :: _ | _ :: _, [] => .isFalse nofun

def decEqEntries : (as bs : List (String × Node α)) → Decidable (as = bs)
  | [], [] => .isTrue rfl
  | (s, a) :: as, (t, b) :: bs =>
    match decEq a b, decEqEntries as bs with
    | .isTrue h, .isTrue h' =>
      if h'' : s = t then .isTrue (h ▸ h' ▸ h'' ▸ rfl)
      else .isFalse fun e => h'' (Prod.mk.inj (List.cons.inj e).1).1
    | .isFalse h, _ => .isFalse fun e => h (Prod.mk.inj (List.cons.inj e).1).2
    | _, .isFalse h => .isFalse fun e => h (List.cons.inj e).2
  | [], _ :: _ | _ :: _, [] => .isFalse nofun
end

instance : DecidableEq (Node α) := decEq

end Node
end QuantityLayout
