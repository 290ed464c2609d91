/-!
Cells of a matrix in column-major order, and lists of cells put in it, each cell once: by inserting them one by one, or
by sorting them and then dropping each one that repeats the one in front of it.
-/
set_option autoImplicit false

namespace QuantityLayout

structure Cell where
  row : Nat
  col : Nat
  deriving DecidableEq, Repr

namespace Cell

/-- By column, then by row. -/
def Before (a b : Cell) : Prop := a.col < b.col ∨ a.col = b.col ∧ a.row < b.row

instance (a b : Cell) : Decidable (a.Before b) := inferInstanceAs (Decidable (_ ∨ _ ∧ _))

theorem Before.trans {a b c : Cell} (h : a.Before b) (h' : b.Before c) : a.Before c := by
  unfold Before at *; omega

theorem Before.irrefl (a : Cell) : ¬ a.Before a := by unfold Before; omega

theorem before_of_not {a b : Cell} (hne : a ≠ b) (h : ¬ a.Before b) : b.Before a := by
  have : a.row ≠ b.row ∨ a.col ≠ b.col := by
    cases a; cases b; simp at hne ⊢; omega
  unfold Before at *; omega

def insert (c : Cell) : List Cell → List Cell
  | [] => [c]
  | d :: ds => if c = d then d :: ds else if c.Before d then c :: d :: ds else d :: insert c ds

@[simp] theorem mem_insert {c x : Cell} {ds : List Cell} : x ∈ insert c ds ↔ x = c ∨ x ∈ ds := by
  induction ds with
  | nil => simp [insert]
  | cons d ds ih =>
    unfold insert
    split
    · next h => simp [h]
    · split
      · simp
      · simp only [List.mem_cons, ih]; grind

theorem pairwise_insert {c : Cell} {ds : List Cell} (h : ds.Pairwise Before) :
    (insert c ds).Pairwise Before := by
  induction ds with
  | nil => simp [insert]
  | cons d ds ih =>
    obtain ⟨hd, hds⟩ := List.pairwise_cons.mp h
    unfold insert
    split
    · exact h
    · next hne =>
      split
      · next hb =>
        refine List.pairwise_cons.mpr ⟨?_, h⟩
        intro x hx
        rcases List.mem_cons.mp hx with rfl | hx
        · exact hb
        · exact hb.trans (hd x hx)
      · next hb =>
        refine List.pairwise_cons.mpr ⟨?_, ih hds⟩
        intro x hx
        rcases mem_insert.mp hx with rfl | hx
        · exact before_of_not hne hb
        · exact hd x hx

/-- The given cells in column-major order, each once. -/
def arrange (cs : List Cell) : List Cell := cs.foldr insert []

@[simp] theorem mem_arrange {x : Cell} {cs : List Cell} : x ∈ arrange cs ↔ x ∈ cs := by
  induction cs with
  | nil => simp [arrange]
  | cons c cs ih => simp only [arrange, List.foldr_cons, mem_insert, List.mem_cons] at ih ⊢; rw [ih]

theorem pairwise_arrange (cs : List Cell) : (arrange cs).Pairwise Before := by
  induction cs with
  | nil => simp [arrange]
  | cons c cs ih => exact pairwise_insert ih

def all (rows cols : Nat) : List Cell :=
  (List.range cols).flatMap fun c => (List.range rows).map fun r => ⟨r, c⟩

@[simp] theorem mem_all {rows cols : Nat} {x : Cell} : x ∈ all rows cols ↔ x.row < rows ∧ x.col < cols := by
  simp only [all, List.mem_flatMap, List.mem_range, List.mem_map]
  constructor
  · rintro ⟨c, hc, r, hr, rfl⟩; exact ⟨hr, hc⟩
  · rintro ⟨hr, hc⟩; exact ⟨x.col, hc, x.row, hr, rfl⟩

/-- Cells that are written down column by column, with increasing rows, are in sequence. -/
theorem pairwise_columns {rows : Nat → List Nat} (h : ∀ c, (rows c).Pairwise (· < ·)) (cols : Nat) :
    ((List.range cols).flatMap fun c => (rows c).map fun r => (⟨r, c⟩ : Cell)).Pairwise Before := by
  refine List.pairwise_flatMap.mpr ⟨fun c _ => ?_, ?_⟩
  · refine List.pairwise_map.mpr ((h c).imp ?_)
    intro a b h; exact .inr ⟨rfl, h⟩
  · refine List.pairwise_lt_range.imp ?_
    intro a b h x hx y hy
    simp only [List.mem_map] at hx hy
    obtain ⟨_, _, rfl⟩ := hx
    obtain ⟨_, _, rfl⟩ := hy
    exact .inl h

theorem pairwise_all (rows cols : Nat) : (all rows cols).Pairwise Before :=
  pairwise_columns (fun _ => List.pairwise_lt_range) cols

/-- The columns are compared first, and equal cells are in order either way. -/
def atMost (a b : Cell) : Bool := a.col < b.col || a.col == b.col && a.row ≤ b.row

def sort (cs : List Cell) : List Cell := cs.mergeSort atMost

def keepAfter (kept : Cell) : List Cell → List Cell
  | [] => []
  | c :: cs => if c = kept then keepAfter kept cs else c :: keepAfter c cs

/-- Only neighbours are compared. -/
def dropRepeats : List Cell → List Cell
  | [] => []
  | c :: cs => c :: keepAfter c cs

end Cell
end QuantityLayout
