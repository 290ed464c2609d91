set_option autoImplicit false

namespace QuantityLayout

theorem length_grid {β : Type} (m n : Nat) (f : Fin m → Fin n → β) :
    ((List.finRange m).flatMap fun i => (List.finRange n).map (f i)).length = m * n := by
  simp [List.length_flatMap, List.map_const']

/-- Entries row by row. -/
structure Matrix (β : Type) where
  rows : Nat
  cols : Nat
  data : List β
  fits : data.length = rows * cols
  deriving DecidableEq

/-- Entries column by column. -/
structure ColumnMatrix (β : Type) where
  rows : Nat
  cols : Nat
  data : List β
  fits : data.length = rows * cols
  deriving DecidableEq

theorem grid_lt {m n : Nat} (i : Fin m) (j : Fin n) : i.val * n + j.val < m * n := by
  have h := Nat.mul_le_mul_right n (Nat.succ_le_of_lt i.isLt)
  rw [Nat.succ_mul] at h
  omega

namespace Matrix

variable {β : Type}

def ofData? (rows cols : Nat) (data : List β) : Option (Matrix β) :=
  if h : data.length = rows * cols then some ⟨rows, cols, data, h⟩ else none

def entry (m : Matrix β) (r : Fin m.rows) (c : Fin m.cols) : β :=
  m.data.get ⟨r.val * m.cols + c.val, m.fits ▸ grid_lt r c⟩

def value? (m : Matrix β) (r c : Nat) : Option β :=
  if h : r < m.rows ∧ c < m.cols then some (m.entry ⟨r, h.1⟩ ⟨c, h.2⟩) else none

def ofFn (rows cols : Nat) (f : Fin rows → Fin cols → β) : Matrix β :=
  ⟨rows, cols, (List.finRange rows).flatMap fun r => (List.finRange cols).map (f r), length_grid rows cols f⟩

end Matrix

namespace ColumnMatrix

variable {β : Type}

def ofData? (rows cols : Nat) (data : List β) : Option (ColumnMatrix β) :=
  if h : data.length = rows * cols then some ⟨rows, cols, data, h⟩ else none

def entry (m : ColumnMatrix β) (r : Fin m.rows) (c : Fin m.cols) : β :=
  m.data.get ⟨c.val * m.rows + r.val, m.fits ▸ Nat.mul_comm m.cols m.rows ▸ grid_lt c r⟩

def value? (m : ColumnMatrix β) (r c : Nat) : Option β :=
  if h : r < m.rows ∧ c < m.cols then some (m.entry ⟨r, h.1⟩ ⟨c, h.2⟩) else none

def ofFn (rows cols : Nat) (f : Fin rows → Fin cols → β) : ColumnMatrix β :=
  ⟨rows, cols, (List.finRange cols).flatMap fun c => (List.finRange rows).map fun r => f r c,
    (length_grid cols rows fun c r => f r c).trans (Nat.mul_comm cols rows)⟩

end ColumnMatrix

def Matrix.toColumns {β : Type} (m : Matrix β) : ColumnMatrix β := .ofFn m.rows m.cols m.entry

def ColumnMatrix.toRows {β : Type} (m : ColumnMatrix β) : Matrix β := .ofFn m.rows m.cols m.entry

end QuantityLayout
