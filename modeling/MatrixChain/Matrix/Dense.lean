import MatrixChain.Shape

/-!
# Dense matrices

Entries row by row over any scalars that have a zero, a sum and a product. Products add up from zero, left to
right, so that over inexact scalars there is one answer.
-/

namespace MatrixChain

structure DenseMatrix (α : Type) where
  rows : Nat
  cols : Nat
  entries : Vector α (rows * cols)

namespace DenseMatrix

variable {α : Type}

def shape (a : DenseMatrix α) : Shape :=
  ⟨a.rows, a.cols⟩

section Places

variable {rows cols : Nat}

theorem place_lt (i : Fin rows) (j : Fin cols) : i.val * cols + j.val < rows * cols :=
  calc i.val * cols + j.val < i.val * cols + cols := Nat.add_lt_add_left j.isLt _
    _ = (i.val + 1) * cols := (Nat.succ_mul i.val cols).symm
    _ ≤ rows * cols := Nat.mul_le_mul_right cols i.isLt

def place (i : Fin rows) (j : Fin cols) : Fin (rows * cols) :=
  ⟨i.val * cols + j.val, place_lt i j⟩

theorem cols_pos (k : Fin (rows * cols)) : 0 < cols :=
  Nat.pos_of_ne_zero fun h => by have := k.isLt; simp [h] at this

def rowOf (k : Fin (rows * cols)) : Fin rows :=
  ⟨k.val / cols, Nat.div_lt_of_lt_mul (Nat.mul_comm rows cols ▸ k.isLt)⟩

def colOf (k : Fin (rows * cols)) : Fin cols :=
  ⟨k.val % cols, Nat.mod_lt _ (cols_pos k)⟩

@[simp] theorem rowOf_place (i : Fin rows) (j : Fin cols) : rowOf (place i j) = i := by
  ext
  have hcols : 0 < cols := Nat.lt_of_le_of_lt (Nat.zero_le _) j.isLt
  simp only [rowOf, place]
  rw [Nat.mul_comm, Nat.mul_add_div hcols, Nat.div_eq_of_lt j.isLt, Nat.add_zero]

@[simp] theorem colOf_place (i : Fin rows) (j : Fin cols) : colOf (place i j) = j := by
  ext
  simp only [colOf, place]
  rw [Nat.mul_comm, Nat.mul_add_mod, Nat.mod_eq_of_lt j.isLt]

@[simp] theorem place_rowOf_colOf (k : Fin (rows * cols)) : place (rowOf k) (colOf k) = k := by
  ext
  simp only [place, rowOf, colOf]
  exact Nat.div_add_mod' k.val cols

end Places

@[inline]
def entry (a : DenseMatrix α) (i : Fin a.rows) (j : Fin a.cols) : α :=
  a.entries[place i j]

@[inline]
def ofFn (rows cols : Nat) (f : Fin rows → Fin cols → α) : DenseMatrix α :=
  ⟨rows, cols, Vector.ofFn fun k => f (rowOf k) (colOf k)⟩

@[simp] theorem ofFn_rows (rows cols : Nat) (f : Fin rows → Fin cols → α) :
    (ofFn rows cols f).rows = rows := rfl

@[simp] theorem ofFn_cols (rows cols : Nat) (f : Fin rows → Fin cols → α) :
    (ofFn rows cols f).cols = cols := rfl

@[simp] theorem ofFn_entry (rows cols : Nat) (f : Fin rows → Fin cols → α) (i : Fin rows) (j : Fin cols) :
    (ofFn rows cols f).entry i j = f i j := by
  have h : (ofFn rows cols f).entry i j = f (rowOf (place i j)) (colOf (place i j)) :=
    Vector.getElem_ofFn (place_lt i j)
  rw [h, rowOf_place, colOf_place]

theorem ofFn_of_entry (a : DenseMatrix α) : ofFn a.rows a.cols a.entry = a := by
  obtain ⟨rows, cols, entries⟩ := a
  have h : (Vector.ofFn fun k => entries[place (rowOf k) (colOf k)]) = entries := by
    ext k hk
    simp
  simp only [ofFn, entry, h]

/-- The inner product of row `i` and column `j`, summed from zero, left to right. -/
@[inline]
def dot [Zero α] [Add α] [Mul α] (a b : DenseMatrix α) (inner : a.cols = b.rows)
    (i : Fin a.rows) (j : Fin b.cols) : α :=
  Fin.foldl a.cols (fun acc k => acc + a.entry i k * b.entry (k.cast inner) j) 0

@[specialize]
def mul [Zero α] [Add α] [Mul α] (a b : DenseMatrix α) (inner : a.cols = b.rows) : DenseMatrix α :=
  ofFn a.rows b.cols fun i j => dot a b inner i j

@[simp] theorem mul_rows [Zero α] [Add α] [Mul α] (a b : DenseMatrix α) (inner : a.cols = b.rows) :
    (a.mul b inner).rows = a.rows := rfl

@[simp] theorem mul_cols [Zero α] [Add α] [Mul α] (a b : DenseMatrix α) (inner : a.cols = b.rows) :
    (a.mul b inner).cols = b.cols := rfl

@[simp] theorem mul_shape [Zero α] [Add α] [Mul α] (a b : DenseMatrix α) (inner : a.cols = b.rows) :
    (a.mul b inner).shape = a.shape.times b.shape := rfl

@[specialize]
def add [Add α] (a b : DenseMatrix α) (rows : a.rows = b.rows) (cols : a.cols = b.cols) : DenseMatrix α :=
  ofFn a.rows a.cols fun i j => a.entry i j + b.entry (i.cast rows) (j.cast cols)

@[simp] theorem add_shape [Add α] (a b : DenseMatrix α) (rows : a.rows = b.rows) (cols : a.cols = b.cols) :
    (a.add b rows cols).shape = a.shape := rfl

/-- Equal sides and entries that `==` finds equal, so a matrix with a NaN entry is not the same as itself. -/
@[specialize]
def same [BEq α] (a b : DenseMatrix α) : Bool :=
  if rows : a.rows = b.rows then
    if cols : a.cols = b.cols then
      (List.finRange (a.rows * a.cols)).all fun k =>
        a.entry (rowOf k) (colOf k) == b.entry ((rowOf k).cast rows) ((colOf k).cast cols)
    else false
  else false

def toLists (a : DenseMatrix α) : List (List α) :=
  (List.finRange a.rows).map fun i => (List.finRange a.cols).map fun j => a.entry i j

end DenseMatrix
end MatrixChain
