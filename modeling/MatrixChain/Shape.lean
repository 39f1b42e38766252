/-!
# Shapes

The extent of a matrix or of an expression, and the work that products take. Sides are integers because an unknown
node may claim any pair.
-/

namespace MatrixChain

structure Shape where
  rows : Int
  cols : Int
deriving DecidableEq

namespace Shape

def text (s : Shape) : String :=
  toString s.rows ++ "x" ++ toString s.cols

def tupleText (s : Shape) : String :=
  "(" ++ toString s.rows ++ ", " ++ toString s.cols ++ ")"

def times (left right : Shape) : Shape :=
  ⟨left.rows, right.cols⟩

@[simp] theorem times_rows (left right : Shape) : (left.times right).rows = left.rows := rfl
@[simp] theorem times_cols (left right : Shape) : (left.times right).cols = right.cols := rfl

/-- Scalar multiplications that the product of operands of these shapes takes. -/
def work (left right : Shape) : Int :=
  left.rows * left.cols * right.cols

end Shape

def total (works : List Int) : Int :=
  works.foldr (· + ·) 0

@[simp] theorem total_nil : total [] = 0 := rfl

@[simp] theorem total_cons (work : Int) (works : List Int) : total (work :: works) = work + total works := rfl

@[simp] theorem total_append (works works' : List Int) : total (works ++ works') = total works + total works' := by
  induction works with
  | nil => exact (Int.zero_add _).symm
  | cons work works ih => rw [List.cons_append, total_cons, total_cons, ih, Int.add_assoc]

end MatrixChain
