import MatrixChain.Fault

/-!
# Building expressions

Constructors that check the shapes of their operands and give every new node an identity of its own.
-/

namespace MatrixChain

/-- Construction hands out identities in ascending order. -/
abbrev Build := StateT NodeId (Except Fault)

def freshId : Build NodeId :=
  modifyGet fun next => (next, next + 1)

namespace Expr

variable {α : Type}

def makeLeaf (matrix : DenseMatrix α) (label : Option String) : Build (Expr α) := do
  pure (leaf (← freshId) matrix label)

def multiply (left right : Expr α) : Build (Expr α) :=
  if left.shape.cols = right.shape.rows then do
    pure (product (← freshId) left right (left.shape.times right.shape))
  else throw (.shapeMismatch ⟨"multiply", left.shape, right.shape, none⟩)

theorem multiply_run {left right : Expr α} (h : left.shape.cols = right.shape.rows) (next : NodeId) :
    (multiply left right).run next =
      .ok (product next left right (left.shape.times right.shape), next + 1) := by
  rw [multiply, if_pos h]
  rfl

theorem multiply_run_of_ne {left right : Expr α} (h : left.shape.cols ≠ right.shape.rows) (next : NodeId) :
    (multiply left right).run next =
      .error (.shapeMismatch ⟨"multiply", left.shape, right.shape, none⟩) := by
  rw [multiply, if_neg h]
  rfl

def add (left right : Expr α) : Build (Expr α) :=
  if left.shape = right.shape then do
    pure (sum (← freshId) left right left.shape)
  else throw (.shapeMismatch ⟨"add", left.shape, right.shape, none⟩)

theorem add_run {left right : Expr α} (h : left.shape = right.shape) (next : NodeId) :
    (add left right).run next = .ok (sum next left right left.shape, next + 1) := by
  rw [add, if_pos h]
  rfl

theorem add_run_of_ne {left right : Expr α} (h : left.shape ≠ right.shape) (next : NodeId) :
    (add left right).run next = .error (.shapeMismatch ⟨"add", left.shape, right.shape, none⟩) := by
  rw [add, if_neg h]
  rfl

end Expr
end MatrixChain
