import MatrixChain.Expr.Cost

/-!
# Realizing nodes as matrices

The matrix of a node from the matrices of its operands, whose shapes are checked against each other and then
against the shape that the node declares, and the evaluation of a tree one node after the other.
-/

namespace MatrixChain
namespace Expr

variable {α : Type}

section Realization

variable [Zero α] [Add α] [Mul α]

@[specialize]
def realizeProduct (declared : Shape) (a b : DenseMatrix α) : Except Fault (DenseMatrix α) :=
  if inner : a.cols = b.rows then
    if a.shape.times b.shape = declared then pure (a.mul b inner)
    else throw (.shapeMismatch ⟨"multiply", a.shape, b.shape, some declared⟩)
  else throw (.shapeMismatch ⟨"multiply", a.shape, b.shape, none⟩)

@[specialize]
def realizeSum (declared : Shape) (a b : DenseMatrix α) : Except Fault (DenseMatrix α) :=
  if sides : a.rows = b.rows ∧ a.cols = b.cols then
    if a.shape = declared then pure (a.add b sides.1 sides.2)
    else throw (.shapeMismatch ⟨"add", a.shape, b.shape, some declared⟩)
  else throw (.shapeMismatch ⟨"add", a.shape, b.shape, none⟩)

/-- The matrix of a node over realized operands; a leaf has its own, whatever it is handed. -/
@[specialize]
def realize : Expr α → List (DenseMatrix α) → Except Fault (DenseMatrix α)
  | leaf _ matrix _, _ => pure matrix
  | product _ _ _ shape, [a, b] => realizeProduct shape a b
  | sum _ _ _ shape, [a, b] => realizeSum shape a b
  | foreign node, _ => throw (.unknownNode .evaluating node)
  | _, operands => throw (.operandArity operands.length)

@[specialize]
def evaluateInOrder (e : Expr α) : Except Fault (DenseMatrix α) :=
  e.foldChildren realize

end Realization

/-- The tree with other matrices stored in some of its leaves. Products and sums keep their shapes. -/
def withMatrices (stored : NodeId → Option (DenseMatrix α)) : Expr α → Expr α
  | leaf id matrix label => leaf id ((stored id).getD matrix) label
  | product id left right shape => product id (left.withMatrices stored) (right.withMatrices stored) shape
  | sum id left right shape => sum id (left.withMatrices stored) (right.withMatrices stored) shape
  | foreign node => foreign node

end Expr
end MatrixChain
