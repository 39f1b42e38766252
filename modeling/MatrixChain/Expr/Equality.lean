import MatrixChain.Expr.Basic

/-!
# Equality of expressions

Leaves are equal when they are one leaf, or agree in label, shape and entries. Products are equal to products
and sums to sums with equal operands, and an unknown node only to itself. Equal expressions have one digest.
-/

namespace MatrixChain
namespace Expr

variable {α : Type}

def same [BEq α] : Expr α → Expr α → Bool
  | leaf id matrix label, leaf id' matrix' label' => id == id' || (label == label' && matrix.same matrix')
  | product _ left right _, product _ left' right' _ => left.same left' && right.same right'
  | sum _ left right _, sum _ left' right' _ => left.same left' && right.same right'
  | foreign node, foreign node' => node.id == node'.id
  | _, _ => false

instance [BEq α] : BEq (Expr α) where
  beq := same

/-- What hashing sees of an expression: no entries, and not whether a node is a product or a sum. -/
inductive Digest where
  | leaf (label : Option String) (shape : Shape)
  | pair (left right : Digest)
  | identity (id : NodeId)
deriving DecidableEq

def digest : Expr α → Digest
  | leaf _ matrix label => .leaf label matrix.shape
  | product _ left right _ => .pair left.digest right.digest
  | sum _ left right _ => .pair left.digest right.digest
  | foreign node => .identity node.id

end Expr
end MatrixChain
