import MatrixChain.Fault
import MatrixChain.Fold

/-!
# The cost of an expression

Scalar multiplications that an expression takes as it is associated, a shared node counting at every place.
-/

namespace MatrixChain
namespace Expr

variable {α : Type} {m : Type → Type} [Monad m]

def childrenOf (e : Expr α) : m { children : List (Expr α) // ∀ o ∈ children, o.Smaller e } :=
  pure ⟨e.children, fun _ => size_lt_of_mem_children⟩

/-- Combine the values of its operands into the value of each node, in post-order. -/
@[specialize]
def foldChildren {β : Type} (combine : Expr α → List β → m β) (e : Expr α) : m β :=
  Fold.fold childrenOf combine e e.acc_smaller

def work : Expr α → Except Fault Int
  | leaf .. => pure 0
  | product _ left right _ => pure (left.shape.work right.shape)
  | sum .. => pure 0
  | foreign node => throw (.unknownNode .costing node)

def addWork (e : Expr α) (operandCosts : List Int) : Except Fault Int := do
  pure ((← e.work) + total operandCosts)

def cost (e : Expr α) : Except Fault Int :=
  e.foldChildren addWork

end Expr
end MatrixChain
