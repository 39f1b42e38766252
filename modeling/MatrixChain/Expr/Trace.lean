import MatrixChain.Expr.Cost
import MatrixChain.Reassociation

/-!
# Traces of folds

The calls that a fold makes, in order. A call is the node and the numbers of the calls that gave its operands.
-/

namespace MatrixChain
namespace Expr

variable {α : Type}

abbrev Trace (α : Type) := Array (Expr α × List Nat)

def note {m : Type → Type} [Monad m] (e : Expr α) (operands : List Nat) : StateT (Trace α) m Nat :=
  modifyGet fun trace => (trace.size, trace.push (e, operands))

/-- The calls of a fold over children, and the number of the root's call. -/
def traceChildren (e : Expr α) : Nat × Trace α :=
  Id.run ((e.foldChildren note).run #[])

def traceRuns (e : Expr α) : Except Fault (Nat × Trace α) :=
  (Fold.fold runOperandsOf note e e.acc_smaller).run #[]

end Expr
end MatrixChain
