import MatrixChain.Chain.Dimensions
import MatrixChain.Expr.Infix

/-!
# Runs of products

The operands of a maximal run of products, in order, and the boundaries of a list of operands.
-/

namespace MatrixChain
namespace Chain

variable {α : Type}

def run : Expr α → Except Fault (List (Expr α))
  | e@(.product ..) => pure e.factors
  | e => throw (broken [] (.rootNotProduct e.kind))

/-- Add the column counts of further operands to the boundaries in `done`, the last one first. -/
def extendBoundaries : List Int → Int → List (Expr α) → Except Fault (List Int)
  | done, last, [] => pure (last :: done).reverse
  | done, last, e :: es =>
    if e.shape.rows = last then extendBoundaries (last :: done) e.shape.cols es
    else
      throw (broken ((e.shape.rows :: last :: done).reverse)
        (.rowsDiffer e.infixText e.shape.rows last))

/-- The boundaries of a chain of operands, each with the rows that the columns before it ask for. -/
def dimensionsOf : List (Expr α) → Except Fault (List Int)
  | [] => throw (broken [] .noOperands)
  | e :: es => extendBoundaries [] e.shape.rows (e :: es)

end Chain
end MatrixChain
