import MatrixChain.Expr.Cost

/-!
# Levels of a tree

The nodes of a tree by their height above the leaves. A node needs only nodes of lower levels, so the nodes of
one level can be evaluated in any order.
-/

namespace MatrixChain
namespace Expr

variable {α : Type}

abbrev Levels (α : Type) := Array (Array (Expr α))

def heightAbove (operandHeights : List Nat) : Nat :=
  match operandHeights.max? with
  | none => 0
  | some highest => highest + 1

/-- Add a node to the level of its height, which may be one above those that are there. -/
def Levels.insert (levels : Levels α) (height : Nat) (e : Expr α) : Levels α :=
  let levels := if height = levels.size then levels.push #[] else levels
  levels.modify height (·.push e)

def enterLevel (e : Expr α) (operandHeights : List Nat) : StateM (Levels α) Nat :=
  let height := heightAbove operandHeights
  modifyGet fun levels => (height, Levels.insert levels height e)

/-- Lowest level first and each level in post-order, a shared node at every place. -/
def levels (e : Expr α) : Levels α :=
  ((e.foldChildren enterLevel : StateM (Levels α) Nat).run #[]).2

end Expr
end MatrixChain
