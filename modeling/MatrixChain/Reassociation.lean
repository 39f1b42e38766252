import MatrixChain.Chain.Association
import MatrixChain.Chain.Run
import MatrixChain.Expr.Build
import MatrixChain.Expr.Cost

/-!
# Reassociating products

Every maximal run of products is put into its cheapest association, the operands of a run before the run. Leaves
stay the same leaves; products and sums are built anew at every place.
-/

namespace MatrixChain

/-- What became of one run: its boundaries, and its cost before and after. -/
structure RunRecord where
  dimensions : List Int
  before : Int
  after : Int
deriving DecidableEq

def RunRecord.text (r : RunRecord) : String :=
  "Reassociating chain of " ++ toString (r.dimensions.length - 1) ++ " operands " ++
    Text.tuple (r.dimensions.map toString) ++ ": " ++ toString r.before ++
    " scalar multiplications down to " ++ toString r.after

/-- Construction that may also keep a record of each run, the latest first. -/
abbrev Reassociating := StateT (List RunRecord) Build

namespace Expr

variable {α : Type}

/-- The nodes to deal with before a node: both operands of a sum, all operands of a run of products. -/
def runOperandsOf {m : Type → Type} [Monad m] [MonadExcept Fault m] (e : Expr α) :
    m { operands : List (Expr α) // ∀ o ∈ operands, o.Smaller e } :=
  match e with
  | leaf .. => pure ⟨[], by simp⟩
  | sum _ left right _ => pure ⟨[left, right], fun _ h => size_lt_of_mem_children h⟩
  | e@h:(product ..) => pure ⟨e.factors, fun _ ho => by subst h; exact size_lt_of_mem_factors ho⟩
  | foreign node => throw (.unknownNode .rearranging node)

def runCost (e : Expr α) : Except Fault Int := do
  let whole ← e.cost
  let operands ← (← Chain.run e).mapM cost
  pure (whole - total operands)

def recordRun (e : Expr α) (t : Tableau) : Reassociating Unit := do
  let before ← (e.runCost : Except Fault Int)
  modify (⟨t.dimensions, before, t.cost⟩ :: ·)

/-- The cheapest product of the operands, which stand for those of the run `e`. -/
def regroup (recording : Bool) (e : Expr α) (operands : List (Expr α)) : Reassociating (Expr α) := do
  let t ← (Chain.dimensionsOf operands >>= Tableau.solve : Except Fault Tableau)
  if recording then recordRun e t
  t.associate operands.toArray fun left right => (multiply left right : Build (Expr α))

def withOperands (recording : Bool) (e : Expr α) (operands : List (Expr α)) : Reassociating (Expr α) :=
  match e with
  | leaf .. => pure e
  | sum .. =>
    match operands with
    | [left, right] => (add left right : Build (Expr α))
    | _ => throw (.operandArity operands.length)
  | product .. => regroup recording e operands
  | foreign node => throw (.unknownNode .rearranging node)

def reassociating (recording : Bool) (e : Expr α) : Reassociating (Expr α) :=
  Fold.fold runOperandsOf (withOperands recording) e e.acc_smaller

def reassociate (e : Expr α) : Build (Expr α) := do
  pure (← (e.reassociating false).run []).1

def reassociateRecorded (e : Expr α) : Build (Expr α × List RunRecord) := do
  let (result, records) ← (e.reassociating true).run []
  pure (result, records.reverse)

end Expr
end MatrixChain
