import MatrixChain.Evaluation.Pool

/-!
# Evaluation strategies
-/

namespace MatrixChain

inductive Strategy where
  | sequential
  | threaded
deriving DecidableEq

namespace Strategy

def all : List Strategy :=
  [sequential, threaded]

def name : Strategy → String
  | sequential => "sequential"
  | threaded => "threaded"

def ofName? (name : String) : Option Strategy :=
  all.find? fun strategy => strategy.name == name

def named (name : String) : Except Fault Strategy :=
  match ofName? name with
  | some strategy => pure strategy
  | none => throw (.invalidStrategyName name)

@[simp] theorem ofName?_name (strategy : Strategy) : ofName? strategy.name = some strategy := by
  cases strategy <;> rfl

end Strategy

namespace Expr

variable {α : Type} [Zero α] [Add α] [Mul α]

@[specialize]
def evaluate (strategy : Strategy) (workers : Option Int) (e : Expr α) : Except Fault (DenseMatrix α) :=
  match strategy with
  | .sequential => e.evaluateInOrder
  | .threaded => e.evaluateByLevels .oneByOne workers

end Expr
end MatrixChain
