import MatrixChain.Evaluation.Strategy
import MatrixChain.Expr.Equality
import MatrixChain.Expr.Trace
import MatrixChain.Intake.Datum
import MatrixChain.Place

/-!
# Nodes at large

A node is an expression or a bare one, which is of no particular class: it has an identity and nothing else, and
whatever asks for its shape, operands or text fails. Operands offered to a constructor need not even be nodes.
-/

namespace MatrixChain

inductive Node (α : Type) where
  | expr (e : Expr α)
  | bare (id : NodeId)

namespace Node

variable {α : Type}

def id : Node α → NodeId
  | expr e => e.id
  | bare id => id

def kind : Node α → String
  | expr e => e.kind
  | bare _ => "Expression"

def toExpr : Node α → Except Fault (Expr α)
  | expr e => pure e
  | bare _ => throw .unspecified

def same [BEq α] : Node α → Node α → Bool
  | expr a, expr b => a.same b
  | bare a, bare b => a == b
  | _, _ => false

instance [BEq α] : BEq (Node α) where
  beq := same

def digest : Node α → Expr.Digest
  | expr e => e.digest
  | bare id => .identity id

/-- One node for each class of equal ones in the list. -/
def distinct [BEq α] (nodes : List (Node α)) : List (Node α) :=
  nodes.eraseDups

def child (n : Node α) (index : Int) : Except Fault (Expr α) := do
  match itemAt? (← n.toExpr).children.toArray index with
  | some child => pure child
  | none => throw (.indexBeyond .tuple)

def matrix : Node α → Except Fault (DenseMatrix α)
  | expr (.leaf _ matrix _) => pure matrix
  | n => throw (.noAttribute n.kind "matrix")

/-- What every class of nodes computes from others, and what every class can do. -/
def computed : List String := ["rows", "cols", "shape"]

def operations : List String := ["children", "deparse"]

/-- Why a field of a node cannot be given another value. Nodes of an unknown class take all but computed ones. -/
def refusal? (n : Node α) (field : String) : Option Fault :=
  let fixedAmong (fields : List String) := if field ∈ fields then Fault.fixedField field else .noField
  match n with
  | expr (.leaf ..) => some (fixedAmong ["matrix", "label"])
  | expr (.product ..) => some (fixedAmong ["left", "right", "rows", "cols"])
  | expr (.sum ..) => some (fixedAmong ["left", "right", "rows", "cols"])
  | expr (.foreign node) => if field ∈ computed then some (.noSetter node.kind field) else none
  | bare _ =>
    if field ∈ computed then some (.noSetter n.kind field)
    else if field ∈ operations then some (.fixedAttribute n.kind field)
    else some (.noAttribute n.kind field)

def run : Node α → Except Fault (List (Expr α))
  | expr e => Chain.run e
  | n => throw (Chain.broken [] (.rootNotProduct n.kind))

def leading : List (Node α) → List (Expr α)
  | expr e :: ns => e :: leading ns
  | _ => []

def dimensionsOf (nodes : List (Node α)) : Except Fault (List Int) := do
  let known := leading nodes
  if known.length = nodes.length then Chain.dimensionsOf known
  else
    if !known.isEmpty then discard (Chain.dimensionsOf known)
    throw .unspecified

/-- The operands that a node looks at: a product at their shapes in turn, a sum first at how many there are. -/
def regard (e : Expr α) (operands : List (Node α)) : Except Fault (List (Expr α)) := do
  match e with
  | .product .. =>
    discard (dimensionsOf operands)
    operands.mapM toExpr
  | .sum .. =>
    if operands.length ≠ 2 then throw (.operandArity operands.length)
    operands.mapM toExpr
  | _ => pure []

def withOperands (n : Node α) (operands : List (Node α)) : Build (Expr α) := do
  let e ← (n.toExpr : Except Fault (Expr α))
  let regarded ← (regard e operands : Except Fault (List (Expr α)))
  pure (← (e.withOperands false regarded).run []).1

@[specialize]
def evaluate [Zero α] [Add α] [Mul α] (n : Node α) (strategyName : String) (workers : Option Int)
    (stored : NodeId → Option (DenseMatrix α)) : Except Fault (DenseMatrix α) := do
  match Strategy.ofName? strategyName with
  | none => throw (.noSuchStrategy strategyName)
  | some strategy => ((← n.toExpr).withMatrices stored).evaluate strategy workers

end Node

/-- What may be offered to a constructor: besides nodes and arrays, plain values with the names of their types. -/
inductive Operand (α : Type) where
  | node (n : Node α)
  | array (dimensions : Nat)
  | value (type : String) (value : Intake.Datum)

namespace Operand

variable {α : Type}

def same [BEq α] : Operand α → Operand α → Bool
  | node a, node b => a.same b
  | value _ a, value _ b => a.same b
  | _, _ => false

def toNode : Operand α → Except Fault (Node α)
  | node n => pure n
  | array dimensions => throw (.unsupported (.array dimensions))
  | value type _ => throw (.unsupported (.value type))

/-- The left operand is checked before the right one, and both before `build` compares their shapes. -/
def combine (build : Expr α → Expr α → Build (Expr α)) (left right : Operand α) : Build (Expr α) := do
  let left ← (left.toNode : Except Fault (Node α))
  let right ← (right.toNode : Except Fault (Node α))
  build (← (left.toExpr : Except Fault (Expr α))) (← (right.toExpr : Except Fault (Expr α)))

end Operand
end MatrixChain
