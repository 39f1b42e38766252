import MatrixChain.Expr.Basic
import MatrixChain.Intake.Misfit

/-!
# Faults

Everything that the library refuses, by cause, and the one place that words it.
-/

namespace MatrixChain

structure ShapeMismatch where
  operation : String
  left : Shape
  right : Shape
  declared : Option Shape
deriving DecidableEq

namespace ShapeMismatch

def message (m : ShapeMismatch) : String :=
  let operands := "left operand of shape " ++ m.left.text ++ " and right operand of shape " ++ m.right.text
  match m.declared with
  | some declared =>
    "Expected the operands of " ++ m.operation ++ " to produce the declared shape " ++ declared.text ++
      ", but found " ++ operands
  | none =>
    let requirement :=
      if m.operation = "multiply" then
        "the columns of the left operand to equal the rows of the right operand"
      else "both operands to have the same shape"
    "Expected " ++ requirement ++ " in " ++ m.operation ++ ", but found " ++ operands

end ShapeMismatch

/-- Why a sequence of dimensions or operands is not a chain. -/
inductive ChainFlaw where
  | noOperands
  | negativeDimension (dimension : Int)
  | operandCount (given : Nat) (length : Int)
  | rootNotProduct (kind : String)
  | rowsDiffer (operand : String) (rows cols : Int)
  | stated (reason : String)
deriving DecidableEq

def ChainFlaw.reason : ChainFlaw → String
  | noOperands => "found no operands"
  | negativeDimension dimension => "found negative dimension " ++ toString dimension
  | operandCount given length =>
    toString given ++ " operands were given for a chain of length " ++ toString length
  | rootNotProduct kind => "found a " ++ kind ++ " at the root instead of a product"
  | rowsDiffer operand rows cols =>
    "operand " ++ operand ++ " has " ++ toString rows ++ " rows after an operand with " ++ toString cols ++
      " columns"
  | stated reason => reason

structure BrokenChain where
  dimensions : List Int
  flaw : ChainFlaw
deriving DecidableEq

namespace BrokenChain

def wording (m : BrokenChain) (written : List String) : String :=
  let expectation :=
    "Expected a chain of at least one operand with non-negative, compatible dimensions, but " ++ m.flaw.reason
  if m.dimensions.isEmpty then expectation
  else expectation ++ " in chain with dimensions " ++ Text.bracketed written

def message (m : BrokenChain) : String :=
  m.wording (m.dimensions.map toString)

end BrokenChain

/-- What stands where an expression should be built from matrices and expressions. -/
inductive Construct where
  | array (dimensions : Nat)
  | value (type : String)
  | elements (type : String)
  | stated (description : String)
deriving DecidableEq

namespace Construct

def description : Construct → String
  | array dimensions => "a " ++ toString dimensions ++ "-dimensional array"
  | value type => "a value of type " ++ type
  | elements type => "an array of " ++ type ++ " elements"
  | stated description => description

def message (c : Construct) : String :=
  "Expected a matrix expression built from two-dimensional leaves, products, and sums, but found " ++
    c.description

end Construct

inductive Activity where
  | costing
  | rearranging
  | evaluating
deriving DecidableEq

def Activity.name : Activity → String
  | costing => "multiplication_cost"
  | rearranging => "rearrange"
  | evaluating => "evaluate"

inductive Sequence where
  | list
  | tuple
deriving DecidableEq

def Sequence.name : Sequence → String
  | list => "list"
  | tuple => "tuple"

inductive Fault where
  | shapeMismatch (mismatch : ShapeMismatch)
  | brokenChain (chain : BrokenChain)
  | unsupported (construct : Construct)
  | unknownNode (activity : Activity) (node : Foreign)
  /-- A bare expression has no shape, no operands and no text. -/
  | unspecified
  | nameCount (given operands : Nat)
  | noSuchStrategy (name : String)
  | invalidStrategyName (name : String)
  | noWorkers
  | operandArity (given : Nat)
  | indexBeyond (sequence : Sequence)
  /-- A split table leads back to a span above. -/
  | endless
  /-- A task looked for a value that its store does not hold. -/
  | missingValue (id : NodeId)
  | notYetRun (place : Nat)
  | misfit (cause : Intake.Misfit)
  | tooManyDigits
  | fixedField (field : String)
  | noSetter (kind field : String)
  /-- An operation that a class defines. -/
  | fixedAttribute (kind name : String)
  /-- A name that is no field, where only fields have a place. -/
  | noField
  | readOnly
  | tooManyIndices (dimensions given : Nat)
  | indexOutside (index : Int) (axis size : Nat)
  | noAttribute (kind name : String)

namespace Fault

def message : Fault → String
  | shapeMismatch mismatch => mismatch.message
  | brokenChain chain => chain.message
  | unsupported construct => construct.message
  | unknownNode activity node =>
    activity.name ++ " not implemented for " ++ node.description ++ ": " ++ node.text
  | unspecified => ""
  | nameCount given operands =>
    "Expected one name per operand, but found " ++ toString given ++ " names for " ++ toString operands ++
      " operands"
  | noSuchStrategy name => "No evaluation strategy " ++ name
  | invalidStrategyName name => Text.quoted name ++ " is not a valid EvaluationStrategy"
  | noWorkers => "max_workers must be greater than 0"
  | operandArity given =>
    if given < 2 then "not enough values to unpack (expected 2, got " ++ toString given ++ ")"
    else "too many values to unpack (expected 2)"
  | indexBeyond sequence => sequence.name ++ " index out of range"
  | endless => "maximum depth exceeded"
  | missingValue id => toString id
  | notYetRun place => "no result at place " ++ toString place
  | .misfit cause => cause.message
  | tooManyDigits =>
    "Exceeds the limit (" ++ toString Number.maxDigits ++
      " digits) for integer string conversion; use sys.set_int_max_str_digits() to increase the limit"
  | fixedField field => "cannot assign to field " ++ Text.quoted field
  | noSetter kind field =>
    "property " ++ Text.quoted field ++ " of " ++ Text.quoted kind ++ " object has no setter"
  | fixedAttribute kind name =>
    Text.quoteAround kind ++ " object attribute " ++ Text.quoteAround name ++ " is read-only"
  | noField => "super(type, obj): obj must be an instance or subtype of type"
  | readOnly => "assignment destination is read-only"
  | tooManyIndices dimensions given =>
    "too many indices for array: array is " ++ toString dimensions ++ "-dimensional, but " ++
      toString given ++ " were indexed"
  | indexOutside index axis size =>
    "index " ++ toString index ++ " is out of bounds for axis " ++ toString axis ++ " with size " ++
      toString size
  | noAttribute kind name => Text.quoteAround kind ++ " object has no attribute " ++ Text.quoteAround name

end Fault

def decimal (n : Int) : Except Fault String :=
  match Number.decimal? n with
  | some text => pure text
  | none => throw .tooManyDigits

/-- The message of a broken chain, which raises where one of its dimensions cannot be written. -/
def BrokenChain.text (m : BrokenChain) : Except Fault String := do
  pure (m.wording (← m.dimensions.mapM decimal))

end MatrixChain
