import MatrixChain.Expr.Basic
import MatrixChain.Text.Quoted

/-!
# Expressions as text

`infixText` is the notation with `*` above `+`, both grouping to the left, and a pair of parentheses only
where the tree would otherwise read differently. `constructorText` spells a tree out, node by node.
-/

namespace MatrixChain

inductive InfixToken where
  | times
  | plus
  | opening
  | closing
  | atom (text : String)
deriving DecidableEq

def InfixToken.text : InfixToken → String
  | times => " * "
  | plus => " + "
  | opening => "("
  | closing => ")"
  | atom text => text

namespace Expr

variable {α : Type}

def isSum : Expr α → Bool
  | sum .. => true
  | _ => false

def isProduct : Expr α → Bool
  | product .. => true
  | _ => false

def leafText (matrix : DenseMatrix α) : Option String → String
  | some label => label
  | none => "[" ++ matrix.shape.text ++ "]"

def parenthesizedIf (needed : Bool) (tokens : List InfixToken) : List InfixToken :=
  if needed then .opening :: tokens ++ [.closing] else tokens

/-- A sum under a product is in parentheses, and so is a right operand that would group to the left. -/
def infixTokens : Expr α → List InfixToken
  | leaf _ matrix label => [.atom (leafText matrix label)]
  | product _ left right _ =>
    parenthesizedIf left.isSum left.infixTokens ++
      .times :: parenthesizedIf (right.isSum || right.isProduct) right.infixTokens
  | sum _ left right _ => left.infixTokens ++ .plus :: parenthesizedIf right.isSum right.infixTokens
  | foreign node => [.atom node.text]

def infixText (e : Expr α) : String :=
  String.join (e.infixTokens.map InfixToken.text)

def labelText : Option String → String
  | some label => Text.quoted label
  | none => "None"

def constructorText : Expr α → String
  | leaf _ matrix label => "Leaf(label=" ++ labelText label ++ ", shape=" ++ matrix.shape.tupleText ++ ")"
  | product _ left right _ =>
    "Product(left=" ++ left.constructorText ++ ", right=" ++ right.constructorText ++ ")"
  | sum _ left right _ => "Sum(left=" ++ left.constructorText ++ ", right=" ++ right.constructorText ++ ")"
  | foreign node => node.description

end Expr
end MatrixChain
