import MatrixChain.Matrix.Dense

/-!
# Matrix expressions

Trees of leaves, products and sums. Each node has an identity, so that a tree can tell one leaf used twice
from two leaves that look alike, and a product or sum keeps the shape that it was built with.
-/

namespace MatrixChain

abbrev NodeId := Nat

/-- A node of a class that the library does not know: it has a shape and a text, and no operands. -/
structure Foreign where
  id : NodeId
  kind : String
  description : String
  shape : Shape
  text : String

inductive Expr (α : Type) where
  | leaf (id : NodeId) (matrix : DenseMatrix α) (label : Option String)
  | product (id : NodeId) (left right : Expr α) (shape : Shape)
  | sum (id : NodeId) (left right : Expr α) (shape : Shape)
  | foreign (node : Foreign)

namespace Expr

variable {α : Type}

def id : Expr α → NodeId
  | leaf id _ _ => id
  | product id _ _ _ => id
  | sum id _ _ _ => id
  | foreign node => node.id

/-- A leaf has the shape of the matrix that it holds now; products and sums have the one they keep. -/
def shape : Expr α → Shape
  | leaf _ matrix _ => matrix.shape
  | product _ _ _ shape => shape
  | sum _ _ _ shape => shape
  | foreign node => node.shape

def kind : Expr α → String
  | leaf .. => "Leaf"
  | product .. => "Product"
  | sum .. => "Sum"
  | foreign node => node.kind

def children : Expr α → List (Expr α)
  | product _ left right _ => [left, right]
  | sum _ left right _ => [left, right]
  | _ => []

def size : Expr α → Nat
  | product _ left right _ => left.size + right.size + 1
  | sum _ left right _ => left.size + right.size + 1
  | _ => 1

theorem size_lt_of_mem_children {e o : Expr α} (h : o ∈ e.children) : o.size < e.size := by
  cases e <;> simp only [children, List.mem_cons, List.not_mem_nil, or_false] at h <;>
    rcases h with rfl | rfl <;> simp only [size] <;> omega

/-- The operands of the maximal run of products that `e` begins, in front of `rest`: a product stands for
its own operands, any other node for itself. -/
def factorsOnto : Expr α → List (Expr α) → List (Expr α)
  | product _ left right _, rest => left.factorsOnto (right.factorsOnto rest)
  | e, rest => e :: rest

def factors (e : Expr α) : List (Expr α) :=
  e.factorsOnto []

theorem factorsOnto_eq (e : Expr α) (rest : List (Expr α)) : e.factorsOnto rest = e.factors ++ rest := by
  unfold factors
  induction e generalizing rest with
  | product id left right shape ihl ihr =>
    simp only [factorsOnto]
    rw [ihl (right.factorsOnto rest), ihr rest, ihl (right.factorsOnto []), List.append_assoc]
  | _ => rfl

@[simp] theorem factors_product (id : NodeId) (left right : Expr α) (shape : Shape) :
    (product id left right shape).factors = left.factors ++ right.factors := by
  rw [factors, factorsOnto, factorsOnto_eq]
  rfl

theorem size_le_of_mem_factors {e o : Expr α} (h : o ∈ e.factors) : o.size ≤ e.size := by
  induction e with
  | product id left right shape ihl ihr =>
    rw [factors_product, List.mem_append] at h
    rcases h with h | h
    · have := ihl h; simp only [size]; omega
    · have := ihr h; simp only [size]; omega
  | _ => simp [factors, factorsOnto] at h; simp [h]

theorem size_lt_of_mem_factors {id : NodeId} {left right o : Expr α} {shape : Shape}
    (h : o ∈ (product id left right shape).factors) : o.size < (product id left right shape).size := by
  rw [factors_product, List.mem_append] at h
  rcases h with h | h <;> have := size_le_of_mem_factors h <;> simp only [size] <;> omega

def postorderOnto : Expr α → List (Expr α) → List (Expr α)
  | e@(product _ left right _), rest => left.postorderOnto (right.postorderOnto (e :: rest))
  | e@(sum _ left right _), rest => left.postorderOnto (right.postorderOnto (e :: rest))
  | e, rest => e :: rest

/-- Every node of the tree after its operands, a shared one at every place. -/
def postorder (e : Expr α) : List (Expr α) :=
  e.postorderOnto []

/-- The order in which folds go down: operands have fewer nodes. -/
def Smaller (a b : Expr α) : Prop :=
  a.size < b.size

theorem acc_smaller (e : Expr α) : Acc Smaller e :=
  (InvImage.wf size Nat.lt_wfRel.wf).apply e

end Expr
end MatrixChain
