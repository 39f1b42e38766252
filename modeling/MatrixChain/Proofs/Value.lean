import MatrixChain.Evaluation.Realization
import MatrixChain.Proofs.Construction
import MatrixChain.Proofs.MatrixAlgebra

/-!
# Values of skeletons

The matrix that a tree stands for, where the sides of its operands agree. A built expression is evaluated to the value
of its skeleton, and over a semiring reassociation keeps values.
-/

namespace MatrixChain

variable {α : Type}

namespace DenseMatrix

section Partial

variable [Zero α] [Add α] [Mul α]

def mul? (a b : DenseMatrix α) : Option (DenseMatrix α) :=
  if inner : a.cols = b.rows then some (a.mul b inner) else none

def add? (a b : DenseMatrix α) : Option (DenseMatrix α) :=
  if rows : a.rows = b.rows then
    if cols : a.cols = b.cols then some (a.add b rows cols) else none
  else none

theorem mul?_eq_some {a b : DenseMatrix α} (inner : a.cols = b.rows) : a.mul? b = some (a.mul b inner) :=
  dif_pos inner

theorem mul?_eq_none {a b : DenseMatrix α} (inner : a.cols ≠ b.rows) : a.mul? b = none :=
  dif_neg inner

end Partial

/-- A product of three is there in one association exactly if it is in the other, and it is the same. -/
theorem mul?_assoc [NonUnitalSemiring α] (a b c : DenseMatrix α) :
    ((a.mul? b).bind fun ab => ab.mul? c) = (b.mul? c).bind fun bc => a.mul? bc := by
  by_cases hab : a.cols = b.rows
  · by_cases hbc : b.cols = c.rows
    · have hleft : (a.mul b hab).mul? c = some ((a.mul b hab).mul c hbc) := dif_pos hbc
      have hright : a.mul? (b.mul c hbc) = some (a.mul (b.mul c hbc) hab) := dif_pos hab
      rw [mul?_eq_some hab, mul?_eq_some hbc, Option.bind_some, Option.bind_some, hleft, hright, mul_assoc]
    · have hleft : (a.mul b hab).mul? c = none := dif_neg hbc
      rw [mul?_eq_some hab, mul?_eq_none hbc, Option.bind_some, hleft, Option.bind_none]
  · by_cases hbc : b.cols = c.rows
    · have hright : a.mul? (b.mul c hbc) = none := dif_neg hab
      rw [mul?_eq_none hab, mul?_eq_some hbc, Option.bind_some, hright, Option.bind_none]
    · rw [mul?_eq_none hab, mul?_eq_none hbc, Option.bind_none, Option.bind_none]

end DenseMatrix

namespace Skeleton

variable {β : Type} (matrix? : β → Option (DenseMatrix α))

def value [Zero α] [Add α] [Mul α] : Skeleton β → Option (DenseMatrix α)
  | atom a => matrix? a
  | product left right => do (← left.value).mul? (← right.value)
  | sum left right => do (← left.value).add? (← right.value)

/-- Reassociation keeps the value. -/
theorem Reassociated.value_eq [NonUnitalSemiring α] {s t : Skeleton β} (h : Reassociated s t) :
    s.value matrix? = t.value matrix? := by
  induction h with
  | refl => rfl
  | symm _ ih => exact ih.symm
  | trans _ _ ih ih' => exact ih.trans ih'
  | product _ _ ihl ihr => rw [value, value, ihl, ihr]
  | sum _ _ ihl ihr => rw [value, value, ihl, ihr]
  | assoc a b c =>
    simp only [value]
    cases a.value matrix? with
    | none => rfl
    | some x =>
      cases b.value matrix? with
      | none => rfl
      | some y =>
        cases c.value matrix? with
        | none => cases h : x.mul? y <;> simp [h]
        | some z => exact DenseMatrix.mul?_assoc x y z

end Skeleton

namespace Expr

def matrix? : Expr α → Option (DenseMatrix α)
  | leaf _ matrix _ => some matrix
  | _ => none

theorem realizeSum_eq_ok [Add α] {shape : Shape} {a b : DenseMatrix α} (ha : a.shape = shape) (hb : b.shape = shape) :
    ∃ c, realizeSum shape a b = .ok c ∧ c.shape = shape ∧ a.add? b = some c := by
  have hsides : a.rows = b.rows ∧ a.cols = b.cols := by
    have h := ha.trans hb.symm
    simp only [DenseMatrix.shape, Shape.mk.injEq] at h
    omega
  refine ⟨a.add b hsides.1 hsides.2, ?_, ha, (dif_pos hsides.1).trans (dif_pos hsides.2)⟩
  rw [realizeSum, dif_pos hsides, if_pos ha]
  rfl

variable [Zero α] [Add α] [Mul α]

theorem realizeProduct_eq_ok {left right : Shape} {a b : DenseMatrix α} (ha : a.shape = left)
    (hb : b.shape = right) (inner : left.cols = right.rows) :
    ∃ c, realizeProduct (left.times right) a b = .ok c ∧ c.shape = left.times right ∧ a.mul? b = some c := by
  subst ha
  subst hb
  have hinner : a.cols = b.rows := Int.ofNat.inj inner
  refine ⟨a.mul b hinner, ?_, DenseMatrix.mul_shape a b hinner, DenseMatrix.mul?_eq_some hinner⟩
  rw [realizeProduct, dif_pos hinner, if_pos rfl]
  rfl

/-- Evaluation of a built expression succeeds, with a matrix of the declared shape, which is the value of the
skeleton. -/
theorem Built.evaluateInOrder_eq {e : Expr α} (h : Built e) :
    ∃ a, e.evaluateInOrder = .ok a ∧ a.shape = e.shape ∧ e.skeleton.value matrix? = some a := by
  unfold evaluateInOrder
  induction h using Built.shapeInduction with
  | leaf id matrix label => exact ⟨matrix, foldChildren_leaf realize id matrix label, rfl, rfl⟩
  | product id left right _ _ inner ihl ihr =>
    obtain ⟨a, ha, hashape, havalue⟩ := ihl
    obtain ⟨b, hb, hbshape, hbvalue⟩ := ihr
    obtain ⟨c, hc, hcshape, hcvalue⟩ := realizeProduct_eq_ok hashape hbshape inner
    refine ⟨c, ?_, hcshape, ?_⟩
    · rw [foldChildren_product, ha, hb]
      exact hc
    · rw [skeleton, Skeleton.value, havalue, hbvalue]
      exact hcvalue
  | sum id left right _ _ shapes ihl ihr =>
    obtain ⟨a, ha, hashape, havalue⟩ := ihl
    obtain ⟨b, hb, hbshape, hbvalue⟩ := ihr
    obtain ⟨c, hc, hcshape, hcvalue⟩ := realizeSum_eq_ok hashape (hbshape.trans shapes.symm)
    refine ⟨c, ?_, hcshape, ?_⟩
    · rw [foldChildren_sum, ha, hb]
      exact hc
    · rw [skeleton, Skeleton.value, havalue, hbvalue]
      exact hcvalue

end Expr
end MatrixChain
