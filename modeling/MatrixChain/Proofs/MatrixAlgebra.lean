import MatrixChain.Matrix.Dense
import Mathlib.Algebra.BigOperators.Fin
import Mathlib.Data.Matrix.Mul

/-!
# Dense matrices over a semiring

Over exact scalars the product of dense matrices is the usual product, so it associates whatever the sides are, zero
included.
-/

namespace MatrixChain
namespace DenseMatrix

variable {α : Type} {m k n : Nat}

def toMatrix (a : DenseMatrix α) (rows : a.rows = m) (cols : a.cols = n) : Matrix (Fin m) (Fin n) α :=
  fun i j => a.entry (i.cast rows.symm) (j.cast cols.symm)

theorem eq_of_toMatrix {a b : DenseMatrix α} (rows : a.rows = m) (cols : a.cols = n) (rows' : b.rows = m)
    (cols' : b.cols = n) (h : a.toMatrix rows cols = b.toMatrix rows' cols') : a = b := by
  obtain ⟨arows, acols, aentries⟩ := a
  obtain ⟨brows, bcols, bentries⟩ := b
  cases rows
  cases cols
  cases rows'
  cases cols'
  have hfn := congrArg (ofFn arows acols) h
  exact (ofFn_of_entry ⟨_, _, aentries⟩).symm.trans (hfn.trans (ofFn_of_entry ⟨_, _, bentries⟩))

theorem foldl_add_eq_sum [AddCommMonoid α] (f : Fin n → α) : Fin.foldl n (fun acc k => acc + f k) 0 = ∑ k, f k := by
  induction n with
  | zero => simp
  | succ n ih => rw [Fin.foldl_succ_last, ih, Fin.sum_univ_castSucc]

variable [NonUnitalSemiring α]

theorem toMatrix_mul (a b : DenseMatrix α) (inner : a.cols = b.rows) (rows : a.rows = m) (cols : a.cols = k)
    (rows' : b.rows = k) (cols' : b.cols = n) :
    (a.mul b inner).toMatrix rows cols' = a.toMatrix rows cols * b.toMatrix rows' cols' := by
  subst rows
  subst cols
  subst cols'
  funext i j
  have hentry : (a.mul b inner).entry i j = a.dot b inner i j := ofFn_entry a.rows b.cols _ i j
  have hsum : a.dot b inner i j = ∑ l, a.entry i l * b.entry (l.cast inner) j := foldl_add_eq_sum _
  rw [Matrix.mul_apply]
  exact hentry.trans hsum

theorem mul_assoc (a b c : DenseMatrix α) (hab : a.cols = b.rows) (hbc : b.cols = c.rows) :
    (a.mul b hab).mul c hbc = a.mul (b.mul c hbc) hab := by
  let A : Matrix (Fin a.rows) (Fin b.rows) α := a.toMatrix rfl hab
  let B : Matrix (Fin b.rows) (Fin c.rows) α := b.toMatrix rfl hbc
  let C : Matrix (Fin c.rows) (Fin c.cols) α := c.toMatrix rfl rfl
  have hfirst : (a.mul b hab).toMatrix rfl hbc = A * B := toMatrix_mul a b hab rfl hab rfl hbc
  have hsecond : (b.mul c hbc).toMatrix rfl rfl = B * C := toMatrix_mul b c hbc rfl hbc rfl rfl
  have hleft : ((a.mul b hab).mul c hbc).toMatrix rfl rfl = A * B * C := by
    rw [← hfirst]
    exact toMatrix_mul (a.mul b hab) c hbc rfl hbc rfl rfl
  have hright : (a.mul (b.mul c hbc) hab).toMatrix rfl rfl = A * (B * C) := by
    rw [← hsecond]
    exact toMatrix_mul a (b.mul c hbc) hab rfl hab rfl rfl
  exact eq_of_toMatrix rfl rfl rfl rfl (hleft.trans ((Matrix.mul_assoc A B C).trans hright.symm))

end DenseMatrix
end MatrixChain
