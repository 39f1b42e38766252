import MatrixChain.Expr.Cost
import MatrixChain.Proofs.Fold

/-!
# Folds over children

A fold over the children of expressions, constructor by constructor.
-/

namespace MatrixChain
namespace Expr

variable {α β : Type} {m : Type → Type} [Monad m] [LawfulMonad m] (combine : Expr α → List β → m β)

theorem foldChildren_eq (e : Expr α) :
    e.foldChildren combine = e.children.mapM (foldChildren combine) >>= combine e := by
  have h := Fold.fold_eq_mapM childrenOf combine acc_smaller e
  simp only [childrenOf, pure_bind] at h
  exact h

@[simp] theorem foldChildren_leaf (id : NodeId) (matrix : DenseMatrix α) (label : Option String) :
    (leaf id matrix label).foldChildren combine = combine (leaf id matrix label) [] := by
  simp [foldChildren_eq, children]

@[simp] theorem foldChildren_foreign (node : Foreign) :
    (foreign node : Expr α).foldChildren combine = combine (foreign node) [] := by
  simp [foldChildren_eq, children]

@[simp] theorem foldChildren_product (id : NodeId) (left right : Expr α) (shape : Shape) :
    (product id left right shape).foldChildren combine = (do
      let l ← left.foldChildren combine
      let r ← right.foldChildren combine
      combine (product id left right shape) [l, r]) := by
  rw [foldChildren_eq]
  simp [children]

@[simp] theorem foldChildren_sum (id : NodeId) (left right : Expr α) (shape : Shape) :
    (sum id left right shape).foldChildren combine = (do
      let l ← left.foldChildren combine
      let r ← right.foldChildren combine
      combine (sum id left right shape) [l, r]) := by
  rw [foldChildren_eq]
  simp [children]

theorem exists_mapM_iff {γ δ : Type} {f : γ → Except Fault δ} {items : List γ} :
    (∃ values, items.mapM f = .ok values) ↔ ∀ item ∈ items, ∃ a, f item = .ok a := by
  induction items with
  | nil => exact iff_of_true ⟨[], rfl⟩ (List.forall_mem_nil _)
  | cons item items ih =>
    rw [List.forall_mem_cons, ← ih, List.mapM_cons]
    cases f item with
    | error fault => exact iff_of_false (by rintro ⟨_, h⟩; cases h) (by rintro ⟨⟨_, h⟩, _⟩; cases h)
    | ok a => cases items.mapM f <;> simp [bind, Except.bind, pure, Except.pure]

end Expr
end MatrixChain
