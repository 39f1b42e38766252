import MatrixChain.Evaluation.Strategy
import MatrixChain.Proofs.Reassociation
import MatrixChain.Proofs.Value

/-!
# Reassociation as a normal form

What reassociating a built expression comes to: the cheapest of all its reassociations, one and the same for all of
them, with the same value over a semiring.
-/

namespace MatrixChain
namespace Expr

open Skeleton

/-- `b + 2 · b` for a row `b`, which is one leaf at two places. -/
def tripledRow : Expr Int :=
  let row := leaf 0 (.ofFn 1 3 fun _ j => (j.val : Int) + 1) (some "b")
  let two := leaf 1 (.ofFn 1 1 fun _ _ => 2) none
  sum 3 row (product 2 two row ⟨1, 3⟩) ⟨1, 3⟩

def column (id : NodeId) : Expr Int :=
  leaf id (.ofFn 3 1 fun i _ => (i.val : Int) - 1) none

def outerFirst : Expr Int :=
  product 7 (product 6 (column 4) tripledRow ⟨3, 3⟩) (column 5) ⟨3, 1⟩

def innerFirst : Expr Int :=
  product 9 (column 4) (product 8 tripledRow (column 5) ⟨1, 1⟩) ⟨3, 1⟩

theorem built_tripledRow : Built tripledRow :=
  built_sum 3 (built_leaf ..) (built_product 2 (built_leaf ..) (built_leaf ..) rfl) rfl

theorem built_outerFirst : Built outerFirst :=
  built_product 7 (built_product 6 (built_leaf ..) built_tripledRow rfl) (built_leaf ..) rfl

theorem built_innerFirst : Built innerFirst :=
  built_product 9 (built_leaf ..) (built_product 8 built_tripledRow (built_leaf ..) rfl) rfl

variable {α : Type}

/-- Of all trees that the associative law leads to, reassociation finds a cheapest one. -/
theorem reassociate_cheapest {e : Expr α} (h : Built e) (next : NodeId) :
    ∃ r next' cost, e.reassociate.run next = .ok (r, next') ∧ Built r ∧ Reassociated r.skeleton e.skeleton ∧
      r.shape = e.shape ∧ r.cost = .ok cost ∧
      ∀ t, Built t → Reassociated t.skeleton e.skeleton → ∃ cost', t.cost = .ok cost' ∧ cost ≤ cost' := by
  obtain ⟨r, next', hrun, hr⟩ := h.reassociate_run next
  refine ⟨r, next', _, hrun, hr.1, ?_, hr.shape_eq h, hr.1.cost_eq, fun t ht hte => ⟨_, ht.cost_eq, ?_⟩⟩
  · rw [hr.2]
    exact arranged_reassociated Expr.shape e.skeleton
  · rw [hr.2]
    exact cost_arranged_le_of_reassociated Expr.shape ht.sound_skeleton hte

theorem reassociate_cheapest_of_outerFirst :
    Built outerFirst ∧ ∃ r next' cost, outerFirst.reassociate.run 10 = .ok (r, next') ∧
      Reassociated r.skeleton outerFirst.skeleton ∧ r.shape = ⟨3, 1⟩ ∧ r.cost = .ok cost ∧ cost ≤ 9 := by
  obtain ⟨r, next', cost, hrun, _, hre, hshape, hcost, hleast⟩ := reassociate_cheapest built_outerFirst 10
  obtain ⟨cost', hcost', hle⟩ := hleast innerFirst built_innerFirst (Reassociated.assoc ..).symm
  have hnine : innerFirst.cost = .ok 9 := built_innerFirst.cost_eq
  obtain rfl := Except.ok.inj (hnine.symm.trans hcost')
  exact ⟨built_outerFirst, r, next', cost, hrun, hre, hshape, hcost, hle⟩

/-- Two expressions are reassociated to one tree exactly if they are reassociations of each other, and what has been
reassociated stays as it is. -/
theorem reassociate_canonical {e₁ e₂ : Expr α} (h₁ : Built e₁) (h₂ : Built e₂) (next₁ next₂ : NodeId) :
    ∃ r₁ r₂ next₁' next₂', e₁.reassociate.run next₁ = .ok (r₁, next₁') ∧
      e₂.reassociate.run next₂ = .ok (r₂, next₂') ∧
      (r₁.skeleton = r₂.skeleton ↔ Reassociated e₁.skeleton e₂.skeleton) ∧
      ∀ next, ∃ r next', r₁.reassociate.run next = .ok (r, next') ∧ r.skeleton = r₁.skeleton := by
  obtain ⟨r₁, next₁', hrun₁, hr₁⟩ := h₁.reassociate_run next₁
  obtain ⟨r₂, next₂', hrun₂, hr₂⟩ := h₂.reassociate_run next₂
  refine ⟨r₁, r₂, next₁', next₂', hrun₁, hrun₂, ?_, fun next => ?_⟩
  · rw [hr₁.2, hr₂.2]
    exact arranged_eq_iff Expr.shape e₁.skeleton e₂.skeleton
  · obtain ⟨r, next', hrun, hr⟩ := hr₁.1.reassociate_run next
    refine ⟨r, next', hrun, ?_⟩
    rw [hr.2, hr₁.2, arranged_arranged]

theorem reassociate_canonical_of_innerFirst :
    Built outerFirst ∧ Built innerFirst ∧ ∃ r₁ r₂ next₁' next₂', outerFirst.reassociate.run 10 = .ok (r₁, next₁') ∧
      innerFirst.reassociate.run 10 = .ok (r₂, next₂') ∧ r₁.skeleton = r₂.skeleton := by
  obtain ⟨r₁, r₂, next₁', next₂', hrun₁, hrun₂, hiff, _⟩ :=
    reassociate_canonical built_outerFirst built_innerFirst 10 10
  exact ⟨built_outerFirst, built_innerFirst, r₁, r₂, next₁', next₂', hrun₁, hrun₂, hiff.2 (.assoc ..)⟩

/-- Over a semiring, which may lack a one, an expression and what it is reassociated to have one value. -/
theorem reassociate_evaluate [NonUnitalSemiring α] {e : Expr α} (h : Built e) (next : NodeId) (workers : Option Int) :
    ∃ r next' a, e.reassociate.run next = .ok (r, next') ∧ r.evaluate .sequential workers = .ok a ∧
      e.evaluate .sequential workers = .ok a := by
  obtain ⟨r, next', hrun, hr⟩ := h.reassociate_run next
  obtain ⟨a, ha, _, havalue⟩ := h.evaluateInOrder_eq
  obtain ⟨b, hb, _, hbvalue⟩ := hr.1.evaluateInOrder_eq
  rw [hr.2, (arranged_reassociated Expr.shape e.skeleton).value_eq matrix?, havalue] at hbvalue
  obtain rfl := Option.some.inj hbvalue
  exact ⟨r, next', a, hrun, hb, ha⟩

theorem reassociate_evaluate_of_outerFirst :
    Built outerFirst ∧ ∃ r next' a, outerFirst.reassociate.run 10 = .ok (r, next') ∧
      r.evaluate .sequential none = .ok a ∧ outerFirst.evaluate .sequential none = .ok a :=
  ⟨built_outerFirst, reassociate_evaluate built_outerFirst 10 none⟩

end Expr
end MatrixChain
