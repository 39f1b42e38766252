import MatrixChain.Expr.Build
import MatrixChain.Proofs.ChildFold
import MatrixChain.Proofs.Postorder
import MatrixChain.Proofs.Skeleton

/-!
# Expressions that were built

What the constructors let through: the shapes of operands agree wherever they meet, every product and sum keeps the
shape that its operands give it, and so the skeleton of an expression tells its shape and its cost. Reassociating a
skeleton does not change whether it can be built.
-/

namespace MatrixChain
namespace Expr

variable {α : Type}

/-- The expressions that come of successful construction, a node being used as often as one likes. -/
inductive Built : Expr α → Prop where
  | leaf {matrix : DenseMatrix α} {label : Option String} {e : Expr α} {next next' : NodeId}
      (made : (makeLeaf matrix label).run next = .ok (e, next')) : Built e
  | multiply {left right e : Expr α} {next next' : NodeId} (hl : Built left) (hr : Built right)
      (made : (multiply left right).run next = .ok (e, next')) : Built e
  | add {left right e : Expr α} {next next' : NodeId} (hl : Built left) (hr : Built right)
      (made : (add left right).run next = .ok (e, next')) : Built e

theorem multiply_run_eq_ok {left right e : Expr α} {next next' : NodeId}
    (h : (multiply left right).run next = .ok (e, next')) :
    left.shape.cols = right.shape.rows ∧ e = product next left right (left.shape.times right.shape) := by
  by_cases hinner : left.shape.cols = right.shape.rows
  · rw [multiply_run hinner] at h
    cases h
    exact ⟨hinner, rfl⟩
  · rw [multiply_run_of_ne hinner] at h
    cases h

theorem add_run_eq_ok {left right e : Expr α} {next next' : NodeId}
    (h : (add left right).run next = .ok (e, next')) :
    left.shape = right.shape ∧ e = sum next left right left.shape := by
  by_cases hshape : left.shape = right.shape
  · rw [add_run hshape] at h
    cases h
    exact ⟨hshape, rfl⟩
  · rw [add_run_of_ne hshape] at h
    cases h

theorem built_leaf (id : NodeId) (matrix : DenseMatrix α) (label : Option String) :
    Built (.leaf id matrix label) :=
  .leaf (show (makeLeaf matrix label).run id = .ok (.leaf id matrix label, id + 1) from rfl)

theorem not_built_foreign (node : Foreign) : ¬ Built (.foreign node : Expr α) := by
  intro h
  cases h with
  | leaf made => cases made
  | multiply _ _ made => cases (multiply_run_eq_ok made).2
  | add _ _ made => cases (add_run_eq_ok made).2

theorem built_product (id : NodeId) {left right : Expr α} (hl : Built left) (hr : Built right)
    (inner : left.shape.cols = right.shape.rows) :
    Built (.product id left right (left.shape.times right.shape)) :=
  .multiply hl hr (multiply_run inner id)

theorem built_sum (id : NodeId) {left right : Expr α} (hl : Built left) (hr : Built right)
    (shapes : left.shape = right.shape) : Built (.sum id left right left.shape) :=
  .add hl hr (add_run shapes id)

theorem built_product_iff {id : NodeId} {left right : Expr α} {shape : Shape} :
    Built (.product id left right shape) ↔
      Built left ∧ Built right ∧ left.shape.cols = right.shape.rows ∧ shape = left.shape.times right.shape := by
  constructor
  · intro h
    cases h with
    | leaf made => cases made
    | multiply hl hr made =>
      obtain ⟨hinner, he⟩ := multiply_run_eq_ok made
      cases he
      exact ⟨hl, hr, hinner, rfl⟩
    | add _ _ made => cases (add_run_eq_ok made).2
  · rintro ⟨hl, hr, hinner, rfl⟩
    exact built_product id hl hr hinner

theorem built_sum_iff {id : NodeId} {left right : Expr α} {shape : Shape} :
    Built (.sum id left right shape) ↔
      Built left ∧ Built right ∧ left.shape = right.shape ∧ shape = left.shape := by
  constructor
  · intro h
    cases h with
    | leaf made => cases made
    | multiply _ _ made => cases (multiply_run_eq_ok made).2
    | add hl hr made =>
      obtain ⟨hshape, he⟩ := add_run_eq_ok made
      cases he
      exact ⟨hl, hr, hshape, rfl⟩
  · rintro ⟨hl, hr, hshape, rfl⟩
    exact built_sum id hl hr hshape

/-- Induction over what the constructors let through, with the shapes that they make sure of. -/
@[elab_as_elim]
theorem Built.shapeInduction {motive : (e : Expr α) → Built e → Prop}
    (leaf : ∀ id matrix label, motive (.leaf id matrix label) (built_leaf id matrix label))
    (product : ∀ id left right hl hr inner, motive left hl → motive right hr →
      motive (.product id left right (left.shape.times right.shape)) (built_product id hl hr inner))
    (sum : ∀ id left right hl hr shapes, motive left hl → motive right hr →
      motive (.sum id left right left.shape) (built_sum id hl hr shapes))
    {e : Expr α} (h : Built e) : motive e h := by
  induction e with
  | leaf id matrix label => exact leaf id matrix label
  | product id left right shape ihl ihr =>
    obtain ⟨hl, hr, inner, rfl⟩ := built_product_iff.1 h
    exact product id left right hl hr inner (ihl hl) (ihr hr)
  | sum id left right shape ihl ihr =>
    obtain ⟨hl, hr, shapes, rfl⟩ := built_sum_iff.1 h
    exact sum id left right hl hr shapes (ihl hl) (ihr hr)
  | foreign node => exact absurd h (not_built_foreign node)

/-- Leaves, products and sums all the way down. -/
def Known : Expr α → Prop
  | leaf .. => True
  | product _ left right _ => left.Known ∧ right.Known
  | sum _ left right _ => left.Known ∧ right.Known
  | foreign _ => False

theorem Built.known {e : Expr α} (h : Built e) : e.Known := by
  induction h using Built.shapeInduction with
  | leaf => trivial
  | product _ _ _ _ _ _ ihl ihr => exact ⟨ihl, ihr⟩
  | sum _ _ _ _ _ _ ihl ihr => exact ⟨ihl, ihr⟩

theorem Known.of_mem_children {e c : Expr α} (h : e.Known) (hc : c ∈ e.children) : c.Known := by
  cases e <;> simp only [children, List.mem_cons, List.not_mem_nil, or_false] at hc <;>
    rcases hc with rfl | rfl
  · exact h.1
  · exact h.2
  · exact h.1
  · exact h.2

theorem Known.of_mem_postorder {e n : Expr α} (h : e.Known) (hn : n ∈ e.postorder) : n.Known :=
  forall_mem_postorder (fun _ h _ hc => h.of_mem_children hc) h n hn

def declaredWork? : Expr α → Option Int
  | product _ left right _ => some (left.shape.work right.shape)
  | _ => none

/-- An expression of leaves, products and sums has the cost that its products declare. -/
theorem Known.cost_eq_total {e : Expr α} (h : e.Known) :
    e.cost = .ok (total (e.postorder.filterMap declaredWork?)) := by
  unfold cost
  induction e with
  | leaf id matrix label =>
    rw [foldChildren_leaf]
    rfl
  | product id left right shape ihl ihr =>
    have hnode : [product id left right shape].filterMap declaredWork? = [left.shape.work right.shape] := rfl
    rw [foldChildren_product, ihl h.1, ihr h.2, postorder_product, List.filterMap_append, List.filterMap_append, hnode]
    simp only [bind, Except.bind, pure, Except.pure, addWork, work, total_append, total_cons, total_nil]
    exact congrArg Except.ok (by omega)
  | sum id left right shape ihl ihr =>
    have hnode : [sum id left right shape].filterMap declaredWork? = [] := rfl
    rw [foldChildren_sum, ihl h.1, ihr h.2, postorder_sum, List.filterMap_append, List.filterMap_append, hnode]
    simp only [bind, Except.bind, pure, Except.pure, addWork, work, total_append, total_cons, total_nil]
    exact congrArg Except.ok (by omega)
  | foreign => exact h.elim

theorem Built.shape_skeleton {e : Expr α} (h : Built e) : e.skeleton.shape Expr.shape = e.shape := by
  induction h using Built.shapeInduction with
  | leaf => rfl
  | product id left right _ _ _ ihl ihr => simp [skeleton, Skeleton.shape, ihl, ihr, Expr.shape]
  | sum id left right _ _ _ ihl _ => simp [skeleton, Skeleton.shape, ihl, Expr.shape]

theorem Built.sound_skeleton {e : Expr α} (h : Built e) : e.skeleton.Sound Expr.shape := by
  induction h using Built.shapeInduction with
  | leaf id matrix label => exact ⟨Int.natCast_nonneg _, Int.natCast_nonneg _⟩
  | product id left right hl hr hinner ihl ihr =>
    refine ⟨ihl, ihr, ?_⟩
    rw [hl.shape_skeleton, hr.shape_skeleton, hinner]
  | sum id left right hl hr hshape ihl ihr =>
    refine ⟨ihl, ihr, ?_⟩
    rw [hl.shape_skeleton, hr.shape_skeleton, hshape]

theorem Built.shape_nonneg {e : Expr α} (h : Built e) : 0 ≤ e.shape.rows ∧ 0 ≤ e.shape.cols := by
  rw [← h.shape_skeleton]
  exact h.sound_skeleton.shape_nonneg

theorem Built.cost_eq {e : Expr α} (h : Built e) : e.cost = .ok (e.skeleton.cost Expr.shape) := by
  induction h using Built.shapeInduction with
  | leaf id matrix label =>
    rw [cost, foldChildren_leaf]
    rfl
  | product id left right hl hr _ ihl ihr =>
    unfold cost at ihl ihr ⊢
    rw [foldChildren_product, ihl, ihr, skeleton, Skeleton.cost, hl.shape_skeleton, hr.shape_skeleton]
    simp only [bind, Except.bind, pure, Except.pure, addWork, work, total_cons, total_nil]
    exact congrArg Except.ok (by omega)
  | sum id left right _ _ _ ihl ihr =>
    unfold cost at ihl ihr ⊢
    rw [foldChildren_sum, ihl, ihr, skeleton, Skeleton.cost]
    simp only [bind, Except.bind, pure, Except.pure, addWork, work, total_cons, total_nil]
    exact congrArg Except.ok (by omega)

theorem mapM_cost_eq {es : List (Expr α)} (h : ∀ e ∈ es, Built e) :
    es.mapM cost = .ok (es.map fun e => e.skeleton.cost Expr.shape) := by
  induction es with
  | nil => rfl
  | cons e es ih =>
    have hhead := (h e List.mem_cons_self).cost_eq
    have htail := ih fun e' he' => h e' (List.mem_cons_of_mem e he')
    rw [List.mapM_cons, hhead, htail]
    rfl

theorem Built.of_mem_children {e c : Expr α} (h : Built e) (hc : c ∈ e.children) : Built c := by
  induction h using Built.shapeInduction with
  | leaf => cases hc
  | product id left right hl hr =>
    rcases List.mem_cons.1 hc with rfl | hc
    · exact hl
    · rw [List.mem_singleton.1 hc]
      exact hr
  | sum id left right hl hr =>
    rcases List.mem_cons.1 hc with rfl | hc
    · exact hl
    · rw [List.mem_singleton.1 hc]
      exact hr

theorem Built.of_mem_postorder {e n : Expr α} (h : Built e) (hn : n ∈ e.postorder) : Built n :=
  forall_mem_postorder (fun _ h _ hc => h.of_mem_children hc) h n hn

theorem Built.of_mem_factors {e o : Expr α} (h : Built e) (ho : o ∈ e.factors) : Built o := by
  induction h using Built.shapeInduction with
  | leaf id matrix label =>
    rw [List.mem_singleton.1 ho]
    exact built_leaf id matrix label
  | product id left right _ _ _ ihl ihr =>
    rw [factors_product, List.mem_append] at ho
    rcases ho with ho | ho
    · exact ihl ho
    · exact ihr ho
  | sum id left right hl hr shapes _ _ =>
    rw [List.mem_singleton.1 ho]
    exact built_sum id hl hr shapes

end Expr
end MatrixChain
