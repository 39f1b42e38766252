import MatrixChain.Proofs.Arrangement
import MatrixChain.Proofs.Construction
import MatrixChain.Reassociation

/-!
# The runs of a tree

Where the maximal runs of products begin, and what each of them costs by itself, as it is associated and at best.
Every product belongs to one run, so the costs of all runs add up to the cost of the tree, and the least costs of all
runs add up to the cost of its cheapest arrangement.
-/

namespace MatrixChain

open Chain

namespace Expr

variable {α : Type}

/-- The products that are no operands of products, in post-order. With `inRun` the root counts as such an operand. -/
def runRoots (inRun : Bool) : Expr α → List (Expr α)
  | e@(product _ left right _) =>
    left.runRoots true ++ right.runRoots true ++ if inRun then [] else [e]
  | sum _ left right _ => left.runRoots false ++ right.runRoots false
  | _ => []

/-- The products at which the maximal runs begin, those inside of the operands of a run before it. -/
def runs (e : Expr α) : List (Expr α) :=
  e.runRoots false

theorem runs_product (id : NodeId) (left right : Expr α) (shape : Shape) :
    (product id left right shape).runs =
      (product id left right shape).runRoots true ++ [product id left right shape] := by
  rw [runs, runRoots, runRoots, if_pos rfl, List.append_nil]
  rfl

theorem runs_sum (id : NodeId) (left right : Expr α) (shape : Shape) :
    (sum id left right shape).runs = left.runs ++ right.runs := rfl

theorem runRoots_sublist_postorder (inRun : Bool) (e : Expr α) : (e.runRoots inRun).Sublist e.postorder := by
  induction e generalizing inRun with
  | product id left right shape ihl ihr =>
    rw [runRoots, postorder_product]
    refine ((ihl true).append (ihr true)).append ?_
    cases inRun with
    | false => exact List.Sublist.refl _
    | true => exact List.nil_sublist _
  | sum id left right shape ihl ihr =>
    rw [runRoots, postorder_sum]
    exact ((ihl false).append (ihr false)).trans (List.sublist_append_left ..)
  | _ => exact List.nil_sublist _

/-- What the run of a product holds by itself: its products, over operands that are left whole. -/
def runSkeleton : Expr α → Skeleton (Expr α)
  | product _ left right _ => .product left.runSkeleton right.runSkeleton
  | e => .atom e

def runRecord (run : Expr α) : RunRecord where
  dimensions := boundaries (run.factors.map shape)
  before := run.runSkeleton.cost shape
  after := (Tableau.ofDimensions (boundaries (run.factors.map shape))).cost

def accounts (recording : Bool) (runs : List (Expr α)) : List RunRecord :=
  if recording then (runs.map runRecord).reverse else []

@[simp] theorem accounts_nil (recording : Bool) : accounts recording ([] : List (Expr α)) = [] := by
  cases recording <;> rfl

theorem accounts_append (recording : Bool) (runs later : List (Expr α)) :
    accounts recording (runs ++ later) = accounts recording later ++ accounts recording runs := by
  cases recording <;> simp [accounts]

theorem factors_ne_nil (e : Expr α) : e.factors ≠ [] := by
  induction e with
  | product id left right shape ihl _ => simp [ihl]
  | _ => exact List.cons_ne_nil _ _

theorem arrangedFactors_runSkeleton (e : Expr α) :
    e.runSkeleton.arrangedFactors Expr.shape = e.factors.map .atom := by
  induction e with
  | product id left right shape ihl ihr =>
    rw [runSkeleton, Skeleton.arrangedFactors, ihl, ihr, factors_product, List.map_append]
  | _ => rfl

/-- What the constructors make of nodes of any class. -/
inductive Constructed : Expr α → Prop where
  | foreign (node : Foreign) : Constructed (.foreign node)
  | leaf {matrix : DenseMatrix α} {label : Option String} {e : Expr α} {next next' : NodeId}
      (made : (makeLeaf matrix label).run next = .ok (e, next')) : Constructed e
  | multiply {left right e : Expr α} {next next' : NodeId} (hl : Constructed left) (hr : Constructed right)
      (made : (multiply left right).run next = .ok (e, next')) : Constructed e
  | add {left right e : Expr α} {next next' : NodeId} (hl : Constructed left) (hr : Constructed right)
      (made : (add left right).run next = .ok (e, next')) : Constructed e

theorem Built.constructed {e : Expr α} (h : Built e) : Constructed e := by
  induction h with
  | leaf made => exact .leaf made
  | multiply _ _ made ihl ihr => exact .multiply ihl ihr made
  | add _ _ made ihl ihr => exact .add ihl ihr made

theorem Constructed.linked_factors {e : Expr α} (h : Constructed e) :
    Linked e.shape.rows (e.factors.map Expr.shape) e.shape.cols := by
  induction h with
  | foreign node => exact linked_singleton _
  | leaf made =>
    cases made
    exact linked_singleton _
  | multiply _ _ made ihl ihr =>
    obtain ⟨hinner, rfl⟩ := multiply_run_eq_ok made
    rw [factors_product, List.map_append]
    exact ihl.append (hinner ▸ ihr)
  | add _ _ made =>
    obtain ⟨_, rfl⟩ := add_run_eq_ok made
    exact linked_singleton _

/-- Built operands have sound boundaries. -/
theorem nonneg_of_built {operands : List (Expr α)} (built : ∀ o ∈ operands, Built o) :
    ∀ d ∈ boundaries (operands.map Expr.shape), 0 ≤ d := by
  refine nonneg_of_mem_boundaries fun s hs => ?_
  obtain ⟨o, ho, rfl⟩ := List.mem_map.1 hs
  exact (built o ho).shape_nonneg

section Own

variable {e : Expr α} (h : Built e)
include h

theorem Built.shape_runSkeleton : e.runSkeleton.shape Expr.shape = e.shape := by
  induction h using Built.shapeInduction with
  | leaf => rfl
  | product id left right _ _ _ ihl ihr => rw [runSkeleton, Skeleton.shape, ihl, ihr, Expr.shape]
  | sum => rfl

theorem Built.sound_runSkeleton : e.runSkeleton.Sound Expr.shape := by
  induction h using Built.shapeInduction with
  | leaf id matrix label => exact (built_leaf id matrix label).shape_nonneg
  | product id left right hl hr inner ihl ihr =>
    refine ⟨ihl, ihr, ?_⟩
    rw [hl.shape_runSkeleton, hr.shape_runSkeleton, inner]
  | sum id left right hl hr shapes _ _ => exact (built_sum id hl hr shapes).shape_nonneg

/-- Every product is one of its run or lies inside of an operand of the run. -/
theorem Built.cost_skeleton_eq : e.skeleton.cost Expr.shape =
    e.runSkeleton.cost Expr.shape + total (e.factors.map fun o => o.skeleton.cost Expr.shape) := by
  induction h using Built.shapeInduction with
  | leaf => rfl
  | product id left right hl hr _ ihl ihr =>
    rw [skeleton, runSkeleton, Skeleton.cost, Skeleton.cost, factors_product, List.map_append, total_append, ihl, ihr,
      hl.shape_skeleton, hr.shape_skeleton, hl.shape_runSkeleton, hr.shape_runSkeleton]
    omega
  | sum id left right =>
    have hself : (Expr.sum id left right left.shape).factors = [.sum id left right left.shape] := rfl
    have hrun : (Expr.sum id left right left.shape).runSkeleton = .atom (.sum id left right left.shape) := rfl
    rw [hself, hrun, List.map_singleton, total_cons, total_nil, Skeleton.cost]
    omega

theorem Built.linked_factors : Linked e.shape.rows (e.factors.map Expr.shape) e.shape.cols :=
  h.constructed.linked_factors

theorem Built.map_shape_arrangedFactors :
    (e.skeleton.arrangedFactors Expr.shape).map (Skeleton.shape Expr.shape) = e.factors.map Expr.shape := by
  induction h using Built.shapeInduction with
  | leaf => rfl
  | product id left right _ _ _ ihl ihr =>
    rw [skeleton, Skeleton.arrangedFactors, List.map_append, ihl, ihr, factors_product, List.map_append]
  | sum id left right hl hr shapes _ _ =>
    have hshape := (Skeleton.arranged_reassociated Expr.shape left.skeleton).shape_eq Expr.shape
    rw [hl.shape_skeleton] at hshape
    exact congrArg (fun s => [s]) hshape

theorem Built.nonneg_of_mem_dimensions : ∀ d ∈ e.runRecord.dimensions, 0 ≤ d :=
  nonneg_of_built fun _ => h.of_mem_factors

theorem Built.runRecord_nonneg : 0 ≤ e.runRecord.after :=
  Tableau.costOf_nonneg _ h.nonneg_of_mem_dimensions _ _

/-- A run costs no less by itself than its operands cost along their cheapest bracketing. -/
theorem Built.runRecord_le : e.runRecord.after ≤ e.runRecord.before := by
  obtain ⟨_, _, hbest⟩ := Skeleton.regrouped_atoms Expr.shape e.factors_ne_nil h.linked_factors
  have hleast := Skeleton.cost_arranged_le Expr.shape h.sound_runSkeleton
  rw [Skeleton.arranged, arrangedFactors_runSkeleton, hbest] at hleast
  exact hleast

end Own

theorem Built.runCost_eq {id : NodeId} {left right : Expr α} {shape : Shape}
    (h : Built (.product id left right shape)) :
    (product id left right shape).runCost = .ok (product id left right shape).runRecord.before := by
  have hcosts := mapM_cost_eq fun o ho => h.of_mem_factors (o := o) ho
  simp only [runCost, h.cost_eq, Chain.run, hcosts, h.cost_skeleton_eq, bind, Except.bind, pure, Except.pure,
    Int.add_sub_cancel]
  rfl

/-- The costs of all runs by themselves add up to the cost of the tree. -/
theorem Built.total_before {e : Expr α} (h : Built e) :
    total (e.runs.map fun run => run.runRecord.before) = e.skeleton.cost Expr.shape ∧
      total ((e.runRoots true).map fun run => run.runRecord.before) =
        total (e.factors.map fun o => o.skeleton.cost Expr.shape) := by
  induction h using Built.shapeInduction with
  | leaf => exact ⟨rfl, rfl⟩
  | product id left right hl hr inner ihl ihr =>
    have hown := (built_product id hl hr inner).cost_skeleton_eq
    have hinside : total ((left.runRoots true ++ right.runRoots true).map fun run => run.runRecord.before) =
        total ((product id left right (left.shape.times right.shape)).factors.map fun o =>
          o.skeleton.cost Expr.shape) := by
      rw [List.map_append, total_append, ihl.2, ihr.2, factors_product, List.map_append, total_append]
    constructor
    · rw [runs, runRoots, List.map_append, total_append, hinside, hown]
      simp [runRecord, Int.add_comm]
    · rw [runRoots]
      simpa using hinside
  | sum id left right _ _ _ ihl ihr =>
    have hinside : total ((left.runRoots false ++ right.runRoots false).map fun run => run.runRecord.before) =
        left.skeleton.cost Expr.shape + right.skeleton.cost Expr.shape := by
      rw [List.map_append, total_append]
      exact congrArg₂ (· + ·) ihl.1 ihr.1
    exact ⟨hinside, hinside.trans (Int.add_zero _).symm⟩

theorem Built.total_after {e : Expr α} (h : Built e) :
    total (e.runs.map fun run => run.runRecord.after) = (e.skeleton.arranged Expr.shape).cost Expr.shape ∧
      total ((e.runRoots true).map fun run => run.runRecord.after) =
        total ((e.skeleton.arrangedFactors Expr.shape).map (Skeleton.cost Expr.shape)) := by
  induction h using Built.shapeInduction with
  | leaf id matrix label =>
    have harranged : (Expr.leaf id matrix label).skeleton.arranged Expr.shape = .atom (.leaf id matrix label) :=
      Skeleton.arranged_atom Expr.shape _
    rw [harranged]
    exact ⟨rfl, rfl⟩
  | product id left right hl hr inner ihl ihr =>
    have hbuilt := built_product id hl hr inner
    have hlinked := Skeleton.linked_arrangedFactors Expr.shape hbuilt.sound_skeleton
    have hbest := (Skeleton.shape_cost_regrouped Expr.shape
      (Skeleton.arrangedFactors_ne_nil Expr.shape (product id left right (left.shape.times right.shape)).skeleton)
      hlinked).2
    have hinside : total ((left.runRoots true ++ right.runRoots true).map fun run => run.runRecord.after) =
        total (((product id left right (left.shape.times right.shape)).skeleton.arrangedFactors Expr.shape).map
          (Skeleton.cost Expr.shape)) := by
      rw [List.map_append, total_append, ihl.2, ihr.2, skeleton, Skeleton.arrangedFactors, List.map_append,
        total_append]
    rw [hbuilt.map_shape_arrangedFactors] at hbest
    constructor
    · rw [runs, runRoots, List.map_append, total_append, hinside, Skeleton.arranged, hbest]
      simp [runRecord, Int.add_comm]
    · rw [runRoots]
      simpa using hinside
  | sum id left right _ _ _ ihl ihr =>
    have hinside : total ((left.runRoots false ++ right.runRoots false).map fun run => run.runRecord.after) =
        (left.skeleton.arranged Expr.shape).cost Expr.shape +
          (right.skeleton.arranged Expr.shape).cost Expr.shape := by
      rw [List.map_append, total_append]
      exact congrArg₂ (· + ·) ihl.1 ihr.1
    rw [skeleton, Skeleton.arranged_sum]
    exact ⟨hinside, hinside.trans (Int.add_zero _).symm⟩

end Expr
end MatrixChain
