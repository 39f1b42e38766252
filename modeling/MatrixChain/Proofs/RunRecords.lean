import MatrixChain.Proofs.NormalForm

/-!
# The records of the runs

What is noted while an expression is reassociated: one record for each maximal run of products, those of the runs inside
of its operands first. Together the records account for every scalar multiplication of the expression and of the answer.
-/

namespace MatrixChain

variable {α : Type}

/-- The record tells of the run of a product its boundaries, by the way the number of its operands, what its products
cost as they are associated, and what they cost at best. -/
structure RunRecord.Describes (record : RunRecord) (run : Expr α) : Prop where
  dimensions : Chain.dimensionsOf run.factors = .ok record.dimensions
  operands : run.factors.length = record.dimensions.length - 1
  before : run.runCost = .ok record.before
  after : ∃ t, Tableau.solve record.dimensions = .ok t ∧ t.cost = record.after
  text : record.text = "Reassociating chain of " ++ toString run.factors.length ++ " operands " ++
    Text.tuple (record.dimensions.map toString) ++ ": " ++ toString record.before ++
    " scalar multiplications down to " ++ toString record.after

theorem RunRecord.text_eq {record : RunRecord} {operands : Nat} (h : operands = record.dimensions.length - 1) :
    record.text = "Reassociating chain of " ++ toString operands ++ " operands " ++
      Text.tuple (record.dimensions.map toString) ++ ": " ++ toString record.before ++
      " scalar multiplications down to " ++ toString record.after := by
  subst h
  rfl

namespace Expr

open Chain

theorem eq_product_of_mem_runRoots {inRun : Bool} {e run : Expr α} (h : run ∈ e.runRoots inRun) :
    ∃ id left right shape, run = product id left right shape := by
  induction e generalizing inRun with
  | product id left right shape ihl ihr =>
    rw [runRoots, List.mem_append, List.mem_append] at h
    rcases h with (h | h) | h
    · exact ihl h
    · exact ihr h
    · cases inRun with
      | false => exact ⟨id, left, right, shape, List.mem_singleton.1 h⟩
      | true => cases h
  | sum id left right shape ihl ihr =>
    rw [runRoots, List.mem_append] at h
    exact h.elim ihl ihr
  | _ => cases h

/-- The runs inside of the operands of a run come before it, from left to right. -/
theorem runRoots_true_eq_flatMap (e : Expr α) : e.runRoots true = e.factors.flatMap runs := by
  induction e with
  | product id left right shape ihl ihr =>
    rw [runRoots, ihl, ihr, factors_product, List.flatMap_append, if_pos rfl, List.append_nil]
  | _ => exact (List.append_nil _).symm

theorem describes_runRecord {id : NodeId} {left right : Expr α} {shape : Shape}
    (h : Built (.product id left right shape)) :
    (product id left right shape).runRecord.Describes (product id left right shape) := by
  have hne := factors_ne_nil (product id left right shape)
  have hpos := List.length_pos_iff.2 hne
  have hlength : (product id left right shape).runRecord.dimensions.length =
    (product id left right shape).factors.length + 1 := length_boundaries_map Expr.shape hne
  have hcount : (product id left right shape).factors.length =
      (product id left right shape).runRecord.dimensions.length - 1 := by omega
  have hsolve := Tableau.solve_eq_ok (by omega) h.nonneg_of_mem_dimensions
  exact {
    dimensions := dimensionsOf_of_linked h.linked_factors hne
    operands := hcount
    before := h.runCost_eq
    after := ⟨_, hsolve, rfl⟩
    text := RunRecord.text_eq hcount }

theorem forall₂_describes {runs : List (Expr α)}
    (h : ∀ run ∈ runs, Built run ∧ ∃ id left right shape, run = product id left right shape) :
    List.Forall₂ RunRecord.Describes (runs.map runRecord) runs := by
  rw [List.forall₂_map_left_iff, List.forall₂_same]
  intro run hrun
  obtain ⟨hbuilt, id, left, right, shape, rfl⟩ := h run hrun
  exact describes_runRecord hbuilt

/-- Reassociating with records gives the same answer as without. The records describe the maximal runs, in post-order,
no run costs more at best than it did, and the costs before and after add up to those of the expression and of the
answer. -/
theorem reassociateRecorded_accounts {e : Expr α} (h : Built e) (next : NodeId) :
    ∃ r records next', e.reassociateRecorded.run next = .ok ((r, records), next') ∧
      e.reassociate.run next = .ok (r, next') ∧
      e.runs.Sublist e.postorder ∧ (∀ run ∈ e.runs, run.runs = run.factors.flatMap runs ++ [run]) ∧
      List.Forall₂ RunRecord.Describes records e.runs ∧
      (∀ record ∈ records, 0 ≤ record.after ∧ record.after ≤ record.before) ∧
      e.cost = .ok (total (records.map RunRecord.before)) ∧ r.cost = .ok (total (records.map RunRecord.after)) := by
  obtain ⟨r, made, hrecorded, hrun, _, harranges, _⟩ := h.reassociate_spec next
  have hruns : ∀ run ∈ e.runs, Built run ∧ ∃ id left right shape, run = product id left right shape :=
    fun run hrun => ⟨h.of_mem_postorder ((runRoots_sublist_postorder false e).subset hrun),
      eq_product_of_mem_runRoots hrun⟩
  refine ⟨r, e.runs.map runRecord, _, hrecorded, hrun, runRoots_sublist_postorder false e, fun run hrun => ?_,
    forall₂_describes hruns, fun record hrecord => ?_, ?_, ?_⟩
  · obtain ⟨_, id, left, right, shape, rfl⟩ := hruns run hrun
    rw [runs_product, runRoots_true_eq_flatMap]
  · obtain ⟨run, hrun, rfl⟩ := List.mem_map.1 hrecord
    exact ⟨(hruns run hrun).1.runRecord_nonneg, (hruns run hrun).1.runRecord_le⟩
  · rw [h.cost_eq, List.map_map, ← h.total_before.1]
    rfl
  · rw [harranges.1.cost_eq, harranges.2, List.map_map, ← h.total_after.1]
    rfl

theorem reassociateRecorded_accounts_of_outerFirst :
    Built outerFirst ∧ ∃ r records next', outerFirst.reassociateRecorded.run 10 = .ok ((r, records), next') ∧
      outerFirst.reassociate.run 10 = .ok (r, next') ∧ records.length = 2 ∧
      total (records.map RunRecord.before) = 21 ∧ r.cost = .ok (total (records.map RunRecord.after)) := by
  obtain ⟨r, records, next', hrecorded, hrun, _, _, hdescribes, _, hcost, hcost'⟩ :=
    reassociateRecorded_accounts built_outerFirst 10
  have htwentyOne : outerFirst.cost = .ok 21 := built_outerFirst.cost_eq
  exact ⟨built_outerFirst, r, records, next', hrecorded, hrun, hdescribes.length_eq,
    (Except.ok.inj (htwentyOne.symm.trans hcost)).symm, hcost'⟩

end Expr
end MatrixChain
