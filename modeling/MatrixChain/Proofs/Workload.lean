import MatrixChain.Expr.Infix
import MatrixChain.Proofs.PoolLog
import MatrixChain.Proofs.ShapeInvariant

/-!
# Work that is done

The cost of a tree is told from the shapes that its nodes declare. It is the number of scalar multiplications in the
matrix products that either strategy makes, one for each product of the tree.
-/

namespace MatrixChain

open MatrixChain.Expr MatrixChain.Pool

namespace Expr

variable {α : Type}

def NodeCall.factors? : NodeCall α (DenseMatrix α) → Option (DenseMatrix α × DenseMatrix α)
  | ⟨product .., [a, b], _⟩ => some (a, b)
  | _ => none

/-- Scalar multiplications in the matrix products of some calls, by the matrices that were multiplied. -/
def workload (calls : List (NodeCall α (DenseMatrix α))) : Int :=
  total ((calls.filterMap NodeCall.factors?).map fun factors => factors.1.shape.work factors.2.shape)

theorem isSome_declaredWork? (e : Expr α) : e.declaredWork?.isSome = e.isProduct := by
  cases e <;> rfl

theorem total_eq_of_perm {works works' : List Int} (h : works.Perm works') : total works = total works' := by
  induction h with
  | nil => rfl
  | cons work _ ih => rw [total_cons, total_cons, ih]
  | swap work work' works => simp only [total_cons, Int.add_left_comm]
  | trans _ _ ih ih' => exact ih.trans ih'

variable [Zero α] [Add α] [Mul α]

theorem NodeCall.Holds.operands_pair {call : NodeCall α (DenseMatrix α)} (h : call.Holds realize) {left right : Expr α}
    (hchildren : call.node.children = [left, right]) :
    ∃ a b, left.foldChildren realize = .ok a ∧ right.foldChildren realize = .ok b ∧ call.operands = [a, b] := by
  have hoperands := h.operands
  rw [hchildren, List.mapM_cons, List.mapM_cons, List.mapM_nil] at hoperands
  obtain ⟨a, ha, hoperands⟩ := exists_of_bind_eq_ok hoperands
  obtain ⟨_, hrest, hoperands⟩ := exists_of_bind_eq_ok hoperands
  obtain ⟨b, hb, ⟨⟩⟩ := exists_of_bind_eq_ok hrest
  exact ⟨a, b, ha, hb, (Except.ok.inj hoperands).symm⟩

/-- What a call multiplies has the shapes that its node takes it to have, and the product is the value. -/
theorem NodeCall.Holds.factors {call : NodeCall α (DenseMatrix α)} (h : call.Holds realize) (built : Built call.node) :
    (call.factors?.map fun factors => factors.1.shape.work factors.2.shape) = call.node.declaredWork? ∧
      ∀ a b, call.factors? = some (a, b) → a.mul? b = some call.value := by
  obtain ⟨node, operands, value⟩ := call
  cases node with
  | leaf id matrix label => exact ⟨rfl, fun a b hfactors => by cases hfactors⟩
  | product id left right shape =>
    obtain ⟨hl, hr, hinner, rfl⟩ := built_product_iff.1 built
    obtain ⟨a, b, ha, hb, rfl⟩ := h.operands_pair rfl
    have hashape := hl.shape_of_foldChildren ha
    have hbshape := hr.shape_of_foldChildren hb
    refine ⟨?_, ?_⟩
    · rw [declaredWork?, ← hashape, ← hbshape]
      rfl
    · rintro _ _ ⟨⟩
      obtain ⟨c, hc, _, hproduct⟩ := realizeProduct_eq_ok hashape hbshape hinner
      rw [hproduct]
      exact congrArg some (Except.ok.inj (hc.symm.trans h.value))
  | sum id left right shape => exact ⟨rfl, fun a b hfactors => by cases hfactors⟩
  | foreign node => exact ⟨rfl, fun a b hfactors => by cases hfactors⟩

/-- A log of an evaluation: one call for each node of the tree, and `cost` scalar multiplications in the matrix products
that they make, one for each product of the tree. -/
structure Accounts (e : Expr α) (cost : Int) (calls : List (NodeCall α (DenseMatrix α))) : Prop where
  nodes : (calls.map NodeCall.node).Perm e.postorder
  holds : ∀ call ∈ calls, call.Holds realize
  products : ∀ call ∈ calls, ∀ a b, call.factors? = some (a, b) → a.mul? b = some call.value
  count : (calls.filterMap NodeCall.factors?).length = e.postorder.countP isProduct
  workload : workload calls = cost

theorem Built.accounts {e : Expr α} (h : Built e) {calls : List (NodeCall α (DenseMatrix α))}
    (nodes : (calls.map NodeCall.node).Perm e.postorder) (holds : ∀ call ∈ calls, call.Holds realize) :
    Accounts e (total (e.postorder.filterMap declaredWork?)) calls := by
  have hbuilt : ∀ call ∈ calls, Built call.node := fun call hcall =>
    h.of_mem_postorder (nodes.mem_iff.1 (List.mem_map_of_mem hcall))
  have hworks : (calls.filterMap NodeCall.factors?).map (fun factors => factors.1.shape.work factors.2.shape) =
      (calls.map NodeCall.node).filterMap declaredWork? := by
    rw [List.map_filterMap, List.filterMap_map]
    exact List.filterMap_congr fun call hcall => ((holds call hcall).factors (hbuilt call hcall)).1
  have hperm := nodes.filterMap declaredWork?
  constructor
  · exact nodes
  · exact holds
  · exact fun call hcall => ((holds call hcall).factors (hbuilt call hcall)).2
  · rw [← List.length_map, hworks, hperm.length_eq, List.length_filterMap_eq_countP]
    simp only [isSome_declaredWork?]
  · rw [Expr.workload, hworks]
    exact total_eq_of_perm hperm

end Expr

variable {α : Type} [Zero α] [Add α] [Mul α]

/-- For a tree of a session, either strategy makes one matrix product for each product of the tree, shared or not, and
the scalar multiplications in these are the cost of the tree. -/
theorem Session.workload_eq_cost {next : NodeId} {nodes : List (Expr α)} (session : Session next nodes) {e : Expr α}
    (he : e ∈ nodes) {timetable : Timetable} (valid : timetable.Valid) {workers : Option Int}
    (positive : ∀ n ∈ workers, 0 < n) :
    ∃ cost a calls calls', e.cost = .ok cost ∧
      e.evaluate .sequential workers = .ok a ∧ (e.foldChildren (recording id realize)).run [] = .ok (a, calls) ∧
      calls.map NodeCall.node = e.postorder ∧ Accounts e cost calls ∧
      e.evaluateByLevels timetable workers = .ok a ∧ e.evaluate .threaded workers = .ok a ∧
      (Pool.evaluate (recording id realize) timetable workers e).run [] = .ok (a, calls') ∧
      calls'.map NodeCall.node = timetable.tasks 0 e.levels.toList ∧ Accounts e cost calls' := by
  have hbuilt := session.built he
  have hidentified := session.identified he
  have hok := hbuilt.exists_foldChildren
  obtain ⟨a, ha⟩ := hok e e.mem_postorder_self
  have hlevels : e.evaluateByLevels timetable workers = .ok a :=
    (session.evaluateByLevels_inOrder he valid positive).trans ha
  have hthreaded : e.evaluate .threaded workers = .ok a :=
    (session.evaluateByLevels_inOrder he Timetable.valid_oneByOne positive).trans ha
  have hfold : Records id realize _ e.evaluateInOrder e.postorder := records_foldChildren e
  have hpool : Records id realize _ (e.evaluateByLevels timetable workers) (timetable.tasks 0 e.levels.toList) :=
    records_evaluate hidentified hok valid positive
  obtain ⟨calls, hrun, hnodes, hcalls⟩ := hfold a ha []
  obtain ⟨calls', hrun', hnodes', hcalls'⟩ := hpool a hlevels []
  rw [List.map_id, List.nil_append] at hrun hrun'
  have hperm : (timetable.tasks 0 e.levels.toList).Perm e.postorder :=
    (valid.tasks_perm 0 e.levels.toList).trans e.flatMap_levels_perm
  exact ⟨_, a, calls, calls', hbuilt.known.cost_eq_total, ha, hrun, hnodes, hbuilt.accounts (hnodes ▸ .refl _) hcalls,
    hlevels, hthreaded, hrun', hnodes', hbuilt.accounts (hnodes' ▸ hperm) hcalls'⟩

theorem Session.workload_eq_cost_of_sharedSum :
    Session 5 [sharedSum, product 3 twosProduct (twos 0) ⟨1, 1⟩, twosProduct, twos 1, twos 0] ∧
      Timetable.lastFirst.Valid ∧ (∀ n ∈ some (2 : Int), 0 < n) ∧
      ∃ a calls calls', (sharedSum.foldChildren (recording id realize)).run [] = .ok (a, calls) ∧ workload calls = 3 ∧
        (Pool.evaluate (recording id realize) .lastFirst (some 2) sharedSum).run [] = .ok (a, calls') ∧
        workload calls' = 3 ∧ (calls'.filterMap NodeCall.factors?).length = 3 := by
  have hworkers : ∀ n ∈ some (2 : Int), 0 < n := by simp
  obtain ⟨cost, a, calls, calls', hcost, _, hrun, _, hcalls, _, _, hrun', _, hcalls'⟩ :=
    session_sharedSum.workload_eq_cost List.mem_cons_self Timetable.valid_lastFirst hworkers
  have hthree : sharedSum.cost = .ok 3 := (session_sharedSum.built List.mem_cons_self).known.cost_eq_total
  obtain rfl : cost = 3 := Except.ok.inj (hcost.symm.trans hthree)
  exact ⟨session_sharedSum, Timetable.valid_lastFirst, hworkers, a, calls, calls', hrun, hcalls.workload, hrun',
    hcalls'.workload, hcalls'.count⟩

end MatrixChain
