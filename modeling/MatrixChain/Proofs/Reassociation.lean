import MatrixChain.Proofs.Joining
import MatrixChain.Proofs.Runs

/-!
# Reassociation arranges

Reassociating a built expression succeeds, with a built expression whose skeleton is the cheapest arrangement, over
the leaves that were there and under new nodes with identities of their own. If records are asked for, there is one for
each run, and they have no say in the answer.
-/

namespace MatrixChain

namespace Expr

open Chain

variable {α : Type}

section Recursion

variable (recording : Bool)

theorem reassociating_leaf (id : NodeId) (matrix : DenseMatrix α) (label : Option String) :
    (leaf id matrix label).reassociating recording = pure (leaf id matrix label) :=
  Fold.fold_eq_mapM runOperandsOf (withOperands recording) acc_smaller (leaf id matrix label)

theorem reassociating_sum (id : NodeId) (left right : Expr α) (shape : Shape) :
    (sum id left right shape).reassociating recording = (do
      let l ← left.reassociating recording
      let r ← right.reassociating recording
      (add l r : Build (Expr α))) := by
  have h := Fold.fold_eq_mapM runOperandsOf (withOperands recording) acc_smaller (sum id left right shape)
  simp only [runOperandsOf, pure_bind, List.mapM_cons, List.mapM_nil, bind_assoc] at h
  exact h

theorem reassociating_product (id : NodeId) (left right : Expr α) (shape : Shape) :
    (product id left right shape).reassociating recording =
      (product id left right shape).factors.mapM (reassociating recording) >>=
        regroup recording (product id left right shape) := by
  have h := Fold.fold_eq_mapM runOperandsOf (withOperands recording) acc_smaller (product id left right shape)
  simp only [runOperandsOf, pure_bind] at h
  exact h

end Recursion

section Operands

variable {operands : List (Expr α)} (built : ∀ o ∈ operands, Built o)
include built

theorem map_shape_skeleton :
    (operands.map skeleton).map (Skeleton.shape Expr.shape) = operands.map Expr.shape := by
  rw [List.map_map]
  exact List.map_congr_left fun o ho => (built o ho).shape_skeleton

/-- What joins built operands in their cheapest arrangement is built, and arranged like them. -/
theorem Joins.arranges (sound : Sound operands) {made : List (Expr α)} {r : Expr α}
    (joins : Joins (Skeleton.regrouped Expr.shape (operands.map .atom)) made r) :
    (Built r ∧ r.skeleton = Skeleton.regrouped Expr.shape (operands.map skeleton)) ∧
      ComposedOf made (operands.flatMap postorder) r := by
  have hlinked := linked_of_isChain sound.chain sound.nonempty
  have hatoms := (Skeleton.regrouped_atoms Expr.shape sound.nonempty hlinked).1
  have hcomposed := joins.composedOf
  rw [hatoms] at hcomposed
  refine ⟨⟨joins.built fun o ho => built o (hatoms ▸ ho), ?_⟩, hcomposed⟩
  rw [joins.skeleton_eq]
  exact Skeleton.graft_regrouped Expr.shape skeleton rfl (map_shape_skeleton built)

end Operands

/-- Regrouping a product puts operands that have the shapes of its own together, with the record of the run if records
are asked for. -/
theorem yields_regroup (recording : Bool) {id : NodeId} {left right : Expr α} {shape : Shape}
    (h : Built (.product id left right shape)) {operands : List (Expr α)} (built : ∀ o ∈ operands, Built o)
    (shapes : operands.map Expr.shape = (product id left right shape).factors.map Expr.shape) :
    Yields (regroup recording (.product id left right shape) operands)
      (regroup false (.product id left right shape) operands) fun r added made =>
        (Built r ∧ r.skeleton = Skeleton.regrouped Expr.shape (operands.map skeleton)) ∧
          added = accounts recording [product id left right shape] ∧
          ComposedOf made (operands.flatMap postorder) r := by
  have hne : operands ≠ [] := by
    rintro rfl
    exact factors_ne_nil _ (List.map_eq_nil_iff.1 shapes.symm)
  have hlinked := h.linked_factors
  rw [← shapes] at hlinked
  have hsound : Sound operands := ⟨hne, isChain_of_linked hlinked, nonneg_of_built built⟩
  have hanswer := (yields_associate hsound).mono fun r added made hr =>
    And.intro hr.1 (Joins.arranges built hsound hr.2)
  simp only [regroup, lift_ok hsound.solve_eq, pure_bind, Bool.false_eq_true, if_false]
  cases recording with
  | false => exact hanswer.mono fun _ _ _ hr => ⟨hr.2.1, by rw [hr.1]; rfl, hr.2.2⟩
  | true =>
    have hrecord : Yields (recordRun (.product id left right shape)
        (Tableau.ofDimensions (boundaries (operands.map Expr.shape)))) (pure ()) fun _ added (made : List (Expr α)) =>
          added = [(product id left right shape).runRecord] ∧ made = [] := by
      rw [recordRun, lift_ok h.runCost_eq, pure_bind, shapes]
      exact .keep ⟨rfl, rfl⟩
    refine .bind (y := pure ()) hrecord fun _ _ _ hadded => hanswer.mono fun _ _ _ hr => ⟨hr.2.1, ?_⟩
    obtain ⟨rfl, rfl⟩ := hadded
    rw [hr.1]
    exact ⟨rfl, hr.2.2⟩

section Arranging

variable (recording : Bool)

/-- The kind of answer that arranging `e` has. -/
def Arranges (e r : Expr α) : Prop :=
  Built r ∧ r.skeleton = e.skeleton.arranged Expr.shape

def ArrangesEach (e : Expr α) (operands : List (Expr α)) : Prop :=
  (∀ o ∈ operands, Built o) ∧ operands.map skeleton = e.skeleton.arrangedFactors Expr.shape

theorem Arranges.shape_eq {e r : Expr α} (h : Built e) (hr : Arranges e r) : r.shape = e.shape := by
  rw [← hr.1.shape_skeleton, hr.2, (Skeleton.arranged_reassociated Expr.shape _).shape_eq, h.shape_skeleton]

theorem ArrangesEach.shapes {e : Expr α} {operands : List (Expr α)} (h : Built e)
    (hoperands : ArrangesEach e operands) : operands.map Expr.shape = e.factors.map Expr.shape := by
  rw [← h.map_shape_arrangedFactors, ← hoperands.2, map_shape_skeleton hoperands.1]

/-- The kind of answer that rewriting `e` has, the records of its runs, and where the nodes of the answer come from. -/
def Rewrites (e r : Expr α) (added : List RunRecord) (made : List (Expr α)) : Prop :=
  Arranges e r ∧ added = accounts recording e.runs ∧ ComposedOf made e.postorder r

def RewritesEach (e : Expr α) (operands : List (Expr α)) (added : List RunRecord) (made : List (Expr α)) : Prop :=
  ArrangesEach e operands ∧ added = accounts recording (e.runRoots true) ∧
    ∀ o ∈ operands, ComposedOf made e.postorder o

def Rewritable (e : Expr α) : Prop :=
  Yields (e.reassociating recording) (e.reassociating false) (Rewrites recording e)

def RewritableEach (e : Expr α) : Prop :=
  Yields (e.factors.mapM (reassociating recording)) (e.factors.mapM (reassociating false)) (RewritesEach recording e)

variable {recording}

/-- What stands for itself in a run is its only operand. -/
theorem Rewritable.each {e : Expr α} (h : Rewritable recording e) (hfactors : e.factors = [e])
    (hskeleton : e.skeleton.arrangedFactors Expr.shape = [e.skeleton.arranged Expr.shape])
    (hruns : e.runRoots true = e.runs) : RewritableEach recording e := by
  rw [RewritableEach, hfactors, List.mapM_cons, List.mapM_nil, List.mapM_cons, List.mapM_nil]
  refine .bind h fun r added made hr => .pure ⟨⟨by simpa using hr.1.1, ?_⟩, ?_, by simpa using hr.2.2⟩
  · rw [hskeleton, ← hr.1.2]
    rfl
  · rw [hruns, ← hr.2.1]
    rfl

variable (recording) in
theorem rewritable_leaf (id : NodeId) (matrix : DenseMatrix α) (label : Option String) :
    Rewritable recording (leaf id matrix label) := by
  rw [Rewritable, reassociating_leaf, reassociating_leaf]
  exact .pure ⟨⟨built_leaf id matrix label, (Skeleton.arranged_atom Expr.shape _).symm⟩, (accounts_nil _).symm,
    fun n hn => Or.inr hn⟩

section Node

variable (id : NodeId) {left right : Expr α}

theorem RewritableEach.product (hl : RewritableEach recording left) (hr : RewritableEach recording right)
    (shape : Shape) : RewritableEach recording (product id left right shape) := by
  rw [RewritableEach, factors_product, List.mapM_append, List.mapM_append]
  refine .bind hl fun ls _ made hls => .bind hr fun rs _ made' hrs =>
    .pure ⟨⟨fun o ho => ?_, ?_⟩, ?_, fun o ho => ?_⟩
  · rcases List.mem_append.1 ho with ho | ho
    · exact hls.1.1 o ho
    · exact hrs.1.1 o ho
  · rw [List.map_append, hls.1.2, hrs.1.2]
    rfl
  · rw [runRoots, if_pos rfl, List.append_nil, accounts_append, hls.2.1, hrs.2.1]
    rfl
  · rw [List.append_nil, postorder_product]
    rcases List.mem_append.1 ho with ho | ho
    · exact (hls.2.2 o ho).mono (List.subset_append_left ..) (by simp)
    · exact (hrs.2.2 o ho).mono (List.subset_append_right ..) (by simp)

theorem RewritableEach.regrouped {shape : Shape} (h : Built (.product id left right shape))
    (hrun : RewritableEach recording (.product id left right shape)) :
    Rewritable recording (.product id left right shape) := by
  rw [Rewritable, reassociating_product, reassociating_product]
  refine .bind hrun fun operands _ made hoperands => ?_
  obtain ⟨hoperands, rfl, hmade⟩ := hoperands
  have hregroup := yields_regroup recording h hoperands.1 (hoperands.shapes h)
  rw [hoperands.2] at hregroup
  refine hregroup.mono fun r added _ hr => ⟨hr.1, ?_, hr.2.2.trans hmade⟩
  rw [hr.2.1, ← accounts_append, runs_product]

theorem Rewritable.sum (hl : Built left) (hr : Built right) (shapes : left.shape = right.shape)
    (hleft : Rewritable recording left) (hright : Rewritable recording right) :
    Rewritable recording (sum id left right left.shape) := by
  rw [Rewritable, reassociating_sum, reassociating_sum]
  refine .bind hleft fun l _ made hl' => .bind hright fun r _ made' hr' => .of_build fun next => ?_
  obtain ⟨hl', rfl, hcl⟩ := hl'
  obtain ⟨hr', rfl, hcr⟩ := hr'
  have hshape : l.shape = r.shape := by rw [hl'.shape_eq hl, hr'.shape_eq hr, shapes]
  refine ⟨_, add_run hshape next, rfl, ⟨built_sum next hl'.1 hr'.1 hshape, ?_⟩, ?_, ?_⟩
  · rw [skeleton, skeleton, Skeleton.arranged_sum, hl'.2, hr'.2]
  · rw [runs_sum, accounts_append]
    rfl
  · rw [postorder_sum]
    exact composedOf_pair rfl (hcl.mono (List.Subset.refl _) (by simp)) (hcr.mono (List.Subset.refl _) (by simp))

end Node

variable (recording)

/-- Rewriting a built expression succeeds, and so does rewriting the operands of its run. -/
theorem yields_reassociating {e : Expr α} (h : Built e) : Rewritable recording e ∧ RewritableEach recording e := by
  induction h using Built.shapeInduction with
  | leaf id matrix label =>
    have hleaf := rewritable_leaf recording id matrix label
    exact ⟨hleaf, hleaf.each rfl (by simp [skeleton, Skeleton.arrangedFactors]) rfl⟩
  | product id left right hl hr inner ihl ihr =>
    have hrun := ihl.2.product id ihr.2 (left.shape.times right.shape)
    exact ⟨hrun.regrouped id (built_product id hl hr inner), hrun⟩
  | sum id left right hl hr shapes ihl ihr =>
    have hsum := ihl.1.sum id hl hr shapes ihr.1
    exact ⟨hsum, hsum.each rfl (by rw [skeleton, Skeleton.arranged_sum]; rfl) rfl⟩

end Arranging

/-- Reassociating a built expression arranges it, with and without records alike. The new nodes have identities of their
own, and there is one record for each run. -/
theorem Built.reassociate_spec {e : Expr α} (h : Built e) (next : NodeId) :
    ∃ r made, e.reassociateRecorded.run next = .ok ((r, e.runs.map runRecord), next + made.length) ∧
      e.reassociate.run next = .ok (r, next + made.length) ∧ made.map Expr.id = List.range' next made.length ∧
      Arranges e r ∧ ComposedOf made e.postorder r := by
  obtain ⟨r, added, made, hrun, hrun', hids, harranges, rfl, hmade⟩ := (yields_reassociating true h).1 next
  refine ⟨r, made, ?_, ?_, hids, harranges, hmade⟩
  · rw [reassociateRecorded, StateT.run_bind, hrun]
    simp [accounts]
  · rw [reassociate, StateT.run_bind, hrun']
    rfl

theorem Built.reassociate_run {e : Expr α} (h : Built e) (next : NodeId) :
    ∃ r next', e.reassociate.run next = .ok (r, next') ∧ Arranges e r := by
  obtain ⟨r, made, _, hrun, _, hr, _⟩ := h.reassociate_spec next
  exact ⟨r, _, hrun, hr⟩

end Expr
end MatrixChain
