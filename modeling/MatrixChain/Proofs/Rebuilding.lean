import MatrixChain.Proofs.Joining
import MatrixChain.Proofs.NormalForm

/-!
# Rebuilding a run

A run of products is rebuilt over any operands that have tables, and it is not over any others. What is rebuilt joins
the operands in order, and where none of them is a product, they are the operands of its run.
-/

namespace MatrixChain

open MatrixChain.Chain

namespace Expr

variable {α : Type}

section Operands

variable {operands : List (Expr α)}

/-- An expression that joins the operands in order, under the new nodes. It reaches from the rows of the first to the
columns of the last, and besides the operands it costs what their tables say. -/
structure Rebuilds (operands made : List (Expr α)) (r : Expr α) : Prop where
  joins : ∃ s, s.atoms = operands ∧ Joins s made r
  shape : ∀ first ∈ operands.head?, ∀ last ∈ operands.getLast?, r.shape = ⟨first.shape.rows, last.shape.cols⟩
  cost : ∃ t, dimensionsOf operands >>= Tableau.solve = .ok t ∧
    r.cost = (do pure (total (← operands.mapM Expr.cost) + t.cost))

theorem Joins.rebuilds (h : Sound operands) {made : List (Expr α)} {r : Expr α}
    (joins : Joins (Skeleton.regrouped Expr.shape (operands.map .atom)) made r) : Rebuilds operands made r := by
  have hlinked := linked_of_isChain h.chain h.nonempty
  obtain ⟨hatoms, hshape, hcost⟩ := Skeleton.regrouped_atoms Expr.shape h.nonempty hlinked
  refine ⟨⟨_, hatoms, joins⟩, fun first hfirst last hlast => ?_, _, h.solve_eq, ?_⟩
  · rw [joins.shape_eq, hshape, List.head_of_mem_head? hfirst, List.getLast_of_mem_getLast? hlast]
  · rw [joins.cost_eq, hatoms, hcost]

theorem yields_regroup_of_sound (e : Expr α) (h : Sound operands) :
    Yields (regroup false e operands) (regroup false e operands) fun r added made =>
      added = [] ∧ Rebuilds operands made r := by
  simp only [regroup, lift_ok h.solve_eq, pure_bind, Bool.false_eq_true, if_false]
  exact (yields_associate h).mono fun r added made hr => ⟨hr.1, hr.2.rebuilds h⟩

namespace Rebuilds

variable {made : List (Expr α)} {r : Expr α}

theorem run_eq (h : Rebuilds operands made r) (several : 2 ≤ operands.length) :
    Chain.run r = .ok (operands.flatMap factors) := by
  obtain ⟨s, rfl, hjoins⟩ := h.joins
  exact hjoins.run_eq several

/-- Operands of which none is a product are the operands of the run that is rebuilt. -/
theorem run_eq_operands (h : Rebuilds operands made r) (several : 2 ≤ operands.length)
    (others : ∀ o ∈ operands, o.isProduct = false) : Chain.run r = .ok operands := by
  have hfactors : operands.flatMap factors = operands.flatMap fun o => [o] :=
    List.flatMap_congr fun o ho => by
      have hother := others o ho
      cases o with
      | product => cases hother
      | _ => rfl
  rw [h.run_eq several, hfactors, List.flatMap_singleton']

theorem shape_of_linked (h : Rebuilds operands made r) {rows cols : Int}
    (linked : Linked rows (operands.map Expr.shape) cols) : r.shape = ⟨rows, cols⟩ := by
  obtain ⟨t, ht, _⟩ := h.cost
  have hne : operands ≠ [] := by
    rintro rfl
    cases ht
  obtain ⟨hrows, hcols⟩ := linked.ends_eq hne
  rw [h.shape _ (List.head?_eq_some_head hne) _ (List.getLast?_eq_some_getLast hne), hrows, hcols]

theorem exists_cost (h : Rebuilds operands made r) (known : ∀ o ∈ operands, o.Known) :
    ∃ costs t, operands.mapM Expr.cost = .ok costs ∧ dimensionsOf operands >>= Tableau.solve = .ok t ∧
      r.cost = .ok (total costs + t.cost) := by
  obtain ⟨t, ht, hcost⟩ := h.cost
  obtain ⟨costs, hcosts⟩ := exists_mapM_iff.2 fun o ho => ⟨_, (known o ho).cost_eq_total⟩
  rw [hcosts] at hcost
  exact ⟨costs, t, hcosts, ht, hcost⟩

end Rebuilds

end Operands

theorem isProduct_of_mem_factors {e o : Expr α} (h : o ∈ e.factors) : o.isProduct = false := by
  induction e with
  | product id left right shape ihl ihr =>
    rw [factors_product, List.mem_append] at h
    exact h.elim ihl ihr
  | _ =>
    rw [List.mem_singleton.1 h]
    rfl

theorem two_le_length_factors (id : NodeId) (left right : Expr α) (shape : Shape) :
    2 ≤ (product id left right shape).factors.length := by
  have hl := List.length_pos_iff.2 left.factors_ne_nil
  have hr := List.length_pos_iff.2 right.factors_ne_nil
  rw [factors_product, List.length_append]
  omega

theorem product_withOperands_of_sound (id : NodeId) (left right : Expr α) (shape : Shape) {operands : List (Expr α)}
    (h : Sound operands) (records : List RunRecord) (next : NodeId) : ∃ r made,
      (((product id left right shape).withOperands false operands).run records).run next =
        .ok ((r, records), next + made.length) ∧
      made.map Expr.id = List.range' next made.length ∧ Rebuilds operands made r := by
  have hyields := yields_regroup_of_sound (product id left right shape) h
  obtain ⟨r, added, made, hrun, _, hids, rfl, hrebuilds⟩ := hyields next
  exact ⟨r, made, hrun records, hids, hrebuilds⟩

theorem product_withOperands_of_flawed (id : NodeId) (left right : Expr α) (shape : Shape)
    {operands : List (Expr α)} {chain : BrokenChain} (h : Flawed operands chain) (records : List RunRecord)
    (next : NodeId) : (((product id left right shape).withOperands false operands).run records).run next =
      .error (.brokenChain chain) := by
  rw [withOperands, regroup, h.solve_eq]
  rfl

end Expr
end MatrixChain
