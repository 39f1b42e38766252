import MatrixChain.Proofs.NormalForm

/-!
# The cost from left to right

What is added up from left to right over the boundaries of a chain is the cost of the products that are built when the
operands are folded from the left, apart from what the operands cost themselves. Boundaries that have no such cost are
those that have no cheapest association.
-/

namespace MatrixChain
namespace Skeleton

open Chain

variable {β : Type} [Inhabited β] (extent : β → Shape)

theorem foldl_product_eq (first : Skeleton β) (rest : List (Skeleton β)) : rest.foldl .product first =
    (Bracketing.leftDeep rest.length).assemble (fun i => (first :: rest).getD i (.atom default)) .product := by
  have hrest : ((List.range rest.length).map fun i => (first :: rest).getD (i + 1) (.atom default)) = rest := by
    apply List.ext_getElem
    · simp
    · intro i _ hi
      simp [hi]
  rw [Bracketing.assemble_leftDeep, hrest]
  rfl

theorem cost_foldl_product {first : Skeleton β} {rest : List (Skeleton β)} {rows cols : Int}
    (linked : Linked rows ((first :: rest).map (shape extent)) cols) :
    (rest.foldl .product first).cost extent =
      (Bracketing.leftDeep rest.length).cost (boundaries ((first :: rest).map (shape extent))).toArray +
        total ((first :: rest).map (cost extent)) := by
  have hspans := Bracketing.leftDeep_spans rest.length
  have hoperands := hspans.map_getD_operands (List.cons_ne_nil first rest) (.atom default)
  have hcost := (shape_cost_assemble extent (fun i => (first :: rest).getD i (.atom default)) hspans fun m _ hm =>
    shape_getD_of_linked linked (Nat.lt_succ_of_le hm)).2
  have hcosts := congrArg (List.map (cost extent)) hoperands
  rw [List.map_map] at hcosts
  rw [foldl_product_eq, hcost]
  exact congrArg (fun costs => _ + total costs) hcosts

end Skeleton

namespace Expr

open Chain

variable {α : Type}

/-- Folding products from the left over operands that meet succeeds, with the tree that leans to the left. -/
theorem foldlM_multiply_run {first : Expr α} {rest : List (Expr α)} (built : ∀ o ∈ first :: rest, Built o)
    (chain : (first :: rest).IsChain Meets) (next : NodeId) :
    ∃ r next', (rest.foldlM multiply first).run next = .ok (r, next') ∧ Built r ∧
      r.skeleton = (rest.map skeleton).foldl .product first.skeleton := by
  induction rest generalizing first next with
  | nil => exact ⟨first, next, rfl, built first List.mem_cons_self, rfl⟩
  | cons o rest ih =>
    rw [List.isChain_cons_cons] at chain
    obtain ⟨hmeets, hrest⟩ := chain
    rw [List.forall_mem_cons, List.forall_mem_cons] at built
    obtain ⟨hfirst, ho, hbuilt⟩ := built
    have hproduct := built_product next hfirst ho hmeets
    have hchain : (product next first o (first.shape.times o.shape) :: rest).IsChain Meets := by
      cases rest with
      | nil => exact .singleton _
      | cons o' rest =>
        rw [List.isChain_cons_cons] at hrest
        exact .cons_cons hrest.1 hrest.2
    obtain ⟨r, next', hrun, hr, hskeleton⟩ := ih (List.forall_mem_cons.2 ⟨hproduct, hbuilt⟩) hchain (next + 1)
    refine ⟨r, next', ?_, hr, hskeleton⟩
    rw [List.foldlM_cons, StateT.run_bind, multiply_run hmeets]
    exact hrun

/-- The fold costs what the left-deep bracketing costs besides the operands. -/
theorem foldlM_multiply_cost {first : Expr α} {rest : List (Expr α)} (built : ∀ o ∈ first :: rest, Built o)
    (chain : (first :: rest).IsChain Meets) (next : NodeId) :
    ∃ r next', (rest.foldlM multiply first).run next = .ok (r, next') ∧
      r.cost = .ok ((Bracketing.leftDeep rest.length).cost (boundaries ((first :: rest).map shape)).toArray +
        total ((first :: rest).map fun o => o.skeleton.cost shape)) := by
  obtain ⟨r, next', hrun, hr, hskeleton⟩ := foldlM_multiply_run built chain next
  refine ⟨r, next', hrun, ?_⟩
  have hlinked := linked_of_isChain chain (List.cons_ne_nil first rest)
  have hshapes := map_shape_skeleton built
  rw [← hshapes, List.map_cons] at hlinked
  rw [hr.cost_eq, hskeleton, Skeleton.cost_foldl_product shape hlinked, ← List.map_cons, hshapes, List.length_map,
    List.map_map]
  rfl

/-- For operands that meet, what is added up from left to right is what the tree that leans to the left costs apart from
its operands, and no less than the least cost. Other boundaries are refused by both, for what is wrong with them. -/
theorem leftDeepCost_spec :
    (∀ (first : Expr α) (rest : List (Expr α)), (∀ o ∈ first :: rest, Built o) → (first :: rest).IsChain Meets →
      ∃ dimensions t sum costs, dimensionsOf (first :: rest) = .ok dimensions ∧ Tableau.solve dimensions = .ok t ∧
        leftDeepCost dimensions = .ok sum ∧ t.cost ≤ sum ∧ (first :: rest).mapM cost = .ok costs ∧
        ∀ next, ∃ r next' whole, (rest.foldlM multiply first).run next = .ok (r, next') ∧ r.cost = .ok whole ∧
          sum = whole - total costs) ∧
    ∀ dimensions fault, (leftDeepCost dimensions = .error fault ↔ Tableau.solve dimensions = .error fault) ∧
      (Tableau.solve dimensions = .error fault ↔
        ∃ flaw, Malformed dimensions flaw ∧ fault = broken dimensions flaw) := by
  refine ⟨fun first rest built chain => ?_, fun dimensions fault => ?_⟩
  · have hne := List.cons_ne_nil first rest
    have hlength : (boundaries ((first :: rest).map shape)).length = rest.length + 2 := length_boundaries_map shape hne
    have hcount : (boundaries ((first :: rest).map shape)).length - 2 = rest.length := by omega
    have htwo : 2 ≤ (boundaries ((first :: rest).map shape)).length := by omega
    have hsound := nonneg_of_built built
    have hsum := leftDeepCost_eq ((flaw?_eq_none_iff _).2 ⟨htwo, hsound⟩)
    have hleast := Tableau.cost_le_cost htwo (Bracketing.leftDeep_spans _)
    refine ⟨_, _, _, _, dimensionsOf_of_linked (linked_of_isChain chain hne) hne, Tableau.solve_eq_ok htwo hsound, hsum,
      hleast, mapM_cost_eq built, fun next => ?_⟩
    obtain ⟨r, next', hrun, hcost⟩ := foldlM_multiply_cost built chain next
    refine ⟨r, next', _, hrun, hcost, ?_⟩
    rw [hcount, Int.add_sub_cancel]
  · exact ⟨bind_check_eq_error_iff.trans bind_check_eq_error_iff.symm, bind_check_eq_error_iff.trans check_eq_error_iff⟩

theorem leftDeepCost_spec_of_tripledRow :
    (∀ o ∈ [column 4, tripledRow, column 5], Built o) ∧ [column 4, tripledRow, column 5].IsChain Meets ∧
      leftDeepCost [3, 1, 3, 1] = .ok 18 ∧
      (∃ r next', ([tripledRow, column 5].foldlM multiply (column 4)).run 8 = .ok (r, next') ∧ r.cost = .ok 21) ∧
      Malformed [2, -1, -3] (.negativeDimension (-1)) ∧
      leftDeepCost [2, -1, -3] = .error (broken [2, -1, -3] (.negativeDimension (-1))) := by
  have built : ∀ o ∈ [column 4, tripledRow, column 5], Built o :=
    List.forall_mem_cons.2 ⟨built_leaf .., List.forall_mem_cons.2 ⟨built_tripledRow,
      List.forall_mem_singleton.2 (built_leaf ..)⟩⟩
  have chain : [column 4, tripledRow, column 5].IsChain Meets := .cons_cons rfl (.cons_cons rfl (.singleton _))
  have malformed : Malformed [2, -1, -3] (.negativeDimension (-1)) :=
    @Malformed.negativeDimension [2] [-3] (-1) (by decide) (by decide) (by decide)
  have hdimensions : dimensionsOf [column 4, tripledRow, column 5] = .ok [3, 1, 3, 1] := rfl
  have heighteen : leftDeepCost [3, 1, 3, 1] = .ok 18 := rfl
  obtain ⟨hsound, hrefused⟩ := leftDeepCost_spec (α := Int)
  obtain ⟨dimensions, t, sum, costs, hdims, _, hsum, _, hcosts, hfold⟩ := hsound _ _ built chain
  obtain rfl := Except.ok.inj (hdimensions.symm.trans hdims)
  obtain rfl := Except.ok.inj (heighteen.symm.trans hsum)
  obtain rfl : [0, 3, 0] = costs := Except.ok.inj ((mapM_cost_eq built).symm.trans hcosts)
  obtain ⟨r, next', whole, hrun, hcost, hwhole⟩ := hfold 8
  obtain ⟨hiff, hflaw⟩ := hrefused [2, -1, -3] (broken [2, -1, -3] (.negativeDimension (-1)))
  have htwentyOne : whole = 21 := by
    have htotal : total [0, 3, 0] = 3 := rfl
    omega
  exact ⟨built, chain, heighteen, ⟨r, next', hrun, htwentyOne ▸ hcost⟩, malformed, hiff.2 (hflaw.2 ⟨_, malformed, rfl⟩)⟩

end Expr
end MatrixChain
