import MatrixChain.Proofs.Arrangement
import MatrixChain.Proofs.ChainFlaw
import MatrixChain.Proofs.Construction
import MatrixChain.Proofs.Yields

/-!
# Joined operands

Operands that have tables are joined along them by products, which all pass the check of their sides. What is joined
keeps the run, the nodes and the skeletons of the operands, and costs what they cost besides the joins.
-/

namespace MatrixChain

open MatrixChain.Chain

namespace Expr

variable {α : Type}

/-- An expression joins the atoms of a skeleton by products, which are the nodes that were made, in order. -/
inductive Joins : Skeleton (Expr α) → List (Expr α) → Expr α → Prop where
  | operand (o : Expr α) : Joins (.atom o) [] o
  | product {s s' : Skeleton (Expr α)} {made made' : List (Expr α)} {left right : Expr α} (id : NodeId)
      (hl : Joins s made left) (hr : Joins s' made' right) (meets : Meets left right) :
      Joins (.product s s') (made ++ (made' ++ [.product id left right (left.shape.times right.shape)]))
        (.product id left right (left.shape.times right.shape))

namespace Joins

variable {s : Skeleton (Expr α)} {made : List (Expr α)} {r : Expr α}

theorem shape_eq (h : Joins s made r) : r.shape = s.shape Expr.shape := by
  induction h with
  | operand o => rfl
  | product id _ _ _ ihl ihr => rw [Skeleton.shape, ← ihl, ← ihr, Expr.shape]

theorem factors_eq (h : Joins s made r) : r.factors = s.atoms.flatMap factors := by
  induction h with
  | operand o => exact (List.flatMap_singleton ..).symm
  | product id _ _ _ ihl ihr => rw [factors_product, ihl, ihr, Skeleton.atoms, List.flatMap_append]

theorem cost_eq (h : Joins s made r) :
    r.cost = (do pure (total (← s.atoms.mapM cost) + s.cost Expr.shape)) := by
  induction h with
  | operand o =>
    rw [Skeleton.atoms, List.mapM_cons, List.mapM_nil]
    cases o.cost <;> simp [bind, Except.bind, pure, Except.pure, Skeleton.cost]
  | @product s s' _ _ left right id hl hr _ ihl ihr =>
    have hnode : (Expr.product id left right (left.shape.times right.shape)).cost = (do
        let l ← left.cost
        let r ← right.cost
        pure (left.shape.work right.shape + total [l, r])) := by
      unfold cost
      rw [foldChildren_product]
      rfl
    rw [hnode, ihl, ihr, Skeleton.atoms, List.mapM_append, Skeleton.cost, hl.shape_eq, hr.shape_eq]
    cases s.atoms.mapM cost with
    | error fault => rfl
    | ok costs =>
      cases s'.atoms.mapM cost with
      | error fault => rfl
      | ok costs' =>
        simp only [bind, Except.bind, pure, Except.pure, total_append, total_cons, total_nil]
        exact congrArg Except.ok (by omega)

theorem built (h : Joins s made r) (operands : ∀ o ∈ s.atoms, Built o) : Built r := by
  induction h with
  | operand o => exact operands o (List.mem_singleton.2 rfl)
  | product id _ _ meets ihl ihr =>
    exact built_product id (ihl fun o ho => operands o (List.mem_append_left _ ho))
      (ihr fun o ho => operands o (List.mem_append_right _ ho)) meets

theorem skeleton_eq (h : Joins s made r) : r.skeleton = s.graft skeleton := by
  induction h with
  | operand o => rfl
  | product id _ _ _ ihl ihr => rw [skeleton, ihl, ihr, Skeleton.graft]

theorem composedOf (h : Joins s made r) : ComposedOf made (s.atoms.flatMap postorder) r := by
  induction h with
  | operand o => exact fun n hn => Or.inr (List.mem_flatMap.2 ⟨o, List.mem_singleton.2 rfl, hn⟩)
  | product id _ _ _ ihl ihr =>
    rw [Skeleton.atoms, List.flatMap_append]
    exact composedOf_pair rfl (ihl.mono (List.Subset.refl _) (List.subset_append_left ..))
      (ihr.mono (List.Subset.refl _) (List.subset_append_right ..))

theorem run_eq (h : Joins s made r) (several : 2 ≤ s.atoms.length) : Chain.run r = .ok (s.atoms.flatMap factors) := by
  rw [← h.factors_eq]
  cases h with
  | operand o => simp [Skeleton.atoms] at several
  | product => rfl

end Joins

section Operands

variable {operands : List (Expr α)}

/-- Linked operands are joined along any bracketing of them. -/
theorem yields_joins {rows cols : Int} (linked : Linked rows (operands.map Expr.shape) cols) {b : Bracketing}
    {i j : Nat} (h : b.Spans i j) (hj : j < operands.length) :
    Yields (b.assembleM (Tableau.operandValue operands.toArray) fun l r => (multiply l r : Build (Expr α)))
      (b.assembleM (Tableau.operandValue operands.toArray) fun l r => (multiply l r : Build (Expr α)))
      fun r added made => added = [] ∧
        Joins (b.assemble (fun m => (operands.map .atom).getD m (.atom default)) .product) made r := by
  rw [← Skeleton.map_shape_atom] at linked
  have hfits : ∀ m < operands.length, _ := fun m hm =>
    Skeleton.shape_getD_of_linked linked (show m < (operands.map Skeleton.atom).length by simpa using hm)
  induction h with
  | operand i =>
    rw [Bracketing.assembleM, Tableau.operandValue_of_lt (by simpa using hj)]
    refine .pure ⟨rfl, ?_⟩
    have hvalue : (operands.map Skeleton.atom).getD i (.atom default) = .atom operands[i] := by simp [hj]
    rw [Bracketing.assemble, hvalue]
    exact .operand _
  | @join left right first split last hl hr ihl ihr =>
    have hgt := hr.le
    refine .bind (ihl (by omega)) fun l _ made hl' => .bind (ihr hj) fun r _ made' hr' => .of_build fun next => ?_
    obtain ⟨rfl, hjl⟩ := hl'
    obtain ⟨rfl, hjr⟩ := hr'
    have hleft := (Skeleton.shape_cost_assemble Expr.shape _ hl fun m _ hm => hfits m (by omega)).1
    have hright := (Skeleton.shape_cost_assemble Expr.shape _ hr fun m _ hm => hfits m (by omega)).1
    rw [← hjl.shape_eq] at hleft
    rw [← hjr.shape_eq] at hright
    have hmeets : Meets l r := by rw [Meets, hleft, hright]
    exact ⟨_, multiply_run hmeets next, rfl, rfl, .product next hjl hjr hmeets⟩

/-- Operands that have tables are joined in their cheapest arrangement. -/
theorem yields_associate (h : Sound operands) :
    Yields ((Tableau.ofDimensions (boundaries (operands.map Expr.shape))).associate operands.toArray
        fun l r => (multiply l r : Build (Expr α)))
      ((Tableau.ofDimensions (boundaries (operands.map Expr.shape))).associate operands.toArray
        fun l r => (multiply l r : Build (Expr α)))
      fun r added made => added = [] ∧ Joins (Skeleton.regrouped Expr.shape (operands.map .atom)) made r := by
  have hpos := List.length_pos_iff.2 h.nonempty
  have hlength := length_boundaries_map Expr.shape h.nonempty
  have htwo : 2 ≤ (boundaries (operands.map Expr.shape)).length := by omega
  have hsize : operands.toArray.size = (boundaries (operands.map Expr.shape)).length - 1 := by
    rw [List.size_toArray, hlength, Nat.add_sub_cancel]
  rw [Tableau.associate_ofDimensions htwo hsize, Skeleton.regrouped, Skeleton.map_shape_atom]
  exact yields_joins (linked_of_isChain h.chain h.nonempty) (Tableau.cheapest_spans htwo) (by omega)

end Operands

end Expr
end MatrixChain
