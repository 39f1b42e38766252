import MatrixChain.Proofs.Equality
import MatrixChain.Proofs.InfixNotation
import MatrixChain.Proofs.Reassociation
import Mathlib.Data.List.Forall2

/-!
# What equal expressions have in common

Equal expressions are one skeleton over equal atoms. Shapes, texts and costs are read off such skeletons, and so are the
boundaries of runs, so equal expressions are split at the same places and reassociated to equal expressions.
-/

namespace MatrixChain
namespace Skeleton

open Chain

variable {β γ : Type}

/-- One tree over atoms that are related place by place. -/
inductive Matched (rel : β → β → Prop) : Skeleton β → Skeleton β → Prop where
  | atom {a a' : β} (h : rel a a') : Matched rel (.atom a) (.atom a')
  | product {left left' right right' : Skeleton β} (hl : Matched rel left left') (hr : Matched rel right right') :
      Matched rel (.product left right) (.product left' right')
  | sum {left left' right right' : Skeleton β} (hl : Matched rel left left') (hr : Matched rel right right') :
      Matched rel (.sum left right) (.sum left' right')

namespace Matched

variable {rel : β → β → Prop} {s t : Skeleton β}

theorem map_eq {f : β → γ} (agree : ∀ a a', rel a a' → f a = f a') (h : Matched rel s t) : s.map f = t.map f := by
  induction h with
  | atom h => rw [map, map, agree _ _ h]
  | product _ _ ihl ihr => rw [map, map, ihl, ihr]
  | sum _ _ ihl ihr => rw [map, map, ihl, ihr]

theorem assemble {value value' : Nat → Skeleton β} {b : Bracketing}
    (h : ∀ i ∈ b.operands, Matched rel (value i) (value' i)) :
    Matched rel (b.assemble value .product) (b.assemble value' .product) := by
  induction b with
  | operand i => exact h i (List.mem_singleton_self i)
  | join left right ihl ihr =>
    exact .product (ihl fun i hi => h i (List.mem_append_left _ hi)) (ihr fun i hi => h i (List.mem_append_right _ hi))

variable {extent : β → Shape} (agree : ∀ a a', rel a a' → extent a = extent a')
include agree

theorem shape_eq (h : Matched rel s t) : s.shape extent = t.shape extent := by
  induction h with
  | atom h => exact agree _ _ h
  | product _ _ ihl ihr => rw [shape, shape, ihl, ihr]
  | sum _ _ ihl _ => rw [shape, shape, ihl]

theorem cost_eq (h : Matched rel s t) : s.cost extent = t.cost extent := by
  induction h with
  | atom h => rfl
  | product hl hr ihl ihr => rw [cost, cost, ihl, ihr, hl.shape_eq agree, hr.shape_eq agree]
  | sum _ _ ihl ihr => rw [cost, cost, ihl, ihr]

theorem map_shape_eq {operands operands' : List (Skeleton β)} (h : List.Forall₂ (Matched rel) operands operands') :
    operands.map (Skeleton.shape extent) = operands'.map (Skeleton.shape extent) := by
  induction h with
  | nil => rfl
  | cons h _ ih => rw [List.map_cons, List.map_cons, h.shape_eq agree, ih]

variable [Inhabited β]

theorem regrouped {operands operands' : List (Skeleton β)} (h : List.Forall₂ (Matched rel) operands operands')
    (hne : operands ≠ []) : Matched rel (regrouped extent operands) (Skeleton.regrouped extent operands') := by
  have hpos := List.length_pos_iff.2 hne
  have hlength := length_boundaries_map (Skeleton.shape extent) hne
  have hspans := Tableau.cheapest_spans
    (show 2 ≤ (boundaries (operands.map (Skeleton.shape extent))).length by omega)
  -- one bracketing for both, since the boundaries are the same
  rw [Skeleton.regrouped, Skeleton.regrouped, ← map_shape_eq agree h]
  refine assemble fun i hi => ?_
  rw [hspans.operands_eq, List.mem_range'_1] at hi
  have hi : i < operands.length := by omega
  have hi' : i < operands'.length := h.length_eq ▸ hi
  simpa [hi, hi'] using (List.forall₂_iff_get.1 h).2 i hi hi'

theorem arrangedFactors (h : Matched rel s t) :
    List.Forall₂ (Matched rel) (s.arrangedFactors extent) (t.arrangedFactors extent) := by
  induction h with
  | atom h => exact .cons (.atom h) .nil
  | product _ _ ihl ihr => exact List.rel_append ihl ihr
  | sum _ _ ihl ihr =>
    have hl := regrouped agree ihl (arrangedFactors_ne_nil extent _)
    have hr := regrouped agree ihr (arrangedFactors_ne_nil extent _)
    exact .cons (.sum hl hr) .nil

theorem arranged (h : Matched rel s t) : Matched rel (s.arranged extent) (t.arranged extent) :=
  regrouped agree (h.arrangedFactors agree) (arrangedFactors_ne_nil extent s)

end Matched

end Skeleton

namespace Expr

open Skeleton

variable {α : Type} [BEq α]

/-- Equal, and with nothing to tell them apart in shapes and texts. -/
structure Alike (a b : Expr α) : Prop where
  same : Same a b
  shape : a.shape = b.shape
  text : a.infixText = b.infixText

omit [BEq α] in
theorem leafText_eq {matrix matrix' : DenseMatrix α} (h : matrix.shape = matrix'.shape) (label : Option String) :
    leafText matrix label = leafText matrix' label := by
  cases label with
  | none => rw [leafText, leafText, h]
  | some label => rfl

/-- Equal expressions are one skeleton over equal atoms. -/
theorem Same.matched {nodes : List (Expr α)} (identified : Identified nodes) {a b : Expr α} (ha : a.postorder ⊆ nodes)
    (hb : b.postorder ⊆ nodes) (h : Same a b) : Matched Alike a.skeleton b.skeleton := by
  induction h with
  | oneLeaf =>
    cases identified _ (ha List.mem_cons_self) _ (hb List.mem_cons_self) rfl
    exact .atom ⟨.oneLeaf, rfl, rfl⟩
  | leaf h =>
    have hshape := DenseMatrix.shape_eq_of_same h
    refine .atom ⟨.leaf h, hshape, ?_⟩
    rw [infixText_leaf, infixText_leaf, leafText_eq hshape]
  | product _ _ ihl ihr =>
    simp only [postorder_product, List.append_subset] at ha hb
    exact .product (ihl ha.1.1 hb.1.1) (ihr ha.1.2 hb.1.2)
  | sum _ _ ihl ihr =>
    simp only [postorder_sum, List.append_subset] at ha hb
    exact .sum (ihl ha.1.1 hb.1.1) (ihr ha.1.2 hb.1.2)
  | foreign h =>
    cases identified _ (ha List.mem_cons_self) _ (hb List.mem_cons_self) h
    exact .atom ⟨.foreign rfl, rfl, rfl⟩

theorem same_of_matched {a b : Expr α} (h : Matched Alike a.skeleton b.skeleton) : Same a b := by
  induction a generalizing b with
  | product id left right shape ihl ihr =>
    cases b with
    | product =>
      cases h with
      | product hl hr => exact .product (ihl hl) (ihr hr)
    | _ => cases h
  | sum id left right shape ihl ihr =>
    cases b with
    | sum =>
      cases h with
      | sum hl hr => exact .sum (ihl hl) (ihr hr)
    | _ => cases h
  | _ =>
    cases b with
    | product => cases h
    | sum => cases h
    | _ =>
      cases h with
      | atom h => exact h.same

section Matched

variable {a b : Expr α} (h : Matched Alike a.skeleton b.skeleton)
include h

theorem infixText_eq_of_matched : a.infixText = b.infixText :=
  infixText_eq_of_rendering_eq (h.map_eq fun _ _ h => h.text)

theorem shape_eq_of_matched (ha : Built a) (hb : Built b) : a.shape = b.shape := by
  rw [← ha.shape_skeleton, ← hb.shape_skeleton]
  exact h.shape_eq fun _ _ h => h.shape

theorem cost_eq_of_matched (ha : Built a) (hb : Built b) : ∃ cost, a.cost = .ok cost ∧ b.cost = .ok cost := by
  have hcost : a.skeleton.cost Expr.shape = b.skeleton.cost Expr.shape := h.cost_eq fun _ _ h => h.shape
  exact ⟨_, ha.cost_eq, hcost ▸ hb.cost_eq⟩

theorem reassociate_same_of_matched (ha : Built a) (hb : Built b) (next next' : NodeId) :
    ∃ r r' after after', a.reassociate.run next = .ok (r, after) ∧ b.reassociate.run next' = .ok (r', after') ∧
      Same r r' := by
  obtain ⟨r, after, hrun, hr⟩ := ha.reassociate_run next
  obtain ⟨r', after', hrun', hr'⟩ := hb.reassociate_run next'
  refine ⟨r, r', after, after', hrun, hrun', same_of_matched ?_⟩
  rw [hr.2, hr'.2]
  exact h.arranged fun _ _ h => h.shape

end Matched

end Expr

/-- Scalars one of which does not equal itself, while the two zeros equal each other. -/
inductive Sample where
  | nan
  | negativeZero
  | number (n : Nat)

namespace Sample

def value? : Sample → Option Nat
  | nan => none
  | negativeZero => some 0
  | number n => some n

instance : BEq Sample where
  beq a b := a.value?.isSome && a.value? == b.value?

theorem beq_iff {a b : Sample} : (a == b) = true ↔ a.value?.isSome = true ∧ a.value? = b.value? := by
  have h : (a == b) = (a.value?.isSome && a.value? == b.value?) := rfl
  rw [h, Bool.and_eq_true_iff, beq_iff_eq]

instance : PartialEquivBEq Sample where
  symm h := by
    obtain ⟨hsome, heq⟩ := beq_iff.1 h
    exact beq_iff.2 ⟨heq ▸ hsome, heq.symm⟩
  trans h h' := by
    obtain ⟨hsome, heq⟩ := beq_iff.1 h
    exact beq_iff.2 ⟨hsome, heq.trans (beq_iff.1 h').2⟩

def nanColumn : Expr Sample :=
  .leaf 0 (.ofFn 2 1 fun _ _ => nan) none

def row (id : NodeId) (entry : Sample) : Expr Sample :=
  .leaf id (.ofFn 1 2 fun _ _ => entry) (some "r")

def outer (id rowId : NodeId) (entry : Sample) : Expr Sample :=
  .product id nanColumn (row rowId entry) ⟨2, 2⟩

theorem built_outer (id rowId : NodeId) (entry : Sample) : (outer id rowId entry).Built :=
  Expr.built_product id (Expr.built_leaf ..) (Expr.built_leaf ..) rfl

end Sample

namespace Node

variable {α : Type} [BEq α] [PartialEquivBEq α]

/-- Of entries it is only asked that equality is symmetric and transitive. Then equality of nodes is an equivalence
relation, equal nodes have one digest, a set keeps as many of some nodes in any order, and equal trees are equal in shape,
text and cost and in what they are reassociated to. -/
theorem same_equivalence {nodes : List (Node α)} (identified : Expr.Identified (nodes.flatMap postorder)) :
    (∀ a ∈ nodes, a.same a = true) ∧
      (∀ a ∈ nodes, ∀ b ∈ nodes, a.same b = true → b.same a = true) ∧
      (∀ a ∈ nodes, ∀ b ∈ nodes, ∀ c ∈ nodes, a.same b = true → b.same c = true → a.same c = true) ∧
      (∀ a ∈ nodes, ∀ b ∈ nodes, a.same b = true → a.digest = b.digest) ∧
      (∀ hash : Expr.Digest → Int, ∀ list list' : List (Node α), list ⊆ nodes → list.Perm list' →
        distinctBy hash list = distinct list ∧ (distinct list).length = (distinct list').length) ∧
      ∀ a b : Expr α, .expr a ∈ nodes → .expr b ∈ nodes → a.Built → b.Built → a.same b = true →
        a.shape = b.shape ∧ a.infixText = b.infixText ∧ (∃ cost, a.cost = .ok cost ∧ b.cost = .ok cost) ∧
          ∀ next next', ∃ r r' after after', a.reassociate.run next = .ok (r, after) ∧
            b.reassociate.run next' = .ok (r', after') ∧ r.same r' = true := by
  have equivalent := equivalentOn_same identified
  refine ⟨equivalent.refl, equivalent.symm, equivalent.trans, fun a ha b hb => digest_eq_of_same identified ha hb,
    fun hash list list' subset perm => ?_, fun a b ha hb builtA builtB h => ?_⟩
  · exact ⟨distinctBy_eq identified hash subset, length_distinct identified subset perm⟩
  · have hmatched := (Expr.same_iff.1 h).matched identified (postorder_subset_flatMap ha) (postorder_subset_flatMap hb)
    refine ⟨Expr.shape_eq_of_matched hmatched builtA builtB, Expr.infixText_eq_of_matched hmatched,
      Expr.cost_eq_of_matched hmatched builtA builtB, fun next next' => ?_⟩
    obtain ⟨r, r', after, after', hrun, hrun', hsame⟩ :=
      Expr.reassociate_same_of_matched hmatched builtA builtB next next'
    exact ⟨r, r', after, after', hrun, hrun', Expr.same_iff.2 hsame⟩

open Sample

theorem same_equivalence_of_zeros :
    let a := outer 3 1 (.number 0)
    let b := outer 4 2 .negativeZero
    Expr.Identified ([.expr a, .expr b].flatMap postorder) ∧ a.same b = true ∧ a.Built ∧ b.Built ∧ b.same a = true ∧
      a.digest = b.digest ∧
      (distinct [.expr a, .expr b, .expr a]).length = (distinct [.expr b, .expr a, .expr a]).length ∧
      ∃ r r' after after', a.reassociate.run 5 = .ok (r, after) ∧ b.reassociate.run 5 = .ok (r', after') ∧
        r.same r' = true := by
  intro a b
  have identified : Expr.Identified ([.expr a, .expr b].flatMap postorder) := by
    simp [Expr.Identified, postorder, a, b, outer, nanColumn, row, Expr.id]
  have hsame : a.same b = true := by decide
  have hperm : [Node.expr a, .expr b, .expr a].Perm [.expr b, .expr a, .expr a] := .swap ..
  obtain ⟨_, symm, _, digests, distinct, respects⟩ := same_equivalence identified
  have ha : Node.expr a ∈ [Node.expr a, .expr b] := by simp
  have hb : Node.expr b ∈ [Node.expr a, .expr b] := by simp
  have hset := (distinct (fun _ => 0) _ _ (by simp) hperm).2
  obtain ⟨_, _, _, reassociate⟩ := respects a b ha hb (built_outer ..) (built_outer ..) hsame
  exact ⟨identified, hsame, built_outer .., built_outer .., symm _ ha _ hb hsame, digests _ ha _ hb hsame, hset,
    reassociate 5 5⟩

end Node
end MatrixChain
