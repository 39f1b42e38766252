import MatrixChain.Expr.Basic

/-!
# The nodes of a tree

What is in the post-order of a tree, constructor by constructor: each node after its operands, the root last.
-/

namespace MatrixChain
namespace Expr

variable {α : Type}

theorem postorderOnto_eq (e : Expr α) (rest : List (Expr α)) : e.postorderOnto rest = e.postorder ++ rest := by
  unfold postorder
  induction e generalizing rest with
  | product id left right shape ihl ihr =>
    rw [postorderOnto, postorderOnto, ihl, ihr, ihl (right.postorderOnto _), ihr [_]]
    simp
  | sum id left right shape ihl ihr =>
    rw [postorderOnto, postorderOnto, ihl, ihr, ihl (right.postorderOnto _), ihr [_]]
    simp
  | _ => rfl

@[simp] theorem postorder_leaf (id : NodeId) (matrix : DenseMatrix α) (label : Option String) :
    (leaf id matrix label).postorder = [leaf id matrix label] := rfl

@[simp] theorem postorder_foreign (node : Foreign) : (foreign node : Expr α).postorder = [foreign node] := rfl

@[simp] theorem postorder_product (id : NodeId) (left right : Expr α) (shape : Shape) :
    (product id left right shape).postorder =
      left.postorder ++ right.postorder ++ [product id left right shape] := by
  rw [postorder, postorderOnto, postorderOnto_eq, postorderOnto_eq, List.append_assoc]

@[simp] theorem postorder_sum (id : NodeId) (left right : Expr α) (shape : Shape) :
    (sum id left right shape).postorder = left.postorder ++ right.postorder ++ [sum id left right shape] := by
  rw [postorder, postorderOnto, postorderOnto_eq, postorderOnto_eq, List.append_assoc]

theorem postorder_eq (e : Expr α) : e.postorder = e.children.flatMap postorder ++ [e] := by
  cases e <;> simp [children]

theorem mem_postorder_self (e : Expr α) : e ∈ e.postorder := by
  cases e <;> simp

theorem mem_postorder_iff {e n : Expr α} : n ∈ e.postorder ↔ n = e ∨ ∃ c ∈ e.children, n ∈ c.postorder := by
  cases e <;> simp [children, or_comm, or_assoc]

theorem childrenInduction {motive : Expr α → Prop} (node : ∀ e, (∀ c ∈ e.children, motive c) → motive e)
    (e : Expr α) : motive e := by
  induction e.acc_smaller with
  | intro e _ ih => exact node e fun c hc => ih c (size_lt_of_mem_children hc)

theorem postorder_subset {e n : Expr α} (h : n ∈ e.postorder) : n.postorder ⊆ e.postorder := by
  induction e using childrenInduction with
  | node e ih =>
    rcases mem_postorder_iff.1 h with rfl | ⟨c, hc, hn⟩
    · exact List.Subset.refl _
    · intro m hm
      exact mem_postorder_iff.2 (Or.inr ⟨c, hc, ih c hc hn hm⟩)

theorem mem_postorder_of_mem_children {e n c : Expr α} (hn : n ∈ e.postorder) (hc : c ∈ n.children) :
    c ∈ e.postorder :=
  postorder_subset hn (mem_postorder_iff.2 (Or.inr ⟨c, hc, c.mem_postorder_self⟩))

/-- What operands inherit from their node holds of every node of a tree if it holds of the root. -/
theorem forall_mem_postorder {P : Expr α → Prop} (inherit : ∀ n, P n → ∀ c ∈ n.children, P c) {e : Expr α}
    (h : P e) : ∀ n ∈ e.postorder, P n := by
  induction e using childrenInduction with
  | node e ih =>
    intro n hn
    rcases mem_postorder_iff.1 hn with rfl | ⟨c, hc, hn⟩
    · exact h
    · exact ih c hc (inherit e h c hc) n hn

/-- Nodes that have one identity are one node. -/
def Identified (nodes : List (Expr α)) : Prop :=
  ∀ n ∈ nodes, ∀ n' ∈ nodes, n.id = n'.id → n = n'

theorem Identified.of_subset {nodes nodes' : List (Expr α)} (h : Identified nodes) (subset : nodes' ⊆ nodes) :
    Identified nodes' :=
  fun n hn n' hn' => h n (subset hn) n' (subset hn')

/-- Every node of `e` has just been made or was there before. -/
def ComposedOf (made there : List (Expr α)) (e : Expr α) : Prop :=
  ∀ n ∈ e.postorder, n ∈ made ∨ n ∈ there

theorem ComposedOf.mono {e : Expr α} {made made' there there' : List (Expr α)} (h : ComposedOf made there e)
    (hmade : made ⊆ made') (hthere : there ⊆ there') : ComposedOf made' there' e :=
  fun n hn => (h n hn).imp (fun hn => hmade hn) fun hn => hthere hn

theorem ComposedOf.trans {e : Expr α} {operands made made' there : List (Expr α)}
    (h : ComposedOf made' (operands.flatMap postorder) e) (hoperands : ∀ o ∈ operands, ComposedOf made there o) :
    ComposedOf (made ++ made') there e := by
  intro n hn
  rcases h n hn with hn | hn
  · exact Or.inl (List.mem_append_right _ hn)
  · obtain ⟨o, ho, hn⟩ := List.mem_flatMap.1 hn
    exact (hoperands o ho n hn).imp_left fun hn => List.mem_append_left _ hn

theorem composedOf_pair {e left right : Expr α} {made made' there : List (Expr α)}
    (operands : e.children = [left, right]) (hl : ComposedOf made there left) (hr : ComposedOf made' there right) :
    ComposedOf (made ++ (made' ++ [e])) there e := by
  intro n hn
  simp only [mem_postorder_iff (e := e), operands, List.mem_cons, List.not_mem_nil, or_false,
    exists_eq_or_imp, exists_eq_left] at hn
  simp only [List.mem_append, List.mem_singleton]
  rcases hn with rfl | hn | hn
  · exact Or.inl (Or.inr (Or.inr rfl))
  · rcases hl n hn with h | h
    · exact Or.inl (Or.inl h)
    · exact Or.inr h
  · rcases hr n hn with h | h
    · exact Or.inl (Or.inr (Or.inl h))
    · exact Or.inr h

end Expr
end MatrixChain
