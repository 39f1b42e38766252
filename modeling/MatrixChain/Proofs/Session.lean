import MatrixChain.Proofs.Reassociation
import Mathlib.Data.List.Nodup

/-!
# Sessions

A session is any finite sequence of calls that succeeded: making leaves, products and sums, looking at operands, and
reassociating. Whatever a session hands out was built, and no two of its nodes have one identity.
-/

namespace MatrixChain

open MatrixChain.Expr

variable {α : Type}

/-- The identity that comes next and the nodes that were handed out, the latest first. -/
inductive Session : NodeId → List (Expr α) → Prop where
  | start (next : NodeId) : Session next []
  | leaf {next next' : NodeId} {nodes : List (Expr α)} {matrix : DenseMatrix α} {label : Option String} {e : Expr α}
      (before : Session next nodes) (made : (makeLeaf matrix label).run next = .ok (e, next')) :
      Session next' (e :: nodes)
  | multiply {next next' : NodeId} {nodes : List (Expr α)} {left right e : Expr α} (before : Session next nodes)
      (hl : left ∈ nodes) (hr : right ∈ nodes) (made : (multiply left right).run next = .ok (e, next')) :
      Session next' (e :: nodes)
  | add {next next' : NodeId} {nodes : List (Expr α)} {left right e : Expr α} (before : Session next nodes)
      (hl : left ∈ nodes) (hr : right ∈ nodes) (made : (add left right).run next = .ok (e, next')) :
      Session next' (e :: nodes)
  | children {next : NodeId} {nodes : List (Expr α)} {e : Expr α} (before : Session next nodes) (he : e ∈ nodes) :
      Session next (e.children ++ nodes)
  | reassociate {next next' : NodeId} {nodes : List (Expr α)} {e r : Expr α} (before : Session next nodes)
      (he : e ∈ nodes) (made : e.reassociate.run next = .ok (r, next')) : Session next' (r :: nodes)

namespace Session

/-- Nodes with identities below `next`, each of them with one of its own. -/
structure Registered (next : NodeId) (nodes : List (Expr α)) : Prop where
  older : ∀ n ∈ nodes, n.id < next
  identified : Identified nodes

theorem Registered.of_subset {next : NodeId} {nodes nodes' : List (Expr α)} (h : Registered next nodes)
    (subset : nodes' ⊆ nodes) : Registered next nodes' where
  older n hn := h.older n (subset hn)
  identified := h.identified.of_subset subset

/-- Nodes that are made take the identities that come next. -/
theorem Registered.make {next : NodeId} {nodes made : List (Expr α)} (h : Registered next nodes)
    (ids : made.map Expr.id = List.range' next made.length) : Registered (next + made.length) (made ++ nodes) := by
  have hmade : ∀ n ∈ made, next ≤ n.id ∧ n.id < next + made.length := by
    intro n hn
    have hid : n.id ∈ made.map Expr.id := List.mem_map_of_mem hn
    rwa [ids, List.mem_range'_1] at hid
  have hnodup : (made.map Expr.id).Nodup := by
    rw [ids]
    exact List.nodup_range'
  constructor
  · intro n hn
    rcases List.mem_append.1 hn with hn | hn
    · exact (hmade n hn).2
    · exact Nat.lt_of_lt_of_le (h.older n hn) (Nat.le_add_right ..)
  · intro n hn n' hn' hid
    rcases List.mem_append.1 hn with hn | hn <;> rcases List.mem_append.1 hn' with hn' | hn'
    · exact List.inj_on_of_nodup_map hnodup hn hn' hid
    · have hlt : n.id < next := hid ▸ h.older n' hn'
      exact absurd hlt (Nat.not_lt.2 (hmade n hn).1)
    · have hlt : n'.id < next := hid ▸ h.older n hn
      exact absurd hlt (Nat.not_lt.2 (hmade n' hn').1)
    · exact h.identified n hn n' hn' hid

theorem Registered.cons {next : NodeId} {nodes made : List (Expr α)} {e : Expr α}
    (h : Registered next (nodes.flatMap postorder)) (ids : made.map Expr.id = List.range' next made.length)
    (composed : ComposedOf made (nodes.flatMap postorder) e) :
    Registered (next + made.length) ((e :: nodes).flatMap postorder) := by
  refine (h.make ids).of_subset ?_
  rw [List.flatMap_cons]
  exact List.append_subset.2 ⟨fun n hn => List.mem_append.2 (composed n hn), List.subset_append_right ..⟩

/-- What holds of all that a session hands out. -/
structure Invariant (next : NodeId) (nodes : List (Expr α)) : Prop where
  built : ∀ e ∈ nodes, Built e
  registered : Registered next (nodes.flatMap postorder)

theorem Invariant.make {next : NodeId} {nodes made : List (Expr α)} {e : Expr α} (h : Invariant next nodes)
    (built : Built e) (ids : made.map Expr.id = List.range' next made.length)
    (composed : ComposedOf made (nodes.flatMap postorder) e) : Invariant (next + made.length) (e :: nodes) :=
  ⟨List.forall_mem_cons.2 ⟨built, h.built⟩, h.registered.cons ids composed⟩

theorem composedOf_of_mem {nodes : List (Expr α)} {e : Expr α} (he : e ∈ nodes) :
    ComposedOf [] (nodes.flatMap postorder) e :=
  fun _ hn => Or.inr (List.mem_flatMap.2 ⟨e, he, hn⟩)

theorem Invariant.makePair {next : NodeId} {nodes : List (Expr α)} {left right e : Expr α} (h : Invariant next nodes)
    (hl : left ∈ nodes) (hr : right ∈ nodes) (built : Built e) (operands : e.children = [left, right])
    (id : e.id = next) : Invariant (next + 1) (e :: nodes) := by
  have hids : [e].map Expr.id = List.range' next 1 := congrArg (fun id => [id]) id
  exact h.make built hids (composedOf_pair operands (composedOf_of_mem hl) (composedOf_of_mem hr))

theorem Invariant.children {next : NodeId} {nodes : List (Expr α)} {e : Expr α} (h : Invariant next nodes)
    (he : e ∈ nodes) : Invariant next (e.children ++ nodes) := by
  refine ⟨List.forall_mem_append.2 ⟨fun c hc => (h.built e he).of_mem_children hc, h.built⟩,
    h.registered.of_subset ?_⟩
  rw [List.flatMap_append]
  refine List.append_subset.2 ⟨fun n hn => ?_, List.Subset.refl _⟩
  obtain ⟨c, hc, hn⟩ := List.mem_flatMap.1 hn
  exact List.mem_flatMap.2 ⟨e, he, mem_postorder_iff.2 (Or.inr ⟨c, hc, hn⟩)⟩

theorem Invariant.reassociate {next next' : NodeId} {nodes : List (Expr α)} {e r : Expr α} (h : Invariant next nodes)
    (he : e ∈ nodes) (made : e.reassociate.run next = .ok (r, next')) : Invariant next' (r :: nodes) := by
  obtain ⟨r', made', _, hrun, hids, harranges, hcomposed⟩ := (h.built e he).reassociate_spec next
  rw [made] at hrun
  cases hrun
  refine h.make harranges.1 hids (hcomposed.mono (List.Subset.refl _) fun n hn => ?_)
  exact List.mem_flatMap.2 ⟨e, he, hn⟩

/-- Every call that succeeds keeps the invariant. -/
theorem invariant {next : NodeId} {nodes : List (Expr α)} (h : Session next nodes) : Invariant next nodes := by
  induction h with
  | start next => exact ⟨List.forall_mem_nil _, ⟨List.forall_mem_nil _, List.forall_mem_nil _⟩⟩
  | @leaf next _ nodes matrix label _ _ made ih =>
    cases made
    have hids : [Expr.leaf next matrix label].map Expr.id = List.range' next 1 := rfl
    exact ih.make (built_leaf next matrix label) hids fun _ hn => Or.inl hn
  | @multiply next next' nodes left right e _ hl hr made ih =>
    have hbuilt := Built.multiply (ih.built _ hl) (ih.built _ hr) made
    obtain ⟨hinner, rfl⟩ := multiply_run_eq_ok made
    cases (multiply_run hinner next).symm.trans made
    exact ih.makePair hl hr hbuilt rfl rfl
  | @add next next' nodes left right e _ hl hr made ih =>
    have hbuilt := Built.add (ih.built _ hl) (ih.built _ hr) made
    obtain ⟨hshapes, rfl⟩ := add_run_eq_ok made
    cases (add_run hshapes next).symm.trans made
    exact ih.makePair hl hr hbuilt rfl rfl
  | children _ he ih => exact ih.children he
  | reassociate _ he made ih => exact ih.reassociate he made

variable {next : NodeId} {nodes : List (Expr α)} (session : Session next nodes) {e : Expr α} (he : e ∈ nodes)
include session he

theorem built : Built e :=
  session.invariant.built e he

theorem identified : Identified e.postorder := by
  have hsubset : e.postorder ⊆ nodes.flatMap postorder := fun n hn => List.mem_flatMap.2 ⟨e, he, hn⟩
  exact session.invariant.registered.identified.of_subset hsubset

end Session
end MatrixChain
