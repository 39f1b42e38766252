import MatrixChain.Proofs.ChildFold
import MatrixChain.Proofs.Postorder

/-!
# The log of a computation

What an evaluator does at the nodes of a tree can be written down on the way, without changing what it comes to. A
fold over a tree has one entry for each node, in post-order.
-/

namespace MatrixChain
namespace Expr

variable {α β γ : Type}

/-- What was made at a node of the values of its operands. -/
structure NodeCall (α β : Type) where
  node : Expr α
  operands : List β
  value : β

/-- The operands are the values of the trees below the node, and the value is what they combine to. -/
structure NodeCall.Holds (combine : Expr α → List β → Except Fault β) (call : NodeCall α β) : Prop where
  operands : call.node.children.mapM (foldChildren combine) = .ok call.operands
  value : combine call.node call.operands = .ok call.value

theorem NodeCall.Holds.foldChildren_eq {combine : Expr α → List β → Except Fault β} {call : NodeCall α β}
    (h : call.Holds combine) : call.node.foldChildren combine = .ok call.value := by
  rw [Expr.foldChildren_eq, h.operands]
  exact h.value

variable (note : NodeCall α β → γ) (combine : Expr α → List β → Except Fault β)

def recording (e : Expr α) (operands : List β) : StateT (List γ) (Except Fault) β := do
  let value ← combine e operands
  modify (· ++ [note ⟨e, operands, value⟩])
  pure value

/-- Whenever `y` goes well, `x` comes to the same and enters notes of calls at the nodes in turn. -/
def Records {δ : Type} (x : StateT (List γ) (Except Fault) δ) (y : Except Fault δ) (nodes : List (Expr α)) : Prop :=
  ∀ c, y = .ok c → ∀ log, ∃ calls : List (NodeCall α β),
    x.run log = .ok (c, log ++ calls.map note) ∧ calls.map NodeCall.node = nodes ∧
    ∀ call ∈ calls, call.Holds combine

variable {note combine}

theorem Records.nothing {δ : Type} {x : StateT (List γ) (Except Fault) δ} {c : δ} (h : x = pure c) :
    Records note combine x (.ok c) [] := by
  rintro c' ⟨⟩ log
  exact ⟨[], by rw [h, List.map_nil, List.append_nil]; rfl, rfl, List.forall_mem_nil _⟩

theorem Records.bind {δ ε : Type} {x : StateT (List γ) (Except Fault) δ} {y : Except Fault δ}
    {f : δ → StateT (List γ) (Except Fault) ε} {g : δ → Except Fault ε} {nodes nodes' : List (Expr α)}
    (h : Records note combine x y nodes) (h' : ∀ c, y = .ok c → Records note combine (f c) (g c) nodes') :
    Records note combine (x >>= f) (y >>= g) (nodes ++ nodes') := by
  intro d hd log
  cases y with
  | error fault => cases hd
  | ok c =>
    obtain ⟨calls, hrun, hnodes, hcalls⟩ := h c rfl log
    obtain ⟨calls', hrun', hnodes', hcalls'⟩ := h' c rfl d hd (log ++ calls.map note)
    refine ⟨calls ++ calls', ?_, ?_, List.forall_mem_append.2 ⟨hcalls, hcalls'⟩⟩
    · rw [StateT.run_bind, hrun, List.map_append, ← List.append_assoc]
      exact hrun'
    · rw [List.map_append, hnodes, hnodes']

theorem Records.bind_pure {δ ε : Type} {x : StateT (List γ) (Except Fault) δ} {y : Except Fault δ}
    {nodes : List (Expr α)} (h : Records note combine x y nodes) (f : δ → ε) :
    Records note combine (x >>= fun c => pure (f c)) (y >>= fun c => pure (f c)) nodes := by
  rw [← List.append_nil nodes]
  exact h.bind fun c _ => .nothing rfl

theorem Records.mapM {δ ε : Type} {f : δ → StateT (List γ) (Except Fault) ε} {g : δ → Except Fault ε}
    {nodes : δ → List (Expr α)} {items : List δ}
    (h : ∀ item ∈ items, Records note combine (f item) (g item) (nodes item)) :
    Records note combine (items.mapM f) (items.mapM g) (items.flatMap nodes) := by
  induction items with
  | nil => exact .nothing rfl
  | cons item items ih =>
    rw [List.mapM_cons, List.mapM_cons, List.flatMap_cons]
    have hrest := ih fun item' h' => h item' (List.mem_cons_of_mem item h')
    exact (h item List.mem_cons_self).bind fun a _ => hrest.bind_pure (a :: ·)

theorem records_recording {n : Expr α} {operands : List β}
    (h : n.children.mapM (foldChildren combine) = .ok operands) :
    Records note combine (recording note combine n operands) (combine n operands) [n] := by
  intro a ha log
  refine ⟨[⟨n, operands, a⟩], ?_, rfl, List.forall_mem_singleton.2 ⟨h, ha⟩⟩
  rw [recording, StateT.run_bind, ha]
  rfl

/-- A fold has one call for each node, in post-order. -/
theorem records_foldChildren (e : Expr α) :
    Records note combine (e.foldChildren (recording note combine)) (e.foldChildren combine) e.postorder := by
  induction e using childrenInduction with
  | node e ih =>
    rw [foldChildren_eq, foldChildren_eq, postorder_eq]
    exact (Records.mapM ih).bind fun operands hoperands => records_recording hoperands

end Expr
end MatrixChain
