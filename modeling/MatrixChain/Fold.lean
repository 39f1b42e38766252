/-!
# Folding with two explicit stacks

`fold` reduces the nodes that a node depends on before the node itself, in any monad. Pending work is a
stack of tasks and finished results are a stack of values, so the depth of the structure is not bounded by
the depth of the native stack. The loop carries the fact that enough values are waiting, and it ends
because every step moves down in `Below`, which is well founded wherever the operand relation is.
-/

namespace MatrixChain
namespace Fold

variable {α β : Type} {r : α → α → Prop}

/-- Work still to do: meet a node, or join the topmost values into the value of a node. -/
inductive Task (α : Type) where
  | visit (node : α)
  | join (node : α) (arity : Nat)

/-- One step of the loop: a visit makes way for its operands and a join, a join just goes. -/
inductive Below (r : α → α → Prop) : List (Task α) → List (Task α) → Prop where
  | visit {node : α} {operands : List α} {rest : List (Task α)} (h : ∀ o ∈ operands, r o node) :
      Below r (operands.map .visit ++ .join node operands.length :: rest) (.visit node :: rest)
  | join {node : α} {arity : Nat} {rest : List (Task α)} : Below r rest (.join node arity :: rest)

theorem acc_nil : Acc (Below r) [] :=
  ⟨_, fun _ h => nomatch h⟩

theorem acc_join (node : α) (arity : Nat) {rest : List (Task α)} (h : Acc (Below r) rest) :
    Acc (Below r) (.join node arity :: rest) :=
  ⟨_, fun _ step => by cases step; exact h⟩

theorem acc_visits {operands : List α} {rest : List (Task α)} (h : Acc (Below r) rest)
    (ih : ∀ o ∈ operands, ∀ rest, Acc (Below r) rest → Acc (Below r) (.visit o :: rest)) :
    Acc (Below r) (operands.map .visit ++ rest) := by
  induction operands with
  | nil => exact h
  | cons o os ihs =>
    exact ih o (by simp) _ (ihs fun o' ho' => ih o' (by simp [ho']))

theorem acc_visit {node : α} (h : Acc r node) :
    ∀ rest : List (Task α), Acc (Below r) rest → Acc (Below r) (.visit node :: rest) := by
  induction h with
  | intro node _ ih =>
    intro rest hrest
    refine ⟨_, fun _ step => ?_⟩
    cases step with
    | visit hops => exact acc_visits (acc_join _ _ hrest) fun o ho => ih o (hops o ho)

/-- The tasks, run in order with that many values waiting, never want for a value and leave one. -/
def Settles : List (Task α) → Nat → Prop
  | [], waiting => waiting = 1
  | .visit _ :: rest, waiting => Settles rest (waiting + 1)
  | .join _ arity :: rest, waiting => arity ≤ waiting ∧ Settles rest (waiting - arity + 1)

theorem settles_root (root : α) : Settles [.visit root] ([] : List β).length :=
  rfl

theorem settles_visits (operands : List α) (rest : List (Task α)) (waiting : Nat) :
    Settles (operands.map .visit ++ rest) waiting ↔ Settles rest (waiting + operands.length) := by
  induction operands generalizing waiting with
  | nil => rfl
  | cons o os ih => simp [Settles, ih, Nat.add_comm, Nat.add_left_comm]

theorem settles_expand {node : α} {rest : List (Task α)} {waiting : Nat} (operands : List α)
    (h : Settles (.visit node :: rest) waiting) :
    Settles (operands.map .visit ++ .join node operands.length :: rest) waiting := by
  rw [settles_visits]
  exact ⟨Nat.le_add_left .., by rwa [Nat.add_sub_cancel]⟩

theorem settles_contract {node : α} {arity : Nat} {rest : List (Task α)} {values : List β}
    (h : Settles (.join node arity :: rest) values.length) (value : β) :
    Settles rest (value :: values.drop arity).length := by
  simpa using h.2

theorem settles_visited {node : α} {rest : List (Task α)} {values : List β}
    (h : Settles (.visit node :: rest) values.length) (value : β) : Settles rest (value :: values).length :=
  h

structure Agenda (r : α → α → Prop) where
  tasks : List (Task α)
  ends : Acc (Below r) tasks

instance : WellFoundedRelation (Agenda r) where
  rel a b := Below r a.tasks b.tasks
  wf := ⟨fun a => by
    obtain ⟨tasks, ends⟩ := a
    induction ends with
    | intro tasks hacc ih => exact ⟨_, fun b hb => ih b.tasks hb⟩⟩

variable {m : Type → Type} [Monad m]

/-- The loop. The topmost value is the head of `values`, so the operands of a join come off reversed. -/
@[specialize]
def run (operandsOf : (node : α) → m { operands : List α // ∀ o ∈ operands, r o node })
    (combine : α → List β → m β) (tasks : List (Task α)) (ends : Acc (Below r) tasks)
    (values : List β) (settles : Settles tasks values.length) : m β :=
  match tasks, ends, settles with
  | [], _, settles => pure (values.head (List.ne_nil_of_length_eq_add_one settles))
  | .visit node :: rest, ends, settles => do
    let ⟨operands, smaller⟩ ← operandsOf node
    run operandsOf combine (operands.map .visit ++ .join node operands.length :: rest)
      (ends.inv (.visit smaller)) values (settles_expand operands settles)
  | .join node arity :: rest, ends, settles => do
    let value ← combine node (values.take arity).reverse
    run operandsOf combine rest (ends.inv .join) (value :: values.drop arity)
      (settles_contract settles value)
termination_by (⟨tasks, ends⟩ : Agenda r)
decreasing_by
  · exact Below.visit smaller
  · exact Below.join

/-- Reduce `root`: the operands of a node from left to right, then the node with their values. -/
@[specialize]
def fold (operandsOf : (node : α) → m { operands : List α // ∀ o ∈ operands, r o node })
    (combine : α → List β → m β) (root : α) (ends : Acc r root) : m β :=
  run operandsOf combine [.visit root] (acc_visit ends _ acc_nil) [] (settles_root root)

end Fold
end MatrixChain
