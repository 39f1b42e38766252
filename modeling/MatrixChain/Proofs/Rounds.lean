import MatrixChain.Fold
import MatrixChain.Proofs.Noting

/-!
# Rounds of the loop

The loop of a fold, round by round, on stacks of which nothing is known beforehand. Where the operand relation has an
end below the root, it takes a number of rounds to a single value or to an exception, and no join wants for a value.
-/

namespace MatrixChain
namespace Fold

variable {α β ε σ : Type} {r : α → α → Prop}

abbrev Stacks (α β : Type) := List (Task α) × List β

section Loop

variable {m : Type → Type} [Monad m] (operandsOf : (node : α) → m { operands : List α // ∀ o ∈ operands, r o node })
  (combine : α → List β → m β)

/-- One round. A join takes what values there are, and without tasks nothing happens. -/
def round : Stacks α β → m (Stacks α β)
  | ([], values) => pure ([], values)
  | (.visit node :: rest, values) => do
    let operands ← operandsOf node
    pure (operands.1.map .visit ++ .join node operands.1.length :: rest, values)
  | (.join node arity :: rest, values) => do
    let value ← combine node (values.take arity).reverse
    pure (rest, value :: values.drop arity)

def rounds : Nat → Stacks α β → m (Stacks α β)
  | 0, now => pure now
  | count + 1, now => round operandsOf combine now >>= rounds count

theorem rounds_of_done [LawfulMonad m] (count : Nat) (values : List β) :
    rounds operandsOf combine count ([], values) = pure ([], values) := by
  induction count with
  | zero => rfl
  | succ count ih => rw [rounds, round, pure_bind, ih]

end Loop

variable {operandsOf : (node : α) → ExceptT ε (StateM σ) { operands : List α // ∀ o ∈ operands, r o node }}
  {combine : α → List β → ExceptT ε (StateM σ) β}

/-- A round with a task raises what the loop raises, or leads down to stacks from which the loop goes on. -/
theorem run_of_round {task : Task α} {rest : List (Task α)} (ends : Acc (Below r) (task :: rest)) {values : List β}
    (settles : Settles (task :: rest) values.length) (state : σ) :
    (∃ fault state', (round operandsOf combine (task :: rest, values)).run.run state = (.error fault, state') ∧
      (run operandsOf combine (task :: rest) ends values settles).run.run state = (.error fault, state')) ∨
    ∃ next state', (round operandsOf combine (task :: rest, values)).run.run state = (.ok next, state') ∧
      ∃ (below : Below r next.1 (task :: rest)) (settled : Settles next.1 next.2.length),
        (run operandsOf combine (task :: rest) ends values settles).run.run state =
          (run operandsOf combine next.1 (ends.inv below) next.2 settled).run.run state' := by
  cases task with
  | visit node =>
    rw [round, run]
    rcases hasked : (operandsOf node).run.run state with ⟨fault | operands, state'⟩
    · exact .inl ⟨fault, state', run_bind_of_error hasked _, run_bind_of_error hasked _⟩
    · exact .inr ⟨_, state', run_bind_of_ok hasked _, .visit operands.2, settles_expand operands.1 settles,
        run_bind_of_ok hasked _⟩
  | join node arity =>
    rw [round, run]
    rcases hcombined : (combine node (values.take arity).reverse).run.run state with ⟨fault | value, state'⟩
    · exact .inl ⟨fault, state', run_bind_of_error hcombined _, run_bind_of_error hcombined _⟩
    · exact .inr ⟨_, state', run_bind_of_ok hcombined _, .join, settles_contract settles value,
        run_bind_of_ok hcombined _⟩

theorem exists_rounds {tasks : List (Task α)} (ends : Acc (Below r) tasks) {values : List β}
    (settles : Settles tasks values.length) {state state' : σ} {outcome : Except ε β}
    (h : (run operandsOf combine tasks ends values settles).run.run state = (outcome, state')) :
    ∃ count, (rounds operandsOf combine count (tasks, values)).run.run state =
      (outcome.map fun value => ([], [value]), state') := by
  induction ends generalizing values state with
  | intro tasks _ ih =>
    cases tasks with
    | nil =>
      obtain ⟨value, rfl⟩ := List.length_eq_one_iff.1 settles
      rw [run] at h
      cases h
      exact ⟨0, rfl⟩
    | cons task rest =>
      rcases run_of_round ⟨_, ‹_›⟩ settles state with ⟨fault, _, hround, hrun⟩ | ⟨next, _, hround, below, settled, hrun⟩
      · cases hrun.symm.trans h
        exact ⟨1, run_bind_of_error hround _⟩
      · obtain ⟨count, hcount⟩ := ih _ below settled (hrun.symm.trans h)
        exact ⟨count + 1, (run_bind_of_ok hround _).trans hcount⟩

/-- After any number of rounds that raised nothing the tasks still settle. -/
theorem settles_rounds {tasks : List (Task α)} (ends : Acc (Below r) tasks) {values : List β}
    (settles : Settles tasks values.length) {count : Nat} {later : Stacks α β} {state state' : σ}
    (h : (rounds operandsOf combine count (tasks, values)).run.run state = (.ok later, state')) :
    Settles later.1 later.2.length := by
  induction count generalizing tasks values state with
  | zero =>
    cases h
    exact settles
  | succ count ih =>
    cases tasks with
    | nil =>
      rw [rounds_of_done] at h
      cases h
      exact settles
    | cons task rest =>
      rcases run_of_round ends settles state with ⟨fault, _, hround, _⟩ | ⟨next, _, hround, below, settled, _⟩
      · cases (run_bind_of_error hround _).symm.trans h
      · exact ih (ends.inv below) settled ((run_bind_of_ok hround _).symm.trans h)

end Fold
end MatrixChain
