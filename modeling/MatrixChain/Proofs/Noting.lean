/-!
# Notes beside a computation

Computations that may change a state and may raise can have what comes of their steps noted on the way. The notes have
no say in the outcome, and they outlast an exception.
-/

namespace MatrixChain

variable {γ δ ε ν σ : Type}

theorem run_bind_of_ok {x : ExceptT ε (StateM σ) γ} {state state' : σ} {c : γ}
    (h : x.run.run state = (.ok c, state')) (f : γ → ExceptT ε (StateM σ) δ) :
    (x >>= f).run.run state = (f c).run.run state' := by
  rw [ExceptT.run_bind, StateT.run_bind, h]
  rfl

theorem run_bind_of_error {x : ExceptT ε (StateM σ) γ} {state state' : σ} {fault : ε}
    (h : x.run.run state = (.error fault, state')) (f : γ → ExceptT ε (StateM σ) δ) :
    (x >>= f).run.run state = (.error fault, state') := by
  rw [ExceptT.run_bind, StateT.run_bind, h]
  rfl

def withNote (note : Except ε γ → ν) (x : ExceptT ε (StateM σ) γ) : ExceptT ε (StateM (List ν × σ)) γ :=
  ExceptT.mk fun before =>
    let after := x.run.run before.2
    pure (after.1, (before.1 ++ [note after.1], after.2))

/-- `y` does what `x` does and puts notes behind those before, such that `P` holds of them and the outcome. -/
def Notes (x : ExceptT ε (StateM σ) γ) (y : ExceptT ε (StateM (List ν × σ)) γ) (P : List ν → Except ε γ → Prop) : Prop :=
  ∀ before state, ∃ outcome state' notes, x.run.run state = (outcome, state') ∧
    y.run.run (before, state) = (outcome, (before ++ notes, state')) ∧ P notes outcome

namespace Notes

theorem pure {P : List ν → Except ε γ → Prop} {c : γ} (h : P [] (.ok c)) :
    Notes (σ := σ) (Pure.pure c) (Pure.pure c) P := by
  intro before state
  refine ⟨.ok c, state, [], rfl, ?_, h⟩
  rw [List.append_nil]
  rfl

theorem mono {x : ExceptT ε (StateM σ) γ} {y : ExceptT ε (StateM (List ν × σ)) γ} {P Q : List ν → Except ε γ → Prop}
    (h : Notes x y P) (imp : ∀ notes outcome, P notes outcome → Q notes outcome) : Notes x y Q := by
  intro before state
  obtain ⟨outcome, state', notes, hx, hy, hP⟩ := h before state
  exact ⟨outcome, state', notes, hx, hy, imp notes outcome hP⟩

theorem withNote {P : List ν → Except ε γ → Prop} {note : Except ε γ → ν} (h : ∀ outcome, P [note outcome] outcome)
    (x : ExceptT ε (StateM σ) γ) : Notes x (withNote note x) P :=
  fun _ state => ⟨(x.run.run state).1, _, [note (x.run.run state).1], rfl, rfl, h _⟩

/-- After a success come the notes of what follows, after an exception there are no more. -/
theorem bind {x : ExceptT ε (StateM σ) γ} {y : ExceptT ε (StateM (List ν × σ)) γ}
    {f : γ → ExceptT ε (StateM σ) δ} {g : γ → ExceptT ε (StateM (List ν × σ)) δ} {P : List ν → Except ε γ → Prop}
    {Q : List ν → Except ε δ → Prop} (h : Notes x y P)
    (next : ∀ c notes, P notes (.ok c) → Notes (f c) (g c) fun notes' outcome => Q (notes ++ notes') outcome)
    (stop : ∀ fault notes, P notes (.error fault) → Q notes (.error fault)) : Notes (x >>= f) (y >>= g) Q := by
  intro before state
  obtain ⟨outcome, state', notes, hx, hy, hP⟩ := h before state
  cases outcome with
  | ok c =>
    obtain ⟨outcome, state'', notes', hf, hg, hQ⟩ := next c notes hP (before ++ notes) state'
    rw [List.append_assoc] at hg
    exact ⟨outcome, state'', notes ++ notes', (run_bind_of_ok hx f).trans hf, (run_bind_of_ok hy g).trans hg, hQ⟩
  | error fault =>
    exact ⟨.error fault, state', notes, run_bind_of_error hx f, run_bind_of_error hy g, stop fault notes hP⟩

end Notes
end MatrixChain
