import MatrixChain.Reassociation

/-!
# What rewriting yields

A logic for computations that make nodes and may keep records: what is asserted is that they succeed, under which
identities they make which nodes, and that the records have no say in the answer.
-/

namespace MatrixChain

variable {α β γ : Type}

/-- From any state `x` succeeds. It makes nodes under the identities that come next and puts records in front, such that
`P` holds of the answer, of these records and of these nodes; `y` does the same without the records. -/
def Yields (x y : Reassociating β) (P : β → List RunRecord → List (Expr α) → Prop) : Prop :=
  ∀ next, ∃ b added made,
    (∀ records, (x.run records).run next = .ok ((b, added ++ records), next + made.length)) ∧
    (∀ records, (y.run records).run next = .ok ((b, records), next + made.length)) ∧
    made.map Expr.id = List.range' next made.length ∧ P b added made

theorem Yields.pure {P : β → List RunRecord → List (Expr α) → Prop} {b : β} (h : P b [] []) :
    Yields (Pure.pure b) (Pure.pure b) P :=
  fun _ => ⟨b, [], [], fun _ => rfl, fun _ => rfl, rfl, h⟩

theorem Yields.mono {x y : Reassociating β} {P Q : β → List RunRecord → List (Expr α) → Prop} (hx : Yields x y P)
    (h : ∀ b added made, P b added made → Q b added made) : Yields x y Q := by
  intro next
  obtain ⟨b, added, made, hrun, hrun', hids, hP⟩ := hx next
  exact ⟨b, added, made, hrun, hrun', hids, h b added made hP⟩

theorem Yields.bind {x y : Reassociating β} {f g : β → Reassociating γ}
    {P : β → List RunRecord → List (Expr α) → Prop} {Q : γ → List RunRecord → List (Expr α) → Prop}
    (hx : Yields x y P) (hf : ∀ b added made, P b added made →
      Yields (f b) (g b) fun c added' made' => Q c (added' ++ added) (made ++ made')) :
    Yields (x >>= f) (y >>= g) Q := by
  intro next
  obtain ⟨b, added, made, hb, hb', hids, hP⟩ := hx next
  obtain ⟨c, added', made', hc, hc', hids', hQ⟩ := hf b added made hP (next + made.length)
  have hlength : next + made.length + made'.length = next + (made ++ made').length := by
    rw [List.length_append, Nat.add_assoc]
  refine ⟨c, added' ++ added, made ++ made', fun records => ?_, fun records => ?_, ?_, hQ⟩
  · rw [StateT.run_bind, StateT.run_bind, hb, List.append_assoc, ← hlength]
    exact hc (added ++ records)
  · rw [StateT.run_bind, StateT.run_bind, hb', ← hlength]
    exact hc' records
  · rw [List.map_append, hids, hids', List.range'_append_1, List.length_append]

theorem Yields.of_build {x : Build (Expr α)} {P : Expr α → List RunRecord → List (Expr α) → Prop}
    (h : ∀ next, ∃ e, x.run next = .ok (e, next + 1) ∧ e.id = next ∧ P e [] [e]) :
    Yields (liftM x) (liftM x) P := by
  intro next
  obtain ⟨e, he, hid, hP⟩ := h next
  have hrun : ∀ records, ((liftM x : Reassociating (Expr α)).run records).run next =
      .ok ((e, records), next + 1) := by
    intro records
    change ((x >>= fun e => Pure.pure (e, records) : Build (Expr α × List RunRecord))).run next = _
    rw [StateT.run_bind, he]
    rfl
  exact ⟨e, [], [e], hrun, hrun, congrArg (fun id => [id]) hid, hP⟩

theorem lift_ok {x : Except Fault β} {b : β} (h : x = .ok b) : (liftM x : Reassociating β) = Pure.pure b := by
  subst h
  rfl

theorem Yields.keep {r : RunRecord} {P : Unit → List RunRecord → List (Expr α) → Prop} (h : P () [r] []) :
    Yields (modify (r :: ·)) (Pure.pure ()) P :=
  fun _ => ⟨(), [r], [], fun _ => rfl, fun _ => rfl, rfl, h⟩

def Fails (x : Reassociating β) (fault : Fault) : Prop :=
  ∀ records next, (x.run records).run next = .error fault

theorem Fails.bind {x : Reassociating β} {fault : Fault} (h : Fails x fault) (f : β → Reassociating γ) :
    Fails (x >>= f) fault := by
  intro records next
  rw [StateT.run_bind, StateT.run_bind, h]
  rfl

theorem Yields.bind_fails {x y : Reassociating β} {P : β → List RunRecord → List (Expr α) → Prop} (hx : Yields x y P)
    {f : β → Reassociating γ} {fault : Fault} (hf : ∀ b, Fails (f b) fault) : Fails (x >>= f) fault := by
  intro records next
  obtain ⟨b, added, made, hb, _⟩ := hx next
  rw [StateT.run_bind, StateT.run_bind, hb]
  exact hf b (added ++ records) (next + made.length)

end MatrixChain
