import MatrixChain.Evaluation.Strategy
import MatrixChain.Proofs.Pool
import MatrixChain.Proofs.Session
import MatrixChain.Proofs.Value

/-!
# Agreement of the strategies

Evaluating a tree level by level gives the very matrix that evaluating it in order gives, over any scalars and for
every timetable of the pool.
-/

namespace MatrixChain

open MatrixChain.Expr MatrixChain.Pool

def twos (id : NodeId) : Expr Int :=
  leaf id (.ofFn 1 1 fun _ _ => 2) none

def twosProduct : Expr Int :=
  product 2 (twos 0) (twos 1) ⟨1, 1⟩

/-- The product is an operand at two heights, and so is the first leaf. -/
def sharedSum : Expr Int :=
  sum 4 (product 3 twosProduct (twos 0) ⟨1, 1⟩) twosProduct ⟨1, 1⟩

theorem session_sharedSum :
    Session 5 [sharedSum, product 3 twosProduct (twos 0) ⟨1, 1⟩, twosProduct, twos 1, twos 0] := by
  have hleaves : Session 2 [twos 1, twos 0] := .leaf (.leaf (.start 0) rfl) rfl
  have hfirst : ∀ nodes, twos 0 ∈ nodes ++ [twos 1, twos 0] := by simp
  have hproduct : Session 3 [twosProduct, twos 1, twos 0] := .multiply hleaves (hfirst []) List.mem_cons_self rfl
  have houter : Session 4 [product 3 twosProduct (twos 0) ⟨1, 1⟩, twosProduct, twos 1, twos 0] :=
    .multiply hproduct List.mem_cons_self (hfirst [twosProduct]) rfl
  exact .add houter List.mem_cons_self (List.mem_cons_of_mem _ List.mem_cons_self) rfl

variable {α : Type} [Zero α] [Add α] [Mul α]

theorem Expr.Built.exists_foldChildren {e : Expr α} (h : Built e) :
    ∀ n ∈ e.postorder, ∃ a, n.foldChildren realize = .ok a := by
  intro n hn
  obtain ⟨a, ha, _⟩ := (h.of_mem_postorder hn).evaluateInOrder_eq
  exact ⟨a, ha⟩

theorem Session.evaluateByLevels_inOrder {next : NodeId} {nodes : List (Expr α)} (session : Session next nodes)
    {e : Expr α} (he : e ∈ nodes) {timetable : Timetable} (valid : timetable.Valid) {workers : Option Int}
    (positive : ∀ n ∈ workers, 0 < n) : e.evaluateByLevels timetable workers = e.evaluateInOrder :=
  evaluate_eq_foldChildren (session.identified he) valid positive (session.built he).exists_foldChildren

/-- With workers, both strategies evaluate a tree of a session to one matrix, whatever the timetable of the pool is. Each
task is run, and as long as its level is evaluated, the store has for every operand the value of the tree of that
operand. -/
theorem Session.evaluateByLevels_eq {next : NodeId} {nodes : List (Expr α)} (session : Session next nodes) {e : Expr α}
    (he : e ∈ nodes) {timetable : Timetable} (valid : timetable.Valid) {workers : Option Int}
    (positive : ∀ n ∈ workers, 0 < n) :
    (∃ a, e.evaluate .sequential workers = .ok a ∧ e.evaluateByLevels timetable workers = .ok a ∧
      e.evaluate .threaded workers = .ok a) ∧
    ∀ level ∈ e.levels, ∀ place n, level[place]? = some n →
      (∃ p rest, Reaches realize timetable e level p (.run place :: rest)) ∧
      ∀ p rest, Reaches realize timetable e level p rest →
        ∀ c ∈ n.children, ∃ a, p.store.values[c.id]? = some a ∧ c.evaluateInOrder = .ok a := by
  have hidentified := session.identified he
  have hok := (session.built he).exists_foldChildren
  obtain ⟨a, ha⟩ := hok e e.mem_postorder_self
  refine ⟨⟨a, ha, ?_, ?_⟩, fun level hlevel place n hn => ⟨?_, fun p rest h => ?_⟩⟩
  · exact (session.evaluateByLevels_inOrder he valid positive).trans ha
  · exact (session.evaluateByLevels_inOrder he Timetable.valid_oneByOne positive).trans ha
  · obtain ⟨below, above, hlevels⟩ := List.append_of_mem (Array.mem_toList_iff.2 hlevel)
    have hrun : .run place ∈ timetable below.length level.size :=
      (valid below.length level.size).run_mem (Array.getElem?_eq_some_iff.1 hn).1
    obtain ⟨before, rest, hevents⟩ := List.append_of_mem hrun
    obtain ⟨p, hp⟩ := exists_reaches hidentified valid hok hlevels hevents
    exact ⟨p, rest, hp⟩
  · exact h.ready hidentified valid (Array.mem_of_getElem? hn)

theorem Session.evaluateByLevels_eq_of_sharedSum :
    Session 5 [sharedSum, product 3 twosProduct (twos 0) ⟨1, 1⟩, twosProduct, twos 1, twos 0] ∧
      Timetable.lastFirst.Valid ∧ (∀ n ∈ some (2 : Int), 0 < n) ∧
      ∃ a, sharedSum.evaluate .sequential (some 2) = .ok a ∧
        sharedSum.evaluateByLevels .lastFirst (some 2) = .ok a ∧ a.toLists = [[12]] := by
  have hworkers : ∀ n ∈ some (2 : Int), 0 < n := by simp
  obtain ⟨⟨a, ha, hlevels, _⟩, _⟩ :=
    session_sharedSum.evaluateByLevels_eq List.mem_cons_self Timetable.valid_lastFirst hworkers
  obtain ⟨b, hb, _, hvalue⟩ := (session_sharedSum.built List.mem_cons_self).evaluateInOrder_eq
  have htwelve : sharedSum.skeleton.value matrix? = some (.ofFn 1 1 fun _ _ => 12) := rfl
  obtain rfl : a = b := Except.ok.inj (ha.symm.trans hb)
  refine ⟨session_sharedSum, Timetable.valid_lastFirst, hworkers, a, ha, hlevels, ?_⟩
  rw [← Option.some.inj (htwelve.symm.trans hvalue)]
  rfl

end MatrixChain
