import MatrixChain.Proofs.Fold
import MatrixChain.Proofs.Rounds
import MatrixChain.Proofs.Strategies
import Mathlib.Data.List.Perm.Basic

/-!
# The calls of a fold

A fold has two functions that it calls, and either may raise. What it calls them with, and in which order, is what the
recursion along the operand relation does: a node is asked for its operands, these are reduced in turn, and the node is
combined with their values. The first exception ends the fold.
-/

namespace MatrixChain
namespace Fold

variable {α β ε σ : Type} {r : α → α → Prop}

/-- A call of one of the two functions, and what came of it. -/
inductive Call (α β ε : Type) where
  | operands (node : α) (answer : Except ε (List α))
  | combine (node : α) (values : List β) (answer : Except ε β)

namespace Call

def asked? : Call α β ε → Option α
  | operands node _ => some node
  | combine .. => none

def combined? : Call α β ε → Option α
  | operands .. => none
  | combine node _ _ => some node

def answered : Call α β ε → List α
  | operands _ (.ok answer) => answer
  | _ => []

def fault? : Call α β ε → Option ε
  | operands _ (.error fault) => some fault
  | combine _ _ (.error fault) => some fault
  | _ => none

/-- With a value no call raised anything. With an exception the last call raised it, and no call before did. -/
def End (calls : List (Call α β ε)) : Except ε β → Prop
  | .ok _ => ∀ call ∈ calls, call.fault? = none
  | .error fault => ∃ earlier last, calls = earlier ++ [last] ∧ last.fault? = some fault ∧
      ∀ call ∈ earlier, call.fault? = none

end Call

/-- A node that was reduced to its value, and the calls that this took. -/
structure Reduced (α β ε : Type) where
  node : α
  calls : List (Call α β ε)
  value : β

/-- The calls that reduce a node, in order, and what comes of them. -/
inductive Reduces : α → List (Call α β ε) → Except ε β → Prop where
  /-- Asked for its operands, the node raises. -/
  | refused (node : α) (fault : ε) : Reduces node [.operands node (.error fault)] (.error fault)
  /-- An operand raises after those before it were reduced. Those after it are never met. -/
  | stopped (node : α) {done : List (Reduced α β ε)} {operand : α} {rest : List α} {calls : List (Call α β ε)} {fault : ε}
      (reduced : ∀ o ∈ done, Reduces o.node o.calls (.ok o.value)) (raises : Reduces operand calls (.error fault)) :
      Reduces node (.operands node (.ok (done.map (·.node) ++ operand :: rest)) :: (done.flatMap (·.calls) ++ calls))
        (.error fault)
  | combined (node : α) {done : List (Reduced α β ε)} (outcome : Except ε β)
      (reduced : ∀ o ∈ done, Reduces o.node o.calls (.ok o.value)) :
      Reduces node (.operands node (.ok (done.map (·.node))) ::
        (done.flatMap (·.calls) ++ [.combine node (done.map (·.value)) outcome])) outcome

namespace Reduces

theorem end_calls {node : α} {calls : List (Call α β ε)} {outcome : Except ε β} (h : Reduces node calls outcome) :
    Call.End calls outcome := by
  have hdone : ∀ done : List (Reduced α β ε), (∀ o ∈ done, Call.End o.calls (.ok o.value)) →
      ∀ call ∈ done.flatMap (·.calls), call.fault? = none := by
    intro done hends call hcall
    obtain ⟨o, ho, hcall⟩ := List.mem_flatMap.1 hcall
    exact hends o ho call hcall
  induction h with
  | refused node fault => exact ⟨[], _, rfl, rfl, List.forall_mem_nil _⟩
  | @stopped node done operand rest _ fault _ _ ih ihraises =>
    obtain ⟨earlier, last, rfl, hlast, hearlier⟩ := ihraises
    refine ⟨.operands node (.ok (done.map (·.node) ++ operand :: rest)) :: (done.flatMap (·.calls) ++ earlier), last,
      by simp, hlast, ?_⟩
    exact List.forall_mem_cons.2 ⟨rfl, List.forall_mem_append.2 ⟨hdone done ih, hearlier⟩⟩
  | @combined node done outcome _ ih =>
    cases outcome with
    | ok value =>
      exact List.forall_mem_cons.2
        ⟨rfl, List.forall_mem_append.2 ⟨hdone done ih, List.forall_mem_singleton.2 rfl⟩⟩
    | error fault =>
      refine ⟨.operands node (.ok (done.map (·.node))) :: done.flatMap (·.calls), _, (List.cons_append ..).symm, rfl, ?_⟩
      exact List.forall_mem_cons.2 ⟨rfl, hdone done ih⟩

theorem filterMap_around {γ δ : Type} (f : γ → Option δ) (first last : γ) (between : List γ) :
    ((first :: (between ++ [last])).filterMap f).Perm ([first, last].filterMap f ++ between.filterMap f) := by
  rw [← List.filterMap_append]
  exact ((List.perm_append_singleton last between).cons first).filterMap f

/-- Where `node?` tells the node of one of the two calls that a node has, there is one such call for the root and one for
each operand that was answered. -/
theorem perm_answered {node? : Call α β ε → Option α}
    (own : ∀ node answer values outcome, [.operands node answer, .combine node values outcome].filterMap node? = [node])
    {node : α} {calls : List (Call α β ε)} {outcome : Except ε β} (h : Reduces node calls outcome) {value : β}
    (hvalue : outcome = .ok value) : (calls.filterMap node?).Perm (node :: calls.flatMap Call.answered) := by
  induction h generalizing value with
  | refused => cases hvalue
  | stopped => cases hvalue
  | @combined node done outcome _ ih =>
    -- by induction an operand brings itself and what was answered below it, here operand by operand
    have hbelow : (done.flatMap fun o => o.calls.filterMap node?).Perm
        (done.map (·.node) ++ done.flatMap fun o => o.calls.flatMap Call.answered) :=
      (List.Perm.flatMap_left done fun o ho => ih o ho rfl).trans (List.map_append_flatMap_perm done _ _).symm
    have hcalls := filterMap_around node? (.operands node (.ok (done.map (·.node))))
      (.combine node (done.map (·.value)) outcome) (done.flatMap (·.calls))
    rw [own, List.filterMap_flatMap] at hcalls
    refine hcalls.trans ((hbelow.cons node).trans (.of_eq ?_))
    simp [Call.answered, List.flatMap_assoc]

end Reduces

def ReducesEach (nodes : List α) (calls : List (Call α β ε)) : Except ε (List β) → Prop
  | .ok values => ∃ done : List (Reduced α β ε), (∀ o ∈ done, Reduces o.node o.calls (.ok o.value)) ∧
      done.map (·.node) = nodes ∧ done.map (·.value) = values ∧ done.flatMap (·.calls) = calls
  | .error fault => ∃ (done : List (Reduced α β ε)) (node : α) (rest : List α) (raised : List (Call α β ε)),
      (∀ o ∈ done, Reduces o.node o.calls (.ok o.value)) ∧ Reduces node raised (.error fault) ∧
      done.map (·.node) ++ node :: rest = nodes ∧ done.flatMap (·.calls) ++ raised = calls

theorem ReducesEach.cons {node : α} {nodes : List α} {calls calls' : List (Call α β ε)} {value : β}
    (h : Reduces node calls (.ok value)) {outcome : Except ε (List β)} (h' : ReducesEach nodes calls' outcome) :
    ReducesEach (node :: nodes) (calls ++ calls') (outcome.map (value :: ·)) := by
  cases outcome with
  | ok values =>
    obtain ⟨done, hdone, rfl, rfl, rfl⟩ := h'
    exact ⟨⟨node, calls, value⟩ :: done, List.forall_mem_cons.2 ⟨h, hdone⟩, rfl, rfl, rfl⟩
  | error fault =>
    obtain ⟨done, node', rest, raised, hdone, hraised, rfl, rfl⟩ := h'
    exact ⟨⟨node, calls, value⟩ :: done, node', rest, raised, List.forall_mem_cons.2 ⟨h, hdone⟩, hraised, rfl,
      List.append_assoc ..⟩

section Noting

def notingOperands (operandsOf : (node : α) → ExceptT ε (StateM σ) { operands : List α // ∀ o ∈ operands, r o node })
    (node : α) : ExceptT ε (StateM (List (Call α β ε) × σ)) { operands : List α // ∀ o ∈ operands, r o node } :=
  withNote (fun answer => .operands node (answer.map Subtype.val)) (operandsOf node)

def notingCombine (combine : α → List β → ExceptT ε (StateM σ) β) (node : α) (values : List β) :
    ExceptT ε (StateM (List (Call α β ε) × σ)) β :=
  withNote (.combine node values) (combine node values)

theorem notes_mapM {ι : Type} {x : ι → ExceptT ε (StateM σ) β} {y : ι → ExceptT ε (StateM (List (Call α β ε) × σ)) β}
    (node : ι → α) {items : List ι} (h : ∀ i ∈ items, Notes (x i) (y i) (Reduces (node i))) :
    Notes (items.mapM x) (items.mapM y) (ReducesEach (items.map node)) := by
  induction items with
  | nil => exact .pure ⟨[], List.forall_mem_nil _, rfl, rfl, rfl⟩
  | cons i items ih =>
    obtain ⟨hfirst, hrest⟩ := List.forall_mem_cons.1 h
    rw [List.mapM_cons, List.mapM_cons]
    refine hfirst.bind (fun value calls hvalue => (ih hrest).bind (fun values calls' hvalues => .pure ?_)
      fun fault calls' hfault => ?_) fun fault calls hfault => ?_
    · rw [List.append_nil]
      exact .cons hvalue hvalues
    · exact .cons hvalue hfault
    · exact ⟨[], node i, items.map node, calls, List.forall_mem_nil _, hfault, rfl, rfl⟩

variable (operandsOf : (node : α) → ExceptT ε (StateM σ) { operands : List α // ∀ o ∈ operands, r o node })
  (combine : α → List β → ExceptT ε (StateM σ) β)

/-- Noting its calls does not change a fold, and the notes are the calls that reduce its root. -/
theorem notes_fold {root : α} (acc : Acc r root) :
    Notes (fold operandsOf combine root acc) (fold (notingOperands operandsOf) (notingCombine combine) root acc)
      (Reduces root) := by
  induction acc with
  | intro node below ih =>
    rw [recurses_fold, recurses_fold]
    refine (Notes.withNote (P := fun notes answer => notes = [.operands node (answer.map Subtype.val)])
      (fun _ => rfl) (operandsOf node)).bind (fun operands notes hnotes => ?_) fun fault notes hnotes => ?_
    · obtain rfl : notes = [.operands node (.ok operands.1)] := hnotes
      have hvalues := notes_mapM Subtype.val fun o (_ : o ∈ operands.1.attach) => ih o.1 (operands.2 o.1 o.2)
      rw [List.attach_map_subtype_val] at hvalues
      refine hvalues.bind (fun values calls hcalls => ?_) fun fault calls hcalls => ?_
      · obtain ⟨done, hdone, hnodes, rfl, rfl⟩ := hcalls
        rw [← hnodes]
        exact .withNote (fun outcome => .combined node outcome hdone) _
      · obtain ⟨done, operand, rest, raised, hdone, hraised, hnodes, rfl⟩ := hcalls
        rw [← hnodes]
        exact .stopped node hdone hraised
    · rw [hnotes]
      exact .refused node fault

end Noting

/-- A fold is the recursion along the operand relation, whatever effects its two functions have. Where these change a
state and raise, noting the calls shows them to be those that reduce the root: after the first exception there are no
more, and where there is a value, the root and every operand that was answered have one call of either function. The loop
on two stacks takes a number of rounds to this outcome, and no join on the way wants for a value. -/
theorem fold_reduces (root : α) (ends : Acc r root) :
    (∀ {m : Type → Type} [Monad m] [LawfulMonad m]
      (operandsOf : (node : α) → m { operands : List α // ∀ o ∈ operands, r o node }) (combine : α → List β → m β),
      Recurses operandsOf combine (fold operandsOf combine) ∧
      ∀ whole, Recurses operandsOf combine whole → whole root ends = fold operandsOf combine root ends) ∧
    ∀ (operandsOf : (node : α) → ExceptT ε (StateM σ) { operands : List α // ∀ o ∈ operands, r o node })
      (combine : α → List β → ExceptT ε (StateM σ) β) (state : σ), ∃ outcome state' calls,
        (fold operandsOf combine root ends).run.run state = (outcome, state') ∧
        (fold (notingOperands operandsOf) (notingCombine combine) root ends).run.run ([], state) =
          (outcome, (calls, state')) ∧
        Reduces root calls outcome ∧ Call.End calls outcome ∧
        (∀ value, outcome = .ok value →
          (calls.filterMap Call.asked?).Perm (root :: calls.flatMap Call.answered) ∧
          (calls.filterMap Call.combined?).Perm (root :: calls.flatMap Call.answered)) ∧
        (∃ count, (rounds operandsOf combine count ([.visit root], [])).run.run state =
          (outcome.map fun value => ([], [value]), state')) ∧
        ∀ count node arity rest values state'',
          (rounds operandsOf combine count ([.visit root], [])).run.run state =
            (.ok (.join node arity :: rest, values), state'') → arity ≤ values.length := by
  refine ⟨fun operandsOf combine => ⟨recurses_fold operandsOf combine, fun whole h => h.eq_fold root ends⟩,
    fun operandsOf combine state => ?_⟩
  obtain ⟨outcome, state', calls, hrun, hnoted, hcalls⟩ := notes_fold operandsOf combine ends [] state
  have hends := acc_visit ends [] acc_nil
  refine ⟨outcome, state', calls, hrun, hnoted, hcalls, hcalls.end_calls, fun value hvalue => ⟨?_, ?_⟩, ?_, ?_⟩
  · exact hcalls.perm_answered (fun _ _ _ _ => rfl) hvalue
  · exact hcalls.perm_answered (fun _ _ _ _ => rfl) hvalue
  · exact exists_rounds hends (settles_root root) hrun
  · intro count node arity rest values state'' h
    exact (settles_rounds hends (settles_root root) h).1

def refusesPairs (_ : Expr Int) (values : List Nat) : ExceptT Fault (StateM Nat) Nat := do
  modify (· + 1)
  if values.length = 2 then throw .unspecified
  pure (values.sum + 1)

def refusing (e : Expr Int) : ExceptT Fault (StateM Nat) Nat :=
  fold Expr.runOperandsOf refusesPairs e e.acc_smaller

theorem refusing_eq (e : Expr Int) : refusing e = (do
    let operands ← Expr.runOperandsOf e
    let values ← operands.1.mapM refusing
    refusesPairs e values) :=
  fold_eq_mapM Expr.runOperandsOf refusesPairs Expr.acc_smaller e

theorem refusing_twos (id : NodeId) (count : Nat) : (refusing (twos id)).run.run count = (.ok 1, count + 1) := by
  rw [refusing_eq]
  rfl

theorem refusing_product (count : Nat) :
    (refusing (.product 3 twosProduct (twos 0) ⟨1, 1⟩)).run.run count = (.ok 4, count + 4) := by
  rw [refusing_eq]
  change ([twos 0, twos 1, twos 0].mapM refusing >>= refusesPairs _).run.run count = _
  simp only [List.mapM_cons, List.mapM_nil, bind_assoc, pure_bind]
  rw [run_bind_of_ok (refusing_twos 0 _), run_bind_of_ok (refusing_twos 1 _), run_bind_of_ok (refusing_twos 0 _)]
  rfl

theorem refusing_twosProduct (count : Nat) : (refusing twosProduct).run.run count = (.error .unspecified, count + 3) := by
  rw [refusing_eq]
  change ([twos 0, twos 1].mapM refusing >>= refusesPairs _).run.run count = _
  simp only [List.mapM_cons, List.mapM_nil, bind_assoc, pure_bind]
  rw [run_bind_of_ok (refusing_twos 0 _), run_bind_of_ok (refusing_twos 1 _)]
  rfl

theorem refusing_sharedSum (count : Nat) : (refusing sharedSum).run.run count = (.error .unspecified, count + 7) := by
  rw [refusing_eq]
  change ([.product 3 twosProduct (twos 0) ⟨1, 1⟩, twosProduct].mapM refusing >>= refusesPairs _).run.run count = _
  simp only [List.mapM_cons, List.mapM_nil, bind_assoc, pure_bind]
  rw [run_bind_of_ok (refusing_product _), run_bind_of_error (refusing_twosProduct _)]

/-- The run of three operands is combined. The run of two raises, and the sum is never combined. -/
theorem fold_reduces_of_sharedSum :
    Acc Expr.Smaller sharedSum ∧
    Recurses Expr.runOperandsOf refusesPairs (fold Expr.runOperandsOf refusesPairs) ∧
    (fold Expr.runOperandsOf refusesPairs sharedSum sharedSum.acc_smaller).run.run 0 = (.error .unspecified, 7) ∧
    ∃ calls,
      (fold (notingOperands Expr.runOperandsOf) (notingCombine refusesPairs) sharedSum
        sharedSum.acc_smaller).run.run ([], 0) = (.error .unspecified, (calls, 7)) ∧
      Reduces sharedSum calls (.error .unspecified) ∧ Call.End calls (.error .unspecified) ∧
      ∃ count, (rounds Expr.runOperandsOf refusesPairs count ([.visit sharedSum], [])).run.run 0 =
        (.error .unspecified, 7) := by
  obtain ⟨hrecurses, hcalls⟩ := fold_reduces (β := Nat) (ε := Fault) (σ := Nat) sharedSum sharedSum.acc_smaller
  obtain ⟨outcome, state', calls, hrun, hnoted, hreduces, hend, _, hrounds, _⟩ :=
    hcalls Expr.runOperandsOf refusesPairs 0
  obtain ⟨rfl, rfl⟩ := Prod.mk.inj (hrun.symm.trans (refusing_sharedSum 0))
  exact ⟨sharedSum.acc_smaller, (hrecurses Expr.runOperandsOf refusesPairs).1, refusing_sharedSum 0, calls, hnoted,
    hreduces, hend, hrounds⟩

end Fold
end MatrixChain
