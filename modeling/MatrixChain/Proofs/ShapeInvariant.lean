import MatrixChain.Proofs.CallLog
import MatrixChain.Proofs.Strategies

/-!
# Shapes of all that a session hands out

In every tree of a session the shapes of operands fit and every node declares the shape that its operands give it. So
no later check fails, and whatever is computed for a node has the shape that the node declares.
-/

namespace MatrixChain

open MatrixChain.Expr MatrixChain.Pool

variable {α β : Type}

namespace Expr

/-- What a node declares goes with what its operands declare. -/
def WellShaped : Expr α → Prop
  | leaf .. => True
  | product _ left right shape => left.shape.cols = right.shape.rows ∧ shape = ⟨left.shape.rows, right.shape.cols⟩
  | sum _ left right shape => left.shape = right.shape ∧ shape = left.shape
  | foreign _ => False

theorem Built.wellShaped {e : Expr α} (h : Built e) : e.WellShaped := by
  cases h using Built.shapeInduction with
  | leaf id matrix label => trivial
  | product id left right hl hr inner => exact ⟨inner, rfl⟩
  | sum id left right hl hr shapes => exact ⟨shapes, rfl⟩

section Notes

variable (combine : Expr α → List β → Except Fault β)

def noting (e : Expr α) (operands : List β) : StateT (List (Expr α × β)) (Except Fault) β := do
  let value ← combine e operands
  modify (· ++ [(e, value)])
  pure value

/-- Folding the tree notes every node once, in post-order, and beside it the value of the tree below it. -/
def Noted (e : Expr α) : Prop :=
  ∀ before, ∃ a notes, (e.foldChildren (noting combine)).run before = .ok (a, before ++ notes) ∧
    e.foldChildren combine = .ok a ∧ notes.map Prod.fst = e.postorder ∧
    ∀ note ∈ notes, note.1.foldChildren combine = .ok note.2

variable {combine}

theorem noted_of_ok {e : Expr α} (ok : ∀ n ∈ e.postorder, ∃ a, n.foldChildren combine = .ok a) : Noted combine e := by
  intro before
  obtain ⟨a, ha⟩ := ok e e.mem_postorder_self
  have hfold : Records (fun call => (call.node, call.value)) combine (e.foldChildren (noting combine)) _ e.postorder :=
    records_foldChildren e
  obtain ⟨calls, hrun, hnodes, hcalls⟩ := hfold a ha before
  refine ⟨a, _, hrun, ha, by rwa [List.map_map], fun note hnote => ?_⟩
  obtain ⟨call, hcall, rfl⟩ := List.mem_map.1 hnote
  exact (hcalls call hcall).foldChildren_eq

end Notes

end Expr

variable [Zero α] [Add α] [Mul α]

/-- The value of a built expression has the shape that the expression declares. -/
theorem Expr.Built.shape_of_foldChildren {e : Expr α} (h : Built e) {a : DenseMatrix α}
    (ha : e.foldChildren realize = .ok a) : a.shape = e.shape := by
  obtain ⟨b, hb, hshape, _⟩ := h.evaluateInOrder_eq
  obtain rfl : a = b := Except.ok.inj (ha.symm.trans hb)
  exact hshape

/-- Every tree of a session has shapes that fit, so it is reassociated, costed and evaluated by either strategy, and the
matrix of every node has the shape that the node declares. -/
theorem Session.computes_declared_shapes {next : NodeId} {nodes : List (Expr α)} (session : Session next nodes)
    {e : Expr α} (he : e ∈ nodes) {timetable : Timetable} (valid : timetable.Valid) {workers : Option Int}
    (positive : ∀ n ∈ workers, 0 < n) :
    (∀ n ∈ e.postorder, n.WellShaped ∧ 0 ≤ n.shape.rows ∧ 0 ≤ n.shape.cols) ∧
    (∀ first, ∃ r records next', e.reassociateRecorded.run first = .ok ((r, records), next') ∧
      e.reassociate.run first = .ok (r, next')) ∧
    (∃ cost, e.cost = .ok cost) ∧
    (∃ a notes, e.evaluate .sequential workers = .ok a ∧ e.evaluateByLevels timetable workers = .ok a ∧
      e.evaluate .threaded workers = .ok a ∧ (e.foldChildren (noting realize)).run [] = .ok (a, notes) ∧
      notes.map Prod.fst = e.postorder ∧ ∀ note ∈ notes, note.2.shape = note.1.shape) ∧
    ∀ level ∈ e.levels, (∃ p, Reaches realize timetable e level p []) ∧
      ∀ p, Reaches realize timetable e level p [] → ∀ (place : Nat) (n : Expr α), level[place]? = some n →
        ∃ a : DenseMatrix α, p.results[place]? = some (some (.ok a)) ∧ a.shape = n.shape := by
  have hbuilt := session.built he
  have hidentified := session.identified he
  have hok := hbuilt.exists_foldChildren
  have hshape : ∀ n ∈ e.postorder, ∀ a, n.foldChildren realize = .ok a → a.shape = n.shape :=
    fun n hn a ha => (hbuilt.of_mem_postorder hn).shape_of_foldChildren ha
  obtain ⟨a, notes, hnoted, ha, hnodes, hnotes⟩ := noted_of_ok hok []
  refine ⟨fun n hn => ?_, fun first => ?_, ⟨_, hbuilt.cost_eq⟩, ⟨a, notes, ha, ?_, ?_, hnoted, hnodes, ?_⟩,
    fun level hlevel => ⟨?_, fun p hp place n hn => ?_⟩⟩
  · exact ⟨(hbuilt.of_mem_postorder hn).wellShaped, (hbuilt.of_mem_postorder hn).shape_nonneg⟩
  · obtain ⟨r, made, hrecorded, hrun, _⟩ := hbuilt.reassociate_spec first
    exact ⟨r, _, _, hrecorded, hrun⟩
  · exact (session.evaluateByLevels_inOrder he valid positive).trans ha
  · exact (session.evaluateByLevels_inOrder he Timetable.valid_oneByOne positive).trans ha
  · intro note hnote
    have hnode : note.1 ∈ e.postorder := hnodes ▸ List.mem_map_of_mem hnote
    exact hshape note.1 hnode note.2 (hnotes note hnote)
  · obtain ⟨below, above, hlevels⟩ := List.append_of_mem (Array.mem_toList_iff.2 hlevel)
    exact exists_reaches hidentified valid hok hlevels (List.append_nil _).symm
  · have hnode := mem_postorder_of_mem_levels (Array.mem_toList_iff.2 hlevel) (Array.mem_of_getElem? hn)
    obtain ⟨b, hb⟩ := hok n hnode
    refine ⟨b, ?_, hshape n hnode b hb⟩
    rw [← hb]
    exact Option.join_eq_some_iff.1 (hp.results hidentified valid hn)

def threeByOne (id : NodeId) : Expr Int :=
  leaf id (.ofFn 3 1 fun i _ => i.val) none

def oneByThree (id : NodeId) : Expr Int :=
  leaf id (.ofFn 1 3 fun _ j => j.val) none

def outerProduct : Expr Int :=
  product 3 (threeByOne 0) (oneByThree 1) ⟨3, 3⟩

/-- The outer product is there first, and reassociation brings in the inner one. -/
def outerTimesColumn : Expr Int :=
  product 4 outerProduct (threeByOne 2) ⟨3, 1⟩

theorem session_outerTimesColumn :
    Session 5 [outerTimesColumn, outerProduct, threeByOne 2, oneByThree 1, threeByOne 0] := by
  have hleaves : Session 3 [threeByOne 2, oneByThree 1, threeByOne 0] := .leaf (.leaf (.leaf (.start 0) rfl) rfl) rfl
  have hcolumn : threeByOne 0 ∈ [threeByOne 2, oneByThree 1, threeByOne 0] := by simp
  have hrow : oneByThree 1 ∈ [threeByOne 2, oneByThree 1, threeByOne 0] := by simp
  have houter : Session 4 [outerProduct, threeByOne 2, oneByThree 1, threeByOne 0] :=
    .multiply hleaves hcolumn hrow rfl
  exact .multiply houter List.mem_cons_self (List.mem_cons_of_mem _ List.mem_cons_self) rfl

theorem Session.computes_declared_shapes_of_outerTimesColumn :
    ∃ r next' nodes, outerTimesColumn.reassociate.run 5 = .ok (r, next') ∧ Session next' nodes ∧ r ∈ nodes ∧
      Timetable.lastFirst.Valid ∧ (∀ n ∈ some (2 : Int), 0 < n) ∧
      (∀ n ∈ r.postorder, n.WellShaped ∧ 0 ≤ n.shape.rows ∧ 0 ≤ n.shape.cols) ∧
      ∃ a, r.evaluate .sequential (some 2) = .ok a ∧ r.evaluateByLevels .lastFirst (some 2) = .ok a := by
  have hworkers : ∀ n ∈ some (2 : Int), 0 < n := by simp
  obtain ⟨r, made, _, hrun, _⟩ := (session_outerTimesColumn.built List.mem_cons_self).reassociate_spec 5
  have hsession := (session_outerTimesColumn.reassociate List.mem_cons_self hrun).children List.mem_cons_self
  obtain ⟨hshapes, _, _, ⟨a, _, ha, hlevels, _⟩, _⟩ :=
    hsession.computes_declared_shapes (List.mem_append_right _ List.mem_cons_self) Timetable.valid_lastFirst hworkers
  exact ⟨r, _, _, hrun, hsession, List.mem_append_right _ List.mem_cons_self, Timetable.valid_lastFirst, hworkers,
    hshapes, a, ha, hlevels⟩

end MatrixChain
