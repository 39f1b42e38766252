import MatrixChain.Proofs.FirstFault
import MatrixChain.Proofs.Strategies

/-!
# Nodes of unknown classes

A tree that holds nodes of classes that the library does not know is refused by whatever goes through it, always with the
first of these nodes from left to right. The subtrees before that node are built of leaves, products and sums, so nothing
that is done with them fails.
-/

namespace MatrixChain

open MatrixChain.Expr MatrixChain.Pool

variable {α : Type}

namespace Expr

def unknown? : Expr α → Option Foreign
  | foreign node => some node
  | _ => none

def firstUnknown? (e : Expr α) : Option Foreign :=
  e.skeleton.atoms.findSome? unknown?

section FirstUnknown

@[simp] theorem firstUnknown?_leaf (id : NodeId) (matrix : DenseMatrix α) (label : Option String) :
    (leaf id matrix label).firstUnknown? = none := rfl

@[simp] theorem firstUnknown?_foreign (node : Foreign) : (foreign node : Expr α).firstUnknown? = some node := rfl

@[simp] theorem firstUnknown?_product (id : NodeId) (left right : Expr α) (shape : Shape) :
    (product id left right shape).firstUnknown? = left.firstUnknown?.or right.firstUnknown? :=
  List.findSome?_append

@[simp] theorem firstUnknown?_sum (id : NodeId) (left right : Expr α) (shape : Shape) :
    (sum id left right shape).firstUnknown? = left.firstUnknown?.or right.firstUnknown? :=
  List.findSome?_append

theorem firstUnknown?_eq_none_iff {e : Expr α} : e.firstUnknown? = none ↔ e.Known := by
  induction e with
  | leaf id matrix label => simp [Known]
  | product id left right shape ihl ihr => simp [Known, ihl, ihr]
  | sum id left right shape ihl ihr => simp [Known, ihl, ihr]
  | foreign node => simp [Known]

theorem findSome?_postorder (e : Expr α) : e.postorder.findSome? unknown? = e.firstUnknown? := by
  induction e with
  | leaf id matrix label => rfl
  | product id left right shape ihl ihr => simp [List.findSome?_append, ihl, ihr, unknown?]
  | sum id left right shape ihl ihr => simp [List.findSome?_append, ihl, ihr, unknown?]
  | foreign node => rfl

theorem firstUnknown?_eq_none_iff_notMem {e : Expr α} :
    e.firstUnknown? = none ↔ ∀ node, .foreign node ∉ e.postorder := by
  rw [← findSome?_postorder, List.findSome?_eq_none_iff]
  constructor
  · intro h node hnode
    cases h _ hnode
  · intro h n hn
    cases n with
    | foreign node => exact absurd hn (h node)
    | _ => rfl

theorem eq_foreign_of_unknown? {n : Expr α} {node : Foreign} (h : n.unknown? = some node) : n = .foreign node := by
  cases n with
  | foreign node' => rw [Option.some.inj h]
  | _ => cases h

/-- These nodes stand on the lowest level, in the same order. -/
theorem findSome?_sortedByHeight (e : Expr α) :
    (sortedByHeight e.postorder (e.height + 1)).findSome? unknown? = e.firstUnknown? := by
  rw [← findSome?_postorder]
  cases hfirst : e.postorder.findSome? unknown? with
  | none =>
    rw [List.findSome?_eq_none_iff] at hfirst ⊢
    exact fun n hn => hfirst n (mem_sortedByHeight.1 hn).1
  | some node =>
    obtain ⟨before, n, after, hnodes, hn, hbefore⟩ := List.findSome?_eq_some_iff.1 hfirst
    have hheight : n.height = 0 := by
      rw [eq_foreign_of_unknown? hn]
      rfl
    refine findSome?_sortedByHeight_eq_some_iff.2 ⟨before, n, after, hnodes, by omega, hn, fun m hm hsome => ?_,
      fun m _ _ => by omega⟩
    rw [hbefore m hm] at hsome
    cases hsome

end FirstUnknown

section Constructed

theorem Constructed.of_mem_children {e c : Expr α} (h : Constructed e) (hc : c ∈ e.children) : Constructed c := by
  have hpair : ∀ {left right : Expr α}, Constructed left → Constructed right → c ∈ [left, right] → Constructed c := by
    intro left right hl hr hc
    rcases List.mem_pair.1 hc with rfl | rfl
    · exact hl
    · exact hr
  cases h with
  | foreign => cases hc
  | leaf made =>
    cases made
    cases hc
  | multiply hl hr made =>
    obtain ⟨_, rfl⟩ := multiply_run_eq_ok made
    exact hpair hl hr hc
  | add hl hr made =>
    obtain ⟨_, rfl⟩ := add_run_eq_ok made
    exact hpair hl hr hc

theorem Constructed.of_mem_postorder {e n : Expr α} (h : Constructed e) (hn : n ∈ e.postorder) : Constructed n :=
  forall_mem_postorder (fun _ h _ hc => h.of_mem_children hc) h n hn

/-- What was constructed without nodes of unknown classes was built. -/
theorem Constructed.built {e : Expr α} (h : Constructed e) (known : e.Known) : Built e := by
  induction h with
  | foreign => exact known.elim
  | leaf made => exact .leaf made
  | multiply _ _ made ihl ihr =>
    obtain ⟨_, rfl⟩ := multiply_run_eq_ok made
    exact .multiply (ihl known.1) (ihr known.2) made
  | add _ _ made ihl ihr =>
    obtain ⟨_, rfl⟩ := add_run_eq_ok made
    exact .add (ihl known.1) (ihr known.2) made

end Constructed

section Folds

variable {β : Type} {activity : Activity} {combine : Expr α → List β → Except Fault β}

/-- A way to combine values that refuses nodes of unknown classes and manages all built expressions. -/
structure Refuses (activity : Activity) (combine : Expr α → List β → Except Fault β) : Prop where
  foreign : ∀ node operands, combine (.foreign node) operands = .error (.unknownNode activity node)
  built : ∀ e, Built e → ∃ a, e.foldChildren combine = .ok a

theorem refuses_addWork : Refuses (α := α) .costing addWork where
  foreign _ _ := rfl
  built _ h := ⟨_, h.cost_eq⟩

theorem refuses_realize [Zero α] [Add α] [Mul α] : Refuses (α := α) .evaluating realize where
  foreign _ _ := rfl
  built e h := h.exists_foldChildren e e.mem_postorder_self

theorem known_of_children {n : Expr α} (h : n.unknown? = none) (operands : ∀ c ∈ n.children, c.Known) : n.Known := by
  cases n with
  | leaf => trivial
  | product => exact ⟨operands _ (by simp [children]), operands _ (by simp [children])⟩
  | sum => exact ⟨operands _ (by simp [children]), operands _ (by simp [children])⟩
  | foreign => cases h

variable (refuses : Refuses activity combine)
include refuses

theorem Refuses.known_of_ok {e : Expr α} {a : β} (ha : e.foldChildren combine = .ok a) : e.Known := by
  induction e using childrenInduction generalizing a with
  | node e ih =>
    rw [foldChildren_eq] at ha
    obtain ⟨values, hvalues, hcombine⟩ := exists_of_bind_eq_ok ha
    refine known_of_children ?_ fun c hc => ?_
    · cases e with
      | foreign node => cases (refuses.foreign node values).symm.trans hcombine
      | _ => rfl
    · obtain ⟨b, hb⟩ := exists_mapM_iff.1 ⟨values, hvalues⟩ c hc
      exact ih c hc hb

/-- No other node fails by itself: either an operand has no value, or the node was built. -/
theorem Refuses.ownFault?_eq {n : Expr α} (constructed : Constructed n) :
    ownFault? combine n = n.unknown?.map (.unknownNode activity) := by
  cases hn : n.unknown? with
  | some node =>
    obtain rfl := eq_foreign_of_unknown? hn
    exact faultOf?_eq_some_iff.2 (refuses.foreign node [])
  | none =>
    cases hvalues : n.children.mapM (foldChildren combine) with
    | error fault =>
      rw [ownFault?, hvalues]
      rfl
    | ok values =>
      have hknown : n.Known := by
        refine known_of_children hn fun c hc => ?_
        obtain ⟨b, hb⟩ := exists_mapM_iff.1 ⟨values, hvalues⟩ c hc
        exact refuses.known_of_ok hb
      obtain ⟨a, ha⟩ := refuses.built n (constructed.built hknown)
      rw [foldChildren_eq, hvalues] at ha
      rw [ownFault?, hvalues]
      exact faultOf?_eq_none_iff.2 ⟨a, ha⟩

theorem Refuses.findSome?_ownFault? {nodes : List (Expr α)} (constructed : ∀ n ∈ nodes, Constructed n) :
    nodes.findSome? (ownFault? combine) = (nodes.findSome? unknown?).map (.unknownNode activity) := by
  induction nodes with
  | nil => rfl
  | cons n nodes ih =>
    have hn := refuses.ownFault?_eq (constructed n List.mem_cons_self)
    have hnodes := ih fun m hm => constructed m (List.mem_cons_of_mem n hm)
    rw [List.findSome?_cons, List.findSome?_cons, hn, hnodes]
    cases n.unknown? <;> rfl

variable {e : Expr α} (constructed : Constructed e)
include constructed

/-- A fold of what was constructed fails with the first node of an unknown class, and not at all if there is none. -/
theorem Refuses.faultOf?_foldChildren :
    faultOf? (e.foldChildren combine) = e.firstUnknown?.map (.unknownNode activity) := by
  rw [Expr.faultOf?_foldChildren, refuses.findSome?_ownFault? fun n => constructed.of_mem_postorder,
    findSome?_postorder]

theorem Refuses.faultOf?_evaluate (identified : Identified e.postorder) {timetable : Timetable}
    (valid : timetable.Valid) {workers : Option Int} (positive : ∀ n ∈ workers, 0 < n) :
    faultOf? (Pool.evaluate combine timetable workers e) = e.firstUnknown?.map (.unknownNode activity) := by
  have hnodes : ∀ n ∈ sortedByHeight e.postorder (e.height + 1), Constructed n := fun n hn =>
    constructed.of_mem_postorder (mem_sortedByHeight.1 hn).1
  rw [Expr.faultOf?_evaluate identified valid positive, refuses.findSome?_ownFault? hnodes,
    findSome?_sortedByHeight]

end Folds

section Reassociation

variable (recording : Bool)

theorem reassociating_foreign (node : Foreign) :
    (foreign node : Expr α).reassociating recording = throw (.unknownNode .rearranging node) :=
  Fold.fold_eq_mapM runOperandsOf (withOperands recording) acc_smaller (foreign node)

theorem fails_mapM_singleton {e : Expr α} {fault : Fault} (h : Fails (e.reassociating recording) fault) :
    Fails ([e].mapM (reassociating recording)) fault := by
  rw [List.mapM_cons]
  exact h.bind _

theorem fails_foreign (node : Foreign) :
    Fails ((foreign node : Expr α).reassociating recording) (.unknownNode .rearranging node) := by
  rw [reassociating_foreign]
  exact fun _ _ => rfl

section Node

variable {recording} (id : NodeId) {left right : Expr α} (shape : Shape) {fault : Fault}

theorem fails_factors_product (h : Fails (left.factors.mapM (reassociating recording)) fault ∨
      (RewritableEach recording left ∧ Fails (right.factors.mapM (reassociating recording)) fault)) :
    Fails ((product id left right shape).factors.mapM (reassociating recording)) fault := by
  rw [factors_product, List.mapM_append]
  rcases h with hleft | ⟨hleft, hright⟩
  · exact hleft.bind _
  · exact hleft.bind_fails fun _ => hright.bind _

theorem fails_sum (h : Fails (left.reassociating recording) fault ∨
      (Rewritable recording left ∧ Fails (right.reassociating recording) fault)) :
    Fails ((sum id left right shape).reassociating recording) fault := by
  rw [reassociating_sum]
  rcases h with hleft | ⟨hleft, hright⟩
  · exact hleft.bind _
  · exact hleft.bind_fails fun _ => hright.bind _

end Node

/-- The operands before the first node of an unknown class are rewritten, and then rewriting fails with that node. The
same goes for the operands of the run. -/
theorem fails_reassociating {e : Expr α} (h : Constructed e) {node : Foreign} (first : e.firstUnknown? = some node) :
    Fails (e.reassociating recording) (.unknownNode .rearranging node) ∧
      Fails (e.factors.mapM (reassociating recording)) (.unknownNode .rearranging node) := by
  induction h with
  | foreign node' =>
    obtain rfl := Option.some.inj first
    exact ⟨fails_foreign recording node', fails_mapM_singleton recording (fails_foreign recording node')⟩
  | leaf made =>
    cases made
    cases first
  | @multiply left right _ next _ hl hr made ihl ihr =>
    obtain ⟨_, rfl⟩ := multiply_run_eq_ok made
    rw [firstUnknown?_product, Option.or_eq_some_iff] at first
    have hrun := fails_factors_product next (left.shape.times right.shape)
      (first.imp (fun hfirst => (ihl hfirst).2) fun ⟨hknown, hfirst⟩ =>
        ⟨(yields_reassociating recording (hl.built (firstUnknown?_eq_none_iff.1 hknown))).2, (ihr hfirst).2⟩)
    rw [reassociating_product]
    exact ⟨hrun.bind _, hrun⟩
  | @add left right _ next _ hl hr made ihl ihr =>
    obtain ⟨_, rfl⟩ := add_run_eq_ok made
    rw [firstUnknown?_sum, Option.or_eq_some_iff] at first
    have hsum := fails_sum next left.shape
      (first.imp (fun hfirst => (ihl hfirst).1) fun ⟨hknown, hfirst⟩ =>
        ⟨(yields_reassociating recording (hl.built (firstUnknown?_eq_none_iff.1 hknown))).1, (ihr hfirst).1⟩)
    exact ⟨hsum, fails_mapM_singleton recording hsum⟩

theorem Constructed.reassociate_eq_error {e : Expr α} (h : Constructed e) {node : Foreign}
    (first : e.firstUnknown? = some node) (next : NodeId) :
    e.reassociate.run next = .error (.unknownNode .rearranging node) ∧
      e.reassociateRecorded.run next = .error (.unknownNode .rearranging node) := by
  constructor
  · rw [reassociate, StateT.run_bind, (fails_reassociating false h first).1]
    rfl
  · rw [reassociateRecorded, StateT.run_bind, (fails_reassociating true h first).1]
    rfl

theorem Built.reassociate_eq_ok {e : Expr α} (h : Built e) (next : NodeId) :
    (∃ r next', e.reassociate.run next = .ok (r, next')) ∧
      ∃ r next', e.reassociateRecorded.run next = .ok (r, next') := by
  obtain ⟨r, made, hrecorded, hrun, _⟩ := h.reassociate_spec next
  exact ⟨⟨r, _, hrun⟩, _, _, hrecorded⟩

end Reassociation

end Expr

/-- A session that nodes of unknown classes may enter: the identity that comes next and the nodes at hand. -/
inductive MixedSession : NodeId → List (Expr α) → Prop where
  | start (next : NodeId) : MixedSession next []
  | enter {next : NodeId} {nodes : List (Expr α)} {node : Foreign} (before : MixedSession next nodes)
      (id : node.id = next) : MixedSession (next + 1) (.foreign node :: nodes)
  | leaf {next next' : NodeId} {nodes : List (Expr α)} {matrix : DenseMatrix α} {label : Option String} {e : Expr α}
      (before : MixedSession next nodes) (made : (makeLeaf matrix label).run next = .ok (e, next')) :
      MixedSession next' (e :: nodes)
  | multiply {next next' : NodeId} {nodes : List (Expr α)} {left right e : Expr α} (before : MixedSession next nodes)
      (hl : left ∈ nodes) (hr : right ∈ nodes) (made : (multiply left right).run next = .ok (e, next')) :
      MixedSession next' (e :: nodes)
  | add {next next' : NodeId} {nodes : List (Expr α)} {left right e : Expr α} (before : MixedSession next nodes)
      (hl : left ∈ nodes) (hr : right ∈ nodes) (made : (add left right).run next = .ok (e, next')) :
      MixedSession next' (e :: nodes)

namespace MixedSession

variable {next : NodeId} {nodes : List (Expr α)}

theorem constructed (session : MixedSession next nodes) : ∀ e ∈ nodes, Constructed e := by
  induction session with
  | start => exact List.forall_mem_nil _
  | enter _ _ ih => exact List.forall_mem_cons.2 ⟨.foreign _, ih⟩
  | leaf _ made ih => exact List.forall_mem_cons.2 ⟨.leaf made, ih⟩
  | multiply _ hl hr made ih => exact List.forall_mem_cons.2 ⟨.multiply (ih _ hl) (ih _ hr) made, ih⟩
  | add _ hl hr made ih => exact List.forall_mem_cons.2 ⟨.add (ih _ hl) (ih _ hr) made, ih⟩

/-- Every node has an identity of its own. -/
theorem registered (session : MixedSession next nodes) : Session.Registered next (nodes.flatMap postorder) := by
  have hpair : ∀ {next : NodeId} {nodes : List (Expr α)} {left right e : Expr α}, left ∈ nodes → right ∈ nodes →
      e.children = [left, right] → e.id = next → Session.Registered next (nodes.flatMap postorder) →
      Session.Registered (next + 1) ((e :: nodes).flatMap postorder) := by
    intro next nodes left right e hl hr hchildren hid h
    have hids : [e].map Expr.id = List.range' next 1 := congrArg (fun id => [id]) hid
    exact h.cons hids
      (composedOf_pair hchildren (Session.composedOf_of_mem hl) (Session.composedOf_of_mem hr))
  induction session with
  | start => exact ⟨List.forall_mem_nil _, List.forall_mem_nil _⟩
  | @enter next nodes node _ hid ih =>
    have hids : [(.foreign node : Expr α)].map Expr.id = List.range' next 1 := congrArg (fun id => [id]) hid
    exact ih.cons hids fun _ hn => Or.inl hn
  | @leaf next _ nodes matrix label _ _ made ih =>
    cases made
    have hids : [Expr.leaf next matrix label].map Expr.id = List.range' next 1 := rfl
    exact ih.cons hids fun _ hn => Or.inl hn
  | @multiply next next' nodes left right e _ hl hr made ih =>
    obtain ⟨hinner, rfl⟩ := multiply_run_eq_ok made
    cases (multiply_run hinner next).symm.trans made
    exact hpair hl hr rfl rfl ih
  | @add next next' nodes left right e _ hl hr made ih =>
    obtain ⟨hshapes, rfl⟩ := add_run_eq_ok made
    cases (add_run hshapes next).symm.trans made
    exact hpair hl hr rfl rfl ih

theorem identified (session : MixedSession next nodes) {e : Expr α} (he : e ∈ nodes) : Identified e.postorder := by
  have hsubset : e.postorder ⊆ nodes.flatMap postorder := fun n hn => List.mem_flatMap.2 ⟨e, he, hn⟩
  exact session.registered.identified.of_subset hsubset

variable [Zero α] [Add α] [Mul α]

end MixedSession

def view (id : NodeId) (shape : Shape) : Foreign :=
  ⟨id, "View", "views", shape, "V"⟩

def cubeOfTwo : Expr Int :=
  product 4 (product 3 (twos 0) (twos 0) ⟨1, 1⟩) (twos 0) ⟨1, 1⟩

/-- Two views that have a negative side in common. -/
def viewProduct : Expr Int :=
  product 5 (.foreign (view 1 ⟨1, -2⟩)) (.foreign (view 2 ⟨-2, 1⟩)) ⟨1, 1⟩

def viewedSum : Expr Int :=
  sum 6 cubeOfTwo viewProduct ⟨1, 1⟩

theorem session_viewedSum : ∃ nodes, MixedSession 7 (viewedSum :: nodes) ∧ cubeOfTwo ∈ nodes := by
  have hviews : MixedSession 3 [.foreign (view 2 ⟨-2, 1⟩), .foreign (view 1 ⟨1, -2⟩), twos 0] :=
    .enter (.enter (.leaf (.start 0) rfl) rfl) rfl
  generalize hthere : [.foreign (view 2 ⟨-2, 1⟩), .foreign (view 1 ⟨1, -2⟩), twos 0] = there at hviews
  obtain ⟨htwo, hleft, hright⟩ : twos 0 ∈ there ∧ .foreign (view 1 ⟨1, -2⟩) ∈ there ∧
      .foreign (view 2 ⟨-2, 1⟩) ∈ there := by simp [← hthere]
  have hsquare : MixedSession 4 (product 3 (twos 0) (twos 0) ⟨1, 1⟩ :: there) := .multiply hviews htwo htwo rfl
  have hcube : MixedSession 5 (cubeOfTwo :: _) :=
    .multiply hsquare List.mem_cons_self (List.mem_cons_of_mem _ htwo) rfl
  have hproduct : MixedSession 6 (viewProduct :: _) :=
    .multiply hcube (List.mem_append_right [_, _] hleft) (List.mem_append_right [_, _] hright) rfl
  exact ⟨_, .add hproduct (List.mem_cons_of_mem _ List.mem_cons_self) List.mem_cons_self rfl, by simp⟩

end MatrixChain
