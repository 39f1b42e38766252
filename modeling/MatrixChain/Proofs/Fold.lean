import MatrixChain.Fold

/-!
# Folds as recursion

The loop on two stacks is the structural recursion that it stands for, effect by effect: a node asks for its
operands, each operand is folded in turn, and the node combines their values. What waits on either stack has no
say in what becomes of the task on top.
-/

namespace MatrixChain
namespace Fold

variable {α β : Type} {r : α → α → Prop} {m : Type → Type} [Monad m]

def each : (items : List α) → ((item : α) → item ∈ items → m β) →
    m { values : List β // values.length = items.length }
  | [], _ => pure ⟨[], rfl⟩
  | item :: items, f => do
    let value ← f item List.mem_cons_self
    let values ← each items fun item h => f item (List.mem_cons_of_mem _ h)
    pure ⟨value :: values.1, congrArg (· + 1) values.2⟩

theorem each_bind_eq_mapM_attach [LawfulMonad m] {γ : Type} (items : List α)
    (f : (item : α) → item ∈ items → m β) (k : List β → m γ) :
    (each items f >>= fun values => k values.1) = items.attach.mapM (fun item => f item.1 item.2) >>= k := by
  induction items generalizing k with
  | nil => simp [each]
  | cons item items ih =>
    simp only [each, List.attach_cons, List.mapM_cons, List.mapM_map, bind_assoc, pure_bind]
    refine congrArg (f item _ >>= ·) (funext fun value => ?_)
    exact ih (fun item h => f item (List.mem_cons_of_mem _ h)) fun values => k (value :: values)

theorem each_bind_eq_mapM [LawfulMonad m] {γ : Type} (items : List α) (f : α → m β) (k : List β → m γ) :
    (each items fun item _ => f item) >>= (fun values => k values.1) = items.mapM f >>= k := by
  have hattach : items.attach.mapM (fun item => f item.1) = items.mapM f := by
    change items.attach.mapM (f ∘ Subtype.val) = _
    rw [← List.mapM_map, List.attach_map_subtype_val]
  rw [each_bind_eq_mapM_attach, hattach]

theorem settles_join {arity : Nat} {node : α} {rest : List (Task α)} {done values : List β}
    (length : done.length = arity)
    (settles : Settles (.join node arity :: rest) (done.reverse ++ values).length) (value : β) :
    Settles rest (value :: values).length := by
  subst length
  have h := settles.2
  simp only [List.length_append, List.length_reverse, Nat.add_sub_cancel_left] at h
  exact h

theorem settles_each {operands : List α} {rest : List (Task α)} {values done : List β}
    (length : done.length = operands.length)
    (settles : Settles (operands.map .visit ++ rest) values.length) :
    Settles rest (done.reverse ++ values).length := by
  have h := (settles_visits operands rest values.length).1 settles
  rw [List.length_append, List.length_reverse, length, Nat.add_comm]
  exact h

section Recursion

variable (operandsOf : (node : α) → m { operands : List α // ∀ o ∈ operands, r o node })
    (combine : α → List β → m β)

theorem run_join {arity : Nat} {done : List β} (length : done.length = arity) (node : α)
    (rest : List (Task α)) (ends : Acc (Below r) (.join node arity :: rest)) (restEnds : Acc (Below r) rest)
    (values : List β) (settles : Settles (.join node arity :: rest) (done.reverse ++ values).length) :
    run operandsOf combine (.join node arity :: rest) ends (done.reverse ++ values) settles =
      combine node done >>= fun value =>
        run operandsOf combine rest restEnds (value :: values) (settles_join length settles value) := by
  have htake : (done.reverse ++ values).take arity = done.reverse := List.take_left' (by simpa using length)
  have hdrop : (done.reverse ++ values).drop arity = values := List.drop_left' (by simpa using length)
  rw [run]
  simp only [htake, hdrop, List.reverse_reverse]

/-- The visit of `node` comes to the value that `whole` answers, whatever waits on the stacks. -/
def Framed (node : α) (whole : m β) : Prop :=
  ∀ (rest : List (Task α)) (ends : Acc (Below r) (.visit node :: rest)) (restEnds : Acc (Below r) rest)
    (values : List β) (settles : Settles (.visit node :: rest) values.length),
    run operandsOf combine (.visit node :: rest) ends values settles =
      whole >>= fun value =>
        run operandsOf combine rest restEnds (value :: values) (settles_visited settles value)

variable [LawfulMonad m]

theorem run_visits {operands : List α} {whole : (o : α) → o ∈ operands → m β}
    (framed : ∀ o h, Framed operandsOf combine o (whole o h)) (acc : ∀ o ∈ operands, Acc r o)
    (rest : List (Task α)) (ends : Acc (Below r) (operands.map .visit ++ rest)) (restEnds : Acc (Below r) rest)
    (values : List β) (settles : Settles (operands.map .visit ++ rest) values.length) :
    run operandsOf combine (operands.map .visit ++ rest) ends values settles =
      each operands whole >>= fun done =>
        run operandsOf combine rest restEnds (done.1.reverse ++ values) (settles_each done.2 settles) := by
  induction operands generalizing values with
  | nil => simp [each]
  | cons o os ih =>
    have tailEnds : Acc (Below r) (os.map Task.visit ++ rest) :=
      acc_visits restEnds fun o h => acc_visit (acc o (List.mem_cons_of_mem _ h))
    have first := framed o List.mem_cons_self (os.map Task.visit ++ rest) ends tailEnds values settles
    simp only [each, bind_assoc, pure_bind]
    refine first.trans (congrArg (whole o _ >>= ·) (funext fun value => ?_))
    rw [ih (fun o h => framed o (List.mem_cons_of_mem _ h)) (fun o h => acc o (List.mem_cons_of_mem _ h)) tailEnds]
    simp only [List.reverse_cons, List.append_assoc, List.singleton_append]

theorem framed_of_operands {node : α} (acc : ∀ o, r o node → Acc r o) {whole : (o : α) → r o node → m β}
    (framed : ∀ o h, Framed operandsOf combine o (whole o h)) :
    Framed operandsOf combine node (do
      let operands ← operandsOf node
      let values ← each operands.1 fun o h => whole o (operands.2 o h)
      combine node values.1) := by
  intro rest ends restEnds values settles
  rw [run, bind_assoc]
  refine congrArg (operandsOf node >>= ·) (funext fun operands => ?_)
  obtain ⟨operands, smaller⟩ := operands
  simp only
  rw [run_visits operandsOf combine (fun o h => framed o (smaller o h)) (fun o h => acc o (smaller o h)) _ _
    (acc_join _ _ restEnds), bind_assoc]
  refine congrArg (each operands _ >>= ·) (funext fun values => ?_)
  obtain ⟨done, length⟩ := values
  rw [run_join operandsOf combine length]

theorem fold_eq_of_framed {node : α} (acc : Acc r node) {whole : m β}
    (framed : Framed operandsOf combine node whole) : fold operandsOf combine node acc = whole := by
  unfold fold
  rw [framed [] _ acc_nil [] (settles_root node)]
  simp only [run, List.head_cons, bind_pure]

theorem framed_fold {node : α} (acc : Acc r node) :
    Framed operandsOf combine node (fold operandsOf combine node acc) := by
  induction acc with
  | intro node below ih =>
    have h := framed_of_operands operandsOf combine below ih
    rw [fold_eq_of_framed operandsOf combine _ h]
    exact h

/-- A fold is the recursion along the operand relation. -/
theorem fold_eq (root : α) (acc : Acc r root) :
    fold operandsOf combine root acc = (do
      let operands ← operandsOf root
      let values ← each operands.1 fun o h => fold operandsOf combine o (acc.inv (operands.2 o h))
      combine root values.1) :=
  fold_eq_of_framed operandsOf combine acc
    (framed_of_operands operandsOf combine (fun _ h => acc.inv h) fun _ h =>
      framed_fold operandsOf combine (acc.inv h))

/-- The recursion along the operand relation: the operands of a node, their values in turn, what these combine to. -/
def Recurses (whole : (node : α) → Acc r node → m β) : Prop :=
  ∀ node acc, whole node acc = do
    let operands ← operandsOf node
    let values ← operands.1.attach.mapM fun o => whole o.1 (acc.inv (operands.2 o.1 o.2))
    combine node values

theorem recurses_fold : Recurses operandsOf combine (fold operandsOf combine) := by
  intro node acc
  rw [fold_eq]
  refine congrArg (operandsOf node >>= ·) (funext fun operands => ?_)
  exact each_bind_eq_mapM_attach operands.1 (fun o h => fold operandsOf combine o (acc.inv (operands.2 o h)))
    (combine node)

variable {operandsOf combine} in
theorem Recurses.eq_fold {whole : (node : α) → Acc r node → m β} (h : Recurses operandsOf combine whole) (root : α)
    (acc : Acc r root) : whole root acc = fold operandsOf combine root acc := by
  induction acc with
  | intro node below ih =>
    rw [h, recurses_fold]
    refine congrArg (operandsOf node >>= ·) (funext fun operands => ?_)
    have hvalues : (fun o : { o // o ∈ operands.1 } => whole o.1 (below o.1 (operands.2 o.1 o.2))) =
        fun o => fold operandsOf combine o.1 (below o.1 (operands.2 o.1 o.2)) :=
      funext fun o => ih o.1 (operands.2 o.1 o.2)
    exact congrArg (fun value => operands.1.attach.mapM value >>= combine node) hvalues

/-- Where every node has an end below it, the recursion maps over the operands. -/
theorem fold_eq_mapM (acc : ∀ node, Acc r node) (root : α) :
    fold operandsOf combine root (acc root) = (do
      let operands ← operandsOf root
      let values ← operands.1.mapM fun o => fold operandsOf combine o (acc o)
      combine root values) := by
  rw [fold_eq]
  refine congrArg (operandsOf root >>= ·) (funext fun operands => ?_)
  exact each_bind_eq_mapM operands.1 (fun o => fold operandsOf combine o (acc o)) (combine root)

end Recursion

end Fold
end MatrixChain
