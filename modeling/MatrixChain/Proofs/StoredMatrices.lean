import MatrixChain.Proofs.FirstFault
import MatrixChain.Proofs.ShapeInvariant

/-!
# Matrices stored afterwards

A tree keeps its nodes, identities and declared shapes when other matrices are stored in its leaves. What the checks of
the operands then find is a matter of shapes: those that the stored matrices have, and those that the nodes declare.
-/

namespace MatrixChain
namespace Expr

variable {α : Type}

section Replacement

variable (stored : NodeId → Option (DenseMatrix α))

@[simp] theorem id_withMatrices (e : Expr α) : (e.withMatrices stored).id = e.id := by
  cases e <;> rfl

theorem postorder_withMatrices (e : Expr α) :
    (e.withMatrices stored).postorder = e.postorder.map (withMatrices stored) := by
  induction e with
  | product id left right shape ihl ihr => simp [withMatrices, ihl, ihr]
  | sum id left right shape ihl ihr => simp [withMatrices, ihl, ihr]
  | _ => rfl

variable {stored}

theorem Identified.withMatrices {nodes : List (Expr α)} (h : Identified nodes) :
    Identified (nodes.map (Expr.withMatrices stored)) := by
  intro n hn n' hn' hid
  obtain ⟨m, hm, rfl⟩ := List.mem_map.1 hn
  obtain ⟨m', hm', rfl⟩ := List.mem_map.1 hn'
  rw [id_withMatrices, id_withMatrices] at hid
  rw [h m hm m' hm' hid]

theorem Known.withMatrices {e : Expr α} (h : e.Known) : (e.withMatrices stored).Known := by
  induction e with
  | leaf => trivial
  | product id left right shape ihl ihr => exact ⟨ihl h.1, ihr h.2⟩
  | sum id left right shape ihl ihr => exact ⟨ihl h.1, ihr h.2⟩
  | foreign => exact h

end Replacement

/-- The shape that a tree has by the matrices in its leaves, whatever its nodes declare. -/
def realizedShape : Expr α → Shape
  | product _ left right _ => left.realizedShape.times right.realizedShape
  | sum _ left _ _ => left.realizedShape
  | e => e.shape

/-- What is wrong with the shapes of two operands: they do not agree with each other, or else what they give is not
declared. -/
def mismatchOf? (operation : String) (agree : Prop) [Decidable agree] (left right given declared : Shape) :
    Option ShapeMismatch :=
  if agree then if given = declared then none else some ⟨operation, left, right, some declared⟩
  else some ⟨operation, left, right, none⟩

def productMismatch? (declared left right : Shape) : Option ShapeMismatch :=
  mismatchOf? "multiply" (left.cols = right.rows) left right (left.times right) declared

def sumMismatch? (declared left right : Shape) : Option ShapeMismatch :=
  mismatchOf? "add" (left = right) left right left declared

def mismatch? : Expr α → Option ShapeMismatch
  | product _ left right declared => productMismatch? declared left.realizedShape right.realizedShape
  | sum _ left right declared => sumMismatch? declared left.realizedShape right.realizedShape
  | _ => none

/-- The matrices of the operands agree with each other, and give the shape that the node declares. -/
def Consistent : Expr α → Prop
  | leaf .. => True
  | product _ left right declared =>
    left.realizedShape.cols = right.realizedShape.rows ∧
      (⟨left.realizedShape.rows, right.realizedShape.cols⟩ : Shape) = declared
  | sum _ left right declared => left.realizedShape = right.realizedShape ∧ left.realizedShape = declared
  | foreign _ => False

theorem mismatchOf?_eq_none_iff {operation : String} {agree : Prop} [Decidable agree]
    {left right given declared : Shape} :
    mismatchOf? operation agree left right given declared = none ↔ agree ∧ given = declared := by
  unfold mismatchOf?
  split
  · split <;> simp_all
  · simp_all

theorem mismatch?_eq_none_iff {n : Expr α} (h : n.Known) : n.mismatch? = none ↔ n.Consistent := by
  cases n with
  | leaf => simp [mismatch?, Consistent]
  | product id left right declared => exact mismatchOf?_eq_none_iff
  | sum id left right declared => exact mismatchOf?_eq_none_iff
  | foreign => exact h.elim

theorem Consistent.realizedShape_eq {n : Expr α} (h : n.Consistent) : n.realizedShape = n.shape := by
  cases n with
  | leaf => rfl
  | product id left right declared => exact h.2
  | sum id left right declared => exact h.2
  | foreign => rfl

section Checks

/-- Nothing is wrong and there is a matrix of the shape, or the fault is what is wrong. -/
def Checks (x : Except Fault (DenseMatrix α)) (shape : Shape) : Option ShapeMismatch → Prop
  | none => ∃ a, x = .ok a ∧ a.shape = shape
  | some mismatch => x = .error (.shapeMismatch mismatch)

theorem checks_realizeProduct [Zero α] [Add α] [Mul α] (declared : Shape) (a b : DenseMatrix α) :
    Checks (realizeProduct declared a b) (a.shape.times b.shape) (productMismatch? declared a.shape b.shape) := by
  unfold realizeProduct productMismatch? mismatchOf?
  by_cases inner : a.cols = b.rows
  · have hagree : a.shape.cols = b.shape.rows := congrArg Int.ofNat inner
    rw [dif_pos inner, if_pos hagree]
    split
    · exact ⟨a.mul b inner, rfl, DenseMatrix.mul_shape a b inner⟩
    · rfl
  · have hdiffer : ¬ a.shape.cols = b.shape.rows := fun h => inner (Int.ofNat.inj h)
    rw [dif_neg inner, if_neg hdiffer]
    rfl

theorem checks_realizeSum [Add α] (declared : Shape) (a b : DenseMatrix α) :
    Checks (realizeSum declared a b) a.shape (sumMismatch? declared a.shape b.shape) := by
  unfold realizeSum sumMismatch? mismatchOf?
  by_cases sides : a.rows = b.rows ∧ a.cols = b.cols
  · have hagree : a.shape = b.shape := by simp [DenseMatrix.shape, sides]
    rw [dif_pos sides, if_pos hagree]
    split
    · exact ⟨a.add b sides.1 sides.2, rfl, DenseMatrix.add_shape a b sides.1 sides.2⟩
    · rfl
  · have hdiffer : ¬ a.shape = b.shape := by simpa [DenseMatrix.shape] using sides
    rw [dif_neg sides, if_neg hdiffer]
    rfl

theorem Checks.pair {x y : Except Fault (DenseMatrix α)} {left right shape : Shape}
    {check : DenseMatrix α → DenseMatrix α → Except Fault (DenseMatrix α)}
    {ofLeft? ofRight? ofBoth? : Option ShapeMismatch} (hx : Checks x left ofLeft?) (hy : Checks y right ofRight?)
    (hcheck : ∀ a b, a.shape = left → b.shape = right → Checks (check a b) shape ofBoth?) :
    Checks (do check (← x) (← y)) shape (ofLeft?.or (ofRight?.or ofBoth?)) := by
  cases ofLeft? with
  | some mismatch => rw [hx]; rfl
  | none =>
    obtain ⟨a, rfl, ha⟩ := hx
    cases ofRight? with
    | some mismatch => rw [hy]; rfl
    | none =>
      obtain ⟨b, rfl, hb⟩ := hy
      exact hcheck a b ha hb

theorem Checks.ok_iff {x : Except Fault (DenseMatrix α)} {shape : Shape} {mismatch? : Option ShapeMismatch}
    (h : Checks x shape mismatch?) : (∃ a, x = .ok a) ↔ mismatch? = none := by
  cases mismatch? with
  | none => exact iff_of_true (h.imp fun _ ha => ha.1) rfl
  | some mismatch =>
    obtain rfl : x = .error (.shapeMismatch mismatch) := h
    simp

theorem Checks.error_iff {x : Except Fault (DenseMatrix α)} {shape : Shape} {mismatch? : Option ShapeMismatch}
    (h : Checks x shape mismatch?) {fault : Fault} :
    x = .error fault ↔ ∃ mismatch, mismatch? = some mismatch ∧ fault = .shapeMismatch mismatch := by
  cases mismatch? with
  | none =>
    obtain ⟨a, rfl, _⟩ := h
    simp
  | some mismatch =>
    obtain rfl : x = .error (.shapeMismatch mismatch) := h
    simp [eq_comm]

variable [Zero α] [Add α] [Mul α]

/-- Evaluation in order comes upon the first mismatch in post-order, or upon a matrix of the realized shape. -/
theorem Known.checks_evaluateInOrder {e : Expr α} (h : e.Known) :
    Checks e.evaluateInOrder e.realizedShape (e.postorder.findSome? mismatch?) := by
  unfold evaluateInOrder
  induction e with
  | leaf id matrix label => exact ⟨matrix, foldChildren_leaf realize id matrix label, rfl⟩
  | product id left right declared ihl ihr =>
    rw [foldChildren_product, postorder_product, List.findSome?_append, List.findSome?_append, Option.or_assoc,
      List.findSome?_singleton]
    refine (ihl h.1).pair (ihr h.2) fun a b ha hb => ?_
    rw [realizedShape, mismatch?, ← ha, ← hb]
    exact checks_realizeProduct declared a b
  | sum id left right declared ihl ihr =>
    rw [foldChildren_sum, postorder_sum, List.findSome?_append, List.findSome?_append, Option.or_assoc,
      List.findSome?_singleton]
    refine (ihl h.1).pair (ihr h.2) fun a b ha hb => ?_
    rw [realizedShape, mismatch?, ← ha, ← hb]
    exact checks_realizeSum declared a b
  | foreign => exact h.elim

end Checks

section Reported

variable {e : Expr α}

theorem Known.findSome?_mismatch?_eq_none_iff (h : e.Known) :
    e.postorder.findSome? mismatch? = none ↔ ∀ n ∈ e.postorder, n.Consistent := by
  rw [List.findSome?_eq_none_iff]
  exact forall₂_congr fun n hn => mismatch?_eq_none_iff (h.of_mem_postorder hn)

variable [Zero α] [Add α] [Mul α]

theorem Known.evaluateInOrder_eq_ok (h : e.Known) (consistent : ∀ n ∈ e.postorder, n.Consistent) :
    ∃ a, e.evaluateInOrder = .ok a ∧ a.shape = e.shape := by
  have hchecks := h.checks_evaluateInOrder
  rw [h.findSome?_mismatch?_eq_none_iff.2 consistent,
    (consistent e e.mem_postorder_self).realizedShape_eq] at hchecks
  exact hchecks

/-- The node of the first mismatch comes after consistent nodes only, and so its operands have matrices. -/
theorem Known.findSome?_mismatch?_eq_some_iff (h : e.Known) {mismatch : ShapeMismatch} :
    e.postorder.findSome? mismatch? = some mismatch ↔
      ∃ before n after, e.postorder = before ++ n :: after ∧ n.mismatch? = some mismatch ∧
        (∀ m ∈ before, m.Consistent) ∧ ∀ c ∈ n.children, ∃ a, c.evaluateInOrder = .ok a ∧ a.shape = c.realizedShape := by
  rw [List.findSome?_eq_some_iff]
  constructor
  · rintro ⟨before, n, after, hsplit, hn, hbefore⟩
    have hconsistent : ∀ m ∈ before, m.Consistent := fun m hm =>
      (mismatch?_eq_none_iff (h.of_mem_postorder (by simp [hsplit, hm]))).1 (hbefore m hm)
    obtain ⟨hfirst, hoperands⟩ := (hsplit ▸ operandsFirst_postorder e).split
    refine ⟨before, n, after, hsplit, hn, hconsistent, fun c hc => ?_⟩
    have hc := hoperands hc
    have hknown : c.Known := h.of_mem_postorder (by simp [hsplit, hc])
    rw [(hconsistent c hc).realizedShape_eq]
    exact hknown.evaluateInOrder_eq_ok fun m hm => hconsistent m (hfirst.postorder_subset c hc hm)
  · rintro ⟨before, n, after, hsplit, hn, hbefore, _⟩
    refine ⟨before, n, after, hsplit, hn, fun m hm => ?_⟩
    exact (mismatch?_eq_none_iff (h.of_mem_postorder (by simp [hsplit, hm]))).2 (hbefore m hm)

/-- Whatever matrices are stored in the leaves of a built expression, evaluation in order succeeds exactly if the
operands of every node agree and give the shape that the node declares. Then the matrix of every node has that shape,
and else the first mismatch in post-order is reported, with the shapes that the matrices of the operands have. -/
theorem Built.evaluate_rechecks (h : Built e) (stored : NodeId → Option (DenseMatrix α)) (workers : Option Int) :
    ((∃ a, (e.withMatrices stored).evaluate .sequential workers = .ok a) ↔
      ∀ n ∈ (e.withMatrices stored).postorder, n.Consistent) ∧
    (∀ a, (e.withMatrices stored).evaluate .sequential workers = .ok a →
      ∃ notes, ((e.withMatrices stored).foldChildren (noting realize)).run [] = .ok (a, notes) ∧
        notes.map Prod.fst = (e.withMatrices stored).postorder ∧ ∀ note ∈ notes, note.2.shape = note.1.shape) ∧
    ∀ fault, (e.withMatrices stored).evaluate .sequential workers = .error fault ↔
      ∃ mismatch before n after, fault = .shapeMismatch mismatch ∧
        (e.withMatrices stored).postorder = before ++ n :: after ∧ n.mismatch? = some mismatch ∧
        (∀ m ∈ before, m.Consistent) ∧ ∀ c ∈ n.children, ∃ a, c.evaluateInOrder = .ok a ∧ a.shape = c.realizedShape := by
  have hknown : (e.withMatrices stored).Known := h.known.withMatrices
  generalize e.withMatrices stored = e' at hknown
  have hiff : (∃ a, e'.evaluateInOrder = .ok a) ↔ ∀ n ∈ e'.postorder, n.Consistent :=
    hknown.checks_evaluateInOrder.ok_iff.trans hknown.findSome?_mismatch?_eq_none_iff
  refine ⟨hiff, fun a ha => ?_, fun fault => ?_⟩
  · have hconsistent := hiff.1 ⟨a, ha⟩
    have hvalues : ∀ n ∈ e'.postorder, ∃ b, n.evaluateInOrder = .ok b ∧ b.shape = n.shape := fun n hn =>
      (hknown.of_mem_postorder hn).evaluateInOrder_eq_ok fun m hm => hconsistent m (postorder_subset hn hm)
    obtain ⟨a', notes, hrun, ha', hnodes, hnotes⟩ := noted_of_ok (fun n hn => (hvalues n hn).imp fun _ hb => hb.1) []
    obtain rfl : a = a' := Except.ok.inj (ha.symm.trans ha')
    refine ⟨notes, hrun, hnodes, fun note hnote => ?_⟩
    have hnode : note.1 ∈ e'.postorder := hnodes ▸ List.mem_map_of_mem hnote
    obtain ⟨b, hb, hshape⟩ := hvalues note.1 hnode
    obtain rfl : note.2 = b := Except.ok.inj ((hnotes note hnote).symm.trans hb)
    exact hshape
  · refine hknown.checks_evaluateInOrder.error_iff.trans (exists_congr fun mismatch => ?_)
    rw [hknown.findSome?_mismatch?_eq_some_iff]
    tauto

end Reported

def storedOuter (column row : DenseMatrix Int) (id : NodeId) : Option (DenseMatrix Int) :=
  match id with
  | 0 => some column
  | 1 => some row
  | _ => none

/-- Inner sides that change alike are no mismatch. An outer side that changes is one, for the product next to it. -/
theorem Built.evaluate_rechecks_of_outerTimesColumn :
    Built outerTimesColumn ∧
    (∃ a, (outerTimesColumn.withMatrices
      (storedOuter (.ofFn 3 2 fun i _ => i.val) (.ofFn 2 3 fun _ j => j.val))).evaluate .sequential none = .ok a) ∧
    (outerTimesColumn.withMatrices
      (storedOuter (.ofFn 2 1 fun i _ => i.val) (.ofFn 1 3 fun _ j => j.val))).evaluate .sequential none =
        .error (.shapeMismatch ⟨"multiply", ⟨2, 1⟩, ⟨1, 3⟩, some ⟨3, 3⟩⟩) := by
  have hbuilt := session_outerTimesColumn.built List.mem_cons_self
  obtain ⟨hreturns, _, _⟩ :=
    hbuilt.evaluate_rechecks (storedOuter (.ofFn 3 2 fun i _ => i.val) (.ofFn 2 3 fun _ j => j.val)) none
  obtain ⟨_, _, hraises⟩ :=
    hbuilt.evaluate_rechecks (storedOuter (.ofFn 2 1 fun i _ => i.val) (.ofFn 1 3 fun _ j => j.val)) none
  refine ⟨hbuilt, hreturns.2 ?_, (hraises _).2 ⟨_, [_, _], _, [_, _], rfl, rfl, rfl, ?_, ?_⟩⟩
  · simp [outerTimesColumn, outerProduct, threeByOne, oneByThree, withMatrices, storedOuter, Consistent, realizedShape,
      Shape.times, Expr.shape, DenseMatrix.shape]
  · exact List.forall_mem_cons.2 ⟨trivial, List.forall_mem_singleton.2 trivial⟩
  · refine List.forall_mem_cons.2 ⟨⟨_, foldChildren_leaf .., rfl⟩, ?_⟩
    exact List.forall_mem_singleton.2 ⟨_, foldChildren_leaf .., rfl⟩

end Expr
end MatrixChain
