import MatrixChain.Proofs.Pool

/-!
# The first fault

Nodes that are folded one by one, operands before the nodes that need them, fail with the fault of the first node that
fails by itself. Post-order is such an order, and so is the order by height, in which a pool goes.
-/

namespace MatrixChain

open MatrixChain.Pool

namespace Expr

variable {α β : Type} (combine : Expr α → List β → Except Fault β)

def faultOf? : Except Fault β → Option Fault
  | .error fault => some fault
  | .ok _ => none

theorem discard_eq (x : Except Fault β) : discard x = (faultOf? x).elim (.ok ()) .error := by
  cases x <;> rfl

theorem faultOf?_eq_some_iff {x : Except Fault β} {fault : Fault} : faultOf? x = some fault ↔ x = .error fault := by
  cases x <;> simp [faultOf?]

theorem faultOf?_eq_none_iff {x : Except Fault β} : faultOf? x = none ↔ ∃ a, x = .ok a := by
  cases x <;> simp [faultOf?]

theorem faultOf?_eq_of_discard {x : Except Fault β} {fault? : Option Fault}
    (h : discard x = fault?.elim (.ok ()) .error) : faultOf? x = fault? := by
  cases x <;> cases fault? <;> cases h <;> rfl

/-- The fault of the node by itself: its operands have values, and combining these fails. -/
def ownFault? (n : Expr α) : Option Fault :=
  match n.children.mapM (foldChildren combine) with
  | .error _ => none
  | .ok values => faultOf? (combine n values)

inductive OperandsFirst : List (Expr α) → Prop where
  | nil : OperandsFirst []
  | snoc {nodes : List (Expr α)} {n : Expr α} (before : OperandsFirst nodes) (operands : n.children ⊆ nodes) :
      OperandsFirst (nodes ++ [n])

theorem OperandsFirst.append {nodes nodes' : List (Expr α)} (h : OperandsFirst nodes) (h' : OperandsFirst nodes') :
    OperandsFirst (nodes ++ nodes') := by
  induction h' with
  | nil => rwa [List.append_nil]
  | snoc _ operands ih =>
    rw [← List.append_assoc]
    exact ih.snoc fun c hc => List.mem_append_right _ (operands hc)

theorem operandsFirst_flatMap {γ : Type} {items : List γ} {nodes : γ → List (Expr α)}
    (h : ∀ item ∈ items, OperandsFirst (nodes item)) : OperandsFirst (items.flatMap nodes) := by
  induction items with
  | nil => exact .nil
  | cons item items ih =>
    exact (h item List.mem_cons_self).append (ih fun item' h' => h item' (List.mem_cons_of_mem item h'))

theorem operandsFirst_postorder (e : Expr α) : OperandsFirst e.postorder := by
  induction e using childrenInduction with
  | node e ih =>
    rw [postorder_eq]
    exact (operandsFirst_flatMap ih).snoc fun c hc => List.mem_flatMap.2 ⟨c, hc, c.mem_postorder_self⟩

/-- A list with operands first has with every node the whole tree below it. -/
theorem OperandsFirst.postorder_subset {nodes : List (Expr α)} (h : OperandsFirst nodes) :
    ∀ n ∈ nodes, n.postorder ⊆ nodes := by
  induction h with
  | nil => exact List.forall_mem_nil _
  | @snoc nodes n before operands ih =>
    intro n' hn'
    rw [List.mem_append, List.mem_singleton] at hn'
    rcases hn' with hn' | rfl
    · exact List.subset_append_of_subset_left _ (ih n' hn')
    · intro m hm
      rw [postorder_eq, List.mem_append, List.mem_flatMap] at hm
      rcases hm with ⟨c, hc, hm⟩ | hm
      · exact List.mem_append_left _ (ih c (operands hc) hm)
      · exact List.mem_append_right _ hm

theorem OperandsFirst.split {before after : List (Expr α)} {n : Expr α} (h : OperandsFirst (before ++ n :: after)) :
    OperandsFirst before ∧ n.children ⊆ before := by
  generalize hnodes : before ++ n :: after = nodes at h
  induction h generalizing after with
  | nil => simp at hnodes
  | @snoc nodes n' hbefore operands ih =>
    rcases List.eq_nil_or_concat after with rfl | ⟨after', last, rfl⟩
    · obtain ⟨rfl, hlast⟩ := List.append_inj' hnodes rfl
      cases hlast
      exact ⟨hbefore, operands⟩
    · rw [List.concat_eq_append, ← List.cons_append, ← List.append_assoc] at hnodes
      exact ih (List.append_inj' hnodes rfl).1

section FoldEach

variable {combine}

theorem exists_of_foldEach {nodes : List (Expr α)} (h : foldEach combine nodes = .ok ()) :
    ∀ n ∈ nodes, ∃ a, n.foldChildren combine = .ok a := by
  induction nodes with
  | nil => exact List.forall_mem_nil _
  | cons n nodes ih =>
    rw [foldEach, List.forM_cons] at h
    obtain ⟨_, hn, hnodes⟩ := exists_of_bind_eq_ok h
    exact List.forall_mem_cons.2 ⟨exists_of_discard hn, ih hnodes⟩

/-- A node whose operands have values fails by itself or not at all. -/
theorem discard_foldChildren_eq {n : Expr α} (h : ∀ c ∈ n.children, ∃ a, c.foldChildren combine = .ok a) :
    discard (n.foldChildren combine) = (ownFault? combine n).elim (.ok ()) .error := by
  obtain ⟨values, hvalues⟩ := exists_mapM_iff.2 h
  rw [foldChildren_eq, ownFault?, hvalues]
  exact discard_eq (combine n values)

/-- Folding nodes one by one fails with the fault of the first of them that fails by itself. -/
theorem foldEach_eq (combine : Expr α → List β → Except Fault β) {nodes : List (Expr α)} (h : OperandsFirst nodes) :
    foldEach combine nodes = (nodes.findSome? (ownFault? combine)).elim (.ok ()) .error := by
  induction h with
  | nil => rfl
  | @snoc nodes n before operands ih =>
    have hsplit : foldEach combine (nodes ++ [n]) =
        foldEach combine nodes >>= fun _ => discard (n.foldChildren combine) := by
      simp [foldEach]
    rw [hsplit, List.findSome?_append]
    cases hfirst : nodes.findSome? (ownFault? combine) with
    | some fault =>
      rw [hfirst] at ih
      rw [ih]
      rfl
    | none =>
      rw [hfirst] at ih
      have hoperands : ∀ c ∈ n.children, ∃ a, c.foldChildren combine = .ok a :=
        fun c hc => exists_of_foldEach ih c (operands hc)
      rw [ih, Option.none_or, List.findSome?_singleton, ← discard_foldChildren_eq hoperands]
      rfl

theorem foldEach_postorder (e : Expr α) : foldEach combine e.postorder = discard (e.foldChildren combine) := by
  induction e using childrenInduction with
  | node e ih =>
    have hoperands : ∀ operands : List (Expr α), operands ⊆ e.children →
        foldEach combine (operands.flatMap postorder) = discard (operands.mapM (foldChildren combine)) := by
      intro operands hsubset
      induction operands with
      | nil => rfl
      | cons o operands ihs =>
        have ho := ih o (hsubset List.mem_cons_self)
        have hrest := ihs fun c hc => hsubset (List.mem_cons_of_mem o hc)
        rw [foldEach] at ho hrest ⊢
        rw [List.flatMap_cons, List.forM_append, ho, hrest, List.mapM_cons]
        cases o.foldChildren combine with
        | error fault => rfl
        | ok a => cases operands.mapM (foldChildren combine) <;> rfl
    have hchildren := hoperands e.children (List.Subset.refl _)
    have hsplit : foldEach combine e.postorder =
        foldEach combine (e.children.flatMap postorder) >>= fun _ => discard (e.foldChildren combine) := by
      simp [foldEach, postorder_eq]
    rw [hsplit, hchildren, foldChildren_eq]
    cases e.children.mapM (foldChildren combine) <;> rfl

end FoldEach

section ByHeight

theorem OperandsFirst.appendLevel {nodes level : List (Expr α)} (h : OperandsFirst nodes)
    (operands : ∀ n ∈ level, n.children ⊆ nodes) : OperandsFirst (nodes ++ level) := by
  induction level generalizing nodes with
  | nil => rwa [List.append_nil]
  | cons n level ih =>
    have hnext := ih (h.snoc (operands n List.mem_cons_self)) fun n' hn' =>
      List.subset_append_of_subset_left _ (operands n' (List.mem_cons_of_mem n hn'))
    rwa [List.append_assoc, List.singleton_append] at hnext

theorem operandsFirst_sortedByHeight (e : Expr α) (count : Nat) :
    OperandsFirst (sortedByHeight e.postorder count) := by
  induction count with
  | zero => exact .nil
  | succ count ih =>
    rw [sortedByHeight_succ]
    refine ih.appendLevel fun n hn c hc => ?_
    obtain ⟨hnode, hheight⟩ := List.mem_filter.1 hn
    have hlower := height_lt_of_mem_children hc
    rw [beq_iff_eq.1 hheight] at hlower
    exact mem_sortedByHeight.2 ⟨mem_postorder_of_mem_children hnode hc, hlower⟩

section Answers

variable {γ : Type} {answer? : Expr α → Option γ} {nodes : List (Expr α)} {count : Nat} {answer : γ}

theorem findSome?_filter_eq_some_iff {p : Expr α → Bool} :
    (nodes.filter p).findSome? answer? = some answer ↔
      ∃ before n after, nodes = before ++ n :: after ∧ p n ∧ answer? n = some answer ∧
        ∀ m ∈ before, p m → answer? m = none := by
  have hguard : (nodes.filter p).findSome? answer? = nodes.findSome? fun n => if p n then answer? n else none := by
    induction nodes with
    | nil => rfl
    | cons n nodes ih => by_cases hp : p n <;> simp [hp, ih, List.findSome?_cons]
  rw [hguard, List.findSome?_eq_some_iff]
  simp [and_assoc]

theorem findSome?_sortedByHeight_eq_none_iff :
    (sortedByHeight nodes count).findSome? answer? = none ↔ ∀ m ∈ nodes, (answer? m).isSome → count ≤ m.height := by
  rw [List.findSome?_eq_none_iff]
  refine forall_congr' fun m => ?_
  rw [mem_sortedByHeight, ← Option.not_isSome_iff_eq_none, ← Nat.not_lt]
  tauto

/-- The first answer by height is that of the lowest node with an answer, and of these the first. -/
theorem findSome?_sortedByHeight_eq_some_iff :
    (sortedByHeight nodes count).findSome? answer? = some answer ↔
      ∃ before n after, nodes = before ++ n :: after ∧ n.height < count ∧ answer? n = some answer ∧
        (∀ m ∈ before, (answer? m).isSome → n.height < m.height) ∧
        ∀ m ∈ after, (answer? m).isSome → n.height ≤ m.height := by
  induction count with
  | zero => simp [sortedByHeight]
  | succ c ih =>
    rw [sortedByHeight_succ, List.findSome?_append, Option.or_eq_some_iff, findSome?_sortedByHeight_eq_none_iff,
      findSome?_filter_eq_some_iff]
    constructor
    · rintro (hanswer | ⟨hlowest, before, n, after, rfl, hheight, hn, hfirst⟩)
      · obtain ⟨before, n, after, hnodes, hheight, hn⟩ := ih.1 hanswer
        exact ⟨before, n, after, hnodes, Nat.lt_succ_of_lt hheight, hn⟩
      · obtain rfl : n.height = c := by simpa using hheight
        refine ⟨before, n, after, rfl, Nat.lt_succ_self _, hn, fun m hm hsome => ?_,
          fun m hm => hlowest m (by simp [hm])⟩
        refine Nat.lt_of_le_of_ne (hlowest m (by simp [hm]) hsome) fun hsame => ?_
        rw [hfirst m hm (by simp [hsame])] at hsome
        cases hsome
    · rintro ⟨before, n, after, hnodes, hheight, hn, hbefore, hafter⟩
      rcases Nat.lt_succ_iff_lt_or_eq.1 hheight with hheight | rfl
      · exact Or.inl (ih.2 ⟨before, n, after, hnodes, hheight, hn, hbefore, hafter⟩)
      · refine Or.inr ⟨fun m hm hsome => ?_, before, n, after, hnodes, by simp, hn, fun m hm hheight => ?_⟩
        · rw [hnodes, List.mem_append, List.mem_cons] at hm
          rcases hm with hm | rfl | hm
          · exact Nat.le_of_lt (hbefore m hm hsome)
          · exact Nat.le_refl _
          · exact hafter m hm hsome
        · rw [← Option.not_isSome_iff_eq_none]
          intro hsome
          have hmore := hbefore m hm hsome
          rw [beq_iff_eq.1 hheight] at hmore
          exact Nat.lt_irrefl _ hmore

end Answers

end ByHeight

section Reported

variable {combine}

theorem faultOf?_foldChildren (e : Expr α) :
    faultOf? (e.foldChildren combine) = e.postorder.findSome? (ownFault? combine) := by
  apply faultOf?_eq_of_discard
  rw [← foldEach_postorder]
  exact foldEach_eq combine (operandsFirst_postorder e)

variable {root : Expr α} (identified : Identified root.postorder) {timetable : Timetable} (valid : timetable.Valid)
  {workers : Option Int} (positive : ∀ n ∈ workers, 0 < n)
include identified valid positive

/-- A pool reports the first node by height that fails by itself. -/
theorem faultOf?_evaluate :
    faultOf? (Pool.evaluate combine timetable workers root) =
      (sortedByHeight root.postorder (root.height + 1)).findSome? (ownFault? combine) := by
  have hroot : root ∈ sortedByHeight root.postorder (root.height + 1) :=
    mem_sortedByHeight.2 ⟨root.mem_postorder_self, Nat.lt_succ_self _⟩
  have hnodes := foldEach_eq combine (operandsFirst_sortedByHeight root (root.height + 1))
  rw [evaluate_eq identified valid positive, flatMap_levels, hnodes]
  cases hfirst : (sortedByHeight root.postorder (root.height + 1)).findSome? (ownFault? combine) with
  | some fault => rfl
  | none =>
    rw [hfirst] at hnodes
    exact faultOf?_eq_none_iff.2 (exists_of_foldEach hnodes root hroot)

/-- A pool that comes to a value comes to that of the tree, and it does so whenever the tree has one. -/
theorem evaluate_eq_ok_iff {a : β} :
    Pool.evaluate combine timetable workers root = .ok a ↔ root.foldChildren combine = .ok a := by
  constructor
  · intro h
    rw [evaluate_eq identified valid positive] at h
    obtain ⟨_, _, hroot⟩ := exists_of_bind_eq_ok h
    exact hroot
  · intro h
    have hnone := faultOf?_eq_none_iff.2 ⟨a, h⟩
    rw [faultOf?_foldChildren] at hnone
    have hpost := foldEach_eq combine (operandsFirst_postorder root)
    rw [hnone] at hpost
    rw [evaluate_eq_foldChildren identified valid positive (exists_of_foldEach hpost), h]

end Reported

end Expr
end MatrixChain
