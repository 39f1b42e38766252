import MatrixChain.Proofs.StoredMatrices

/-!
# The fault that is reported

When other matrices are stored in the leaves of a tree, both strategies fail or none does. Evaluation in order comes
upon the faulty node that is first in post-order, and a pool upon the lowest one.
-/

namespace MatrixChain

open MatrixChain.Expr MatrixChain.Pool

variable {α : Type}

namespace Expr

variable [Zero α] [Add α] [Mul α]

/-- All operands of the node evaluate, and the check of the node itself raises the fault. -/
def Faulty (n : Expr α) (fault : Fault) : Prop :=
  ∃ operands, n.children.mapM evaluateInOrder = .ok operands ∧ realize n operands = .error fault

theorem ownFault?_eq_some_iff {n : Expr α} {fault : Fault} : ownFault? realize n = some fault ↔ n.Faulty fault := by
  have hfold : n.children.mapM (foldChildren realize) = n.children.mapM evaluateInOrder := rfl
  rw [ownFault?, Faulty, hfold]
  cases n.children.mapM evaluateInOrder with
  | error other => simp
  | ok operands => simp [faultOf?_eq_some_iff]

theorem isSome_ownFault?_iff {n : Expr α} : (ownFault? realize n).isSome ↔ ∃ fault, n.Faulty fault := by
  simp only [Option.isSome_iff_exists, ownFault?_eq_some_iff]

theorem ownFault?_eq_none_iff {n : Expr α} : ownFault? realize n = none ↔ ∀ fault, ¬ n.Faulty fault := by
  simp only [Option.eq_none_iff_forall_ne_some, ne_eq, ownFault?_eq_some_iff]

theorem Known.checks_of_operands {n : Expr α} (h : n.Known)
    (operands : ∀ c ∈ n.children, ∃ a, c.evaluateInOrder = .ok a) :
    Checks n.evaluateInOrder n.realizedShape n.mismatch? := by
  have hbelow : (n.children.flatMap postorder).findSome? mismatch? = none := by
    refine List.findSome?_eq_none_iff.2 fun m hm => ?_
    obtain ⟨c, hc, hm⟩ := List.mem_flatMap.1 hm
    have hnone := (h.of_mem_children hc).checks_evaluateInOrder.ok_iff.1 (operands c hc)
    exact List.findSome?_eq_none_iff.1 hnone m hm
  have hchecks := h.checks_evaluateInOrder
  rwa [postorder_eq, List.findSome?_append, hbelow, Option.none_or, List.findSome?_singleton] at hchecks

theorem Known.faulty_iff {n : Expr α} (h : n.Known) {fault : Fault} :
    n.Faulty fault ↔ (∀ c ∈ n.children, ∃ a, c.evaluateInOrder = .ok a) ∧
      ∃ mismatch, n.mismatch? = some mismatch ∧ fault = .shapeMismatch mismatch := by
  have hraises : n.Faulty fault ↔ (∀ c ∈ n.children, ∃ a, c.evaluateInOrder = .ok a) ∧
      n.evaluateInOrder = .error fault := by
    rw [← exists_mapM_iff, Faulty, ← exists_and_right]
    refine exists_congr fun operands => and_congr_right fun hoperands => ?_
    have hnode : n.evaluateInOrder = realize n operands := by
      rw [evaluateInOrder, foldChildren_eq]
      exact congrArg (· >>= realize n) hoperands
    rw [hnode]
  rw [hraises]
  exact and_congr_right fun hoperands => (h.checks_of_operands hoperands).error_iff

theorem evaluateInOrder_eq_error_iff {e : Expr α} {fault : Fault} :
    e.evaluateInOrder = .error fault ↔
      ∃ before n after, e.postorder = before ++ n :: after ∧ n.Faulty fault ∧
        ∀ m ∈ before, ∀ other, ¬ m.Faulty other := by
  rw [evaluateInOrder, ← faultOf?_eq_some_iff, faultOf?_foldChildren, List.findSome?_eq_some_iff]
  simp only [ownFault?_eq_some_iff, ownFault?_eq_none_iff]

section ByLevels

variable {e : Expr α} (identified : Identified e.postorder) {timetable : Timetable} (valid : timetable.Valid)
  {workers : Option Int} (positive : ∀ n ∈ workers, 0 < n)
include identified valid positive

/-- Evaluation level by level reports the lowest faulty node, and of these the one that is first in post-order. -/
theorem evaluateByLevels_eq_error_iff {fault : Fault} :
    e.evaluateByLevels timetable workers = .error fault ↔
      ∃ before n after, e.postorder = before ++ n :: after ∧ n.Faulty fault ∧
        (∀ m ∈ before, ∀ other, m.Faulty other → n.height < m.height) ∧
        ∀ m ∈ after, ∀ other, m.Faulty other → n.height ≤ m.height := by
  rw [evaluateByLevels, ← faultOf?_eq_some_iff, faultOf?_evaluate identified valid positive,
    findSome?_sortedByHeight_eq_some_iff]
  simp only [ownFault?_eq_some_iff, isSome_ownFault?_iff, forall_exists_index]
  refine exists_congr fun before => exists_congr fun n => exists_congr fun after => and_congr_right fun hsplit => ?_
  have hnode : n ∈ e.postorder := by simp [hsplit]
  exact and_iff_right (Nat.lt_succ_of_le (height_le_of_mem_postorder hnode))

end ByLevels

theorem exists_evaluateInOrder_eq_error_iff {e : Expr α} :
    (∃ fault, e.evaluateInOrder = .error fault) ↔ ∃ n ∈ e.postorder, ∃ fault, n.Faulty fault := by
  simp only [evaluateInOrder, ← faultOf?_eq_some_iff, faultOf?_foldChildren, ← Option.isSome_iff_exists,
    List.findSome?_isSome_iff, isSome_ownFault?_iff]

theorem exists_eq_error_iff {β : Type} {x : Except Fault β} : (∃ fault, x = .error fault) ↔ ¬ ∃ a, x = .ok a := by
  cases x <;> simp

end Expr

variable [Zero α] [Add α] [Mul α]

/-- Whatever matrices are stored in the leaves of a tree of a session, with workers both strategies fail or none does,
and they fail exactly if there is a faulty node. Evaluation in order then reports the first faulty node in post-order.
A pool reports, whatever its timetable, the lowest one and of these the first. If none fails, the matrices are equal. -/
theorem Session.reports_first_fault {next : NodeId} {nodes : List (Expr α)} (session : Session next nodes) {e : Expr α}
    (he : e ∈ nodes) (stored : NodeId → Option (DenseMatrix α)) {timetable : Timetable} (valid : timetable.Valid)
    {workers : Option Int} (positive : ∀ n ∈ workers, 0 < n) {t : Expr α} (ht : t = e.withMatrices stored) :
    (∀ n ∈ t.postorder, ∀ fault, n.Faulty fault ↔ (∀ c ∈ n.children, ∃ a, c.evaluateInOrder = .ok a) ∧
      ∃ mismatch, n.mismatch? = some mismatch ∧ fault = .shapeMismatch mismatch) ∧
    ((∃ fault, t.evaluate .sequential workers = .error fault) ↔ ∃ n ∈ t.postorder, ∃ fault, n.Faulty fault) ∧
    ((∃ fault, t.evaluateByLevels timetable workers = .error fault) ↔ ∃ n ∈ t.postorder, ∃ fault, n.Faulty fault) ∧
    (∀ fault, t.evaluate .sequential workers = .error fault ↔
      ∃ before n after, t.postorder = before ++ n :: after ∧ n.Faulty fault ∧
        ∀ m ∈ before, ∀ other, ¬ m.Faulty other) ∧
    (∀ fault, t.evaluateByLevels timetable workers = .error fault ↔
      ∃ before n after, t.postorder = before ++ n :: after ∧ n.Faulty fault ∧
        (∀ m ∈ before, ∀ other, m.Faulty other → n.height < m.height) ∧
        ∀ m ∈ after, ∀ other, m.Faulty other → n.height ≤ m.height) ∧
    (∀ a, t.evaluate .sequential workers = .ok a ↔ t.evaluateByLevels timetable workers = .ok a) ∧
    t.evaluate .threaded workers = t.evaluateByLevels timetable workers := by
  have hknown : t.Known := ht ▸ (session.built he).known.withMatrices
  have hidentified : Identified t.postorder := by
    rw [ht, postorder_withMatrices]
    exact (session.identified he).withMatrices
  have hok : ∀ a, t.evaluate .sequential workers = .ok a ↔ t.evaluateByLevels timetable workers = .ok a :=
    fun a => (evaluate_eq_ok_iff hidentified valid positive).symm
  have hfail : (∃ fault, t.evaluate .sequential workers = .error fault) ↔ ∃ n ∈ t.postorder, ∃ fault, n.Faulty fault :=
    exists_evaluateInOrder_eq_error_iff
  refine ⟨fun n hn fault => (hknown.of_mem_postorder hn).faulty_iff, hfail, ?_,
    fun fault => evaluateInOrder_eq_error_iff, fun fault => evaluateByLevels_eq_error_iff hidentified valid positive,
    hok, ?_⟩
  · rw [← hfail, exists_eq_error_iff, exists_eq_error_iff]
    exact not_congr (exists_congr fun a => (hok a).symm)
  · exact (evaluate_eq hidentified Timetable.valid_oneByOne positive).trans (evaluate_eq hidentified valid positive).symm

def unevenSum : Expr Int :=
  sum 6 (product 4 (product 3 (twos 0) (twos 0) ⟨1, 1⟩) (twos 1) ⟨1, 1⟩) (product 5 (twos 0) (twos 2) ⟨1, 1⟩) ⟨1, 1⟩

theorem session_unevenSum : ∃ nodes, Session 7 (unevenSum :: nodes) := by
  have hleaves : Session 3 [twos 2, twos 1, twos 0] := .leaf (.leaf (.leaf (.start 0) rfl) rfl) rfl
  obtain ⟨hzero, hone, htwo⟩ : twos 0 ∈ [twos 2, twos 1, twos 0] ∧ twos 1 ∈ [twos 2, twos 1, twos 0] ∧
      twos 2 ∈ [twos 2, twos 1, twos 0] := by simp
  have hsquare : Session 4 (product 3 (twos 0) (twos 0) ⟨1, 1⟩ :: _) := .multiply hleaves hzero hzero rfl
  have hthree : Session 5 (product 4 _ (twos 1) ⟨1, 1⟩ :: _) :=
    .multiply hsquare List.mem_cons_self (List.mem_cons_of_mem _ hone) rfl
  have hpair : Session 6 (product 5 (twos 0) (twos 2) ⟨1, 1⟩ :: _) :=
    .multiply hthree (List.mem_append_right [_, _] hzero) (List.mem_append_right [_, _] htwo) rfl
  exact ⟨_, .add hpair (List.mem_cons_of_mem _ List.mem_cons_self) List.mem_cons_self rfl⟩

def storedColumns (id : NodeId) : Option (DenseMatrix Int) :=
  match id with
  | 1 => some (.ofFn 2 1 fun _ _ => 2)
  | 2 => some (.ofFn 3 1 fun _ _ => 2)
  | _ => none

/-- The product of three is first in post-order, and that of two is lower. -/
theorem Session.reports_first_fault_of_unevenSum :
    (∃ nodes, Session 7 (unevenSum :: nodes)) ∧ Timetable.lastFirst.Valid ∧ (∀ n ∈ some (2 : Int), 0 < n) ∧
      (unevenSum.withMatrices storedColumns).evaluate .sequential (some 2) =
        .error (.shapeMismatch ⟨"multiply", ⟨1, 1⟩, ⟨2, 1⟩, none⟩) ∧
      (unevenSum.withMatrices storedColumns).evaluateByLevels .lastFirst (some 2) =
        .error (.shapeMismatch ⟨"multiply", ⟨1, 1⟩, ⟨3, 1⟩, none⟩) := by
  obtain ⟨nodes, hsession⟩ := session_unevenSum
  have hworkers : ∀ n ∈ some (2 : Int), 0 < n := by simp
  obtain ⟨hfaulty, _, _, hfirst, hlowest, _⟩ :=
    hsession.reports_first_fault List.mem_cons_self storedColumns Timetable.valid_lastFirst hworkers rfl
  have hsound : ∀ n ∈ (unevenSum.withMatrices storedColumns).postorder, n.mismatch? = none →
      ∀ other, ¬ n.Faulty other := by
    intro n hn hnone other h
    obtain ⟨_, _, hmismatch, _⟩ := (hfaulty n hn other).1 h
    rw [hnone] at hmismatch
    cases hmismatch
  have hleaf : ∀ id matrix label, ∃ a, (Expr.leaf id matrix label : Expr Int).evaluateInOrder = .ok a :=
    fun _ _ _ => ⟨_, foldChildren_leaf ..⟩
  have hsquare : ∃ a, (product 3 (twos 0) (twos 0) ⟨1, 1⟩).evaluateInOrder = .ok a := by
    have hknown : (product 3 (twos 0) (twos 0) ⟨1, 1⟩).Known := ⟨trivial, trivial⟩
    exact hknown.checks_evaluateInOrder.ok_iff.2 rfl
  refine ⟨⟨nodes, hsession⟩, Timetable.valid_lastFirst, hworkers, (hfirst _).2 ?_, (hlowest _).2 ?_⟩
  · refine ⟨[_, _, _, _], _, [_, _, _, _], rfl, (hfaulty _ ?_ _).2 ⟨?_, _, rfl, rfl⟩, fun m hm => hsound m ?_ ?_⟩
    · simp [unevenSum, withMatrices]
    · exact List.forall_mem_cons.2 ⟨hsquare, List.forall_mem_singleton.2 (hleaf ..)⟩
    · exact List.mem_append_left [_, _, _, _, _] hm
    · revert m
      decide
  · refine ⟨[_, _, _, _, _, _, _], _, [_], rfl, (hfaulty _ ?_ _).2 ⟨?_, _, rfl, rfl⟩, fun m hm other h => ?_, ?_⟩
    · simp [unevenSum, withMatrices]
    · exact List.forall_mem_cons.2 ⟨hleaf .., List.forall_mem_singleton.2 (hleaf ..)⟩
    · have hhigher : m.mismatch? = none ∨ 1 < m.height := by
        clear h
        revert m
        decide
      exact hhigher.resolve_left fun hnone => hsound m (List.mem_append_left [_, _] hm) hnone other h
    · exact List.forall_mem_singleton.2 fun _ _ => by decide

end MatrixChain
