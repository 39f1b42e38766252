import MatrixChain.Proofs.CallLog
import MatrixChain.Proofs.Pool

/-!
# The log of a pool

Where all nodes of a tree have values, a pool has one call for each node: the tasks of a level in the order in which
the timetable runs them, level by level.
-/

namespace MatrixChain

open MatrixChain.Expr

section Tasks

variable {α : Type}

def PoolEvent.place? : PoolEvent → Option Nat
  | run place => some place
  | collect => none

def PoolEvent.task? (level : Array (Expr α)) (event : PoolEvent) : Option (Expr α) :=
  event.place?.bind (level[·]?)

theorem count_filterMap_place? (events : List PoolEvent) (place : Nat) :
    (events.filterMap PoolEvent.place?).count place = events.count (.run place) := by
  rw [List.count_filterMap, List.count]
  refine List.countP_congr fun event _ => ?_
  cases event <;> simp [PoolEvent.place?]

theorem filterMap_getElem?_range (nodes : List (Expr α)) : (List.range nodes.length).filterMap (nodes[·]?) = nodes := by
  induction nodes with
  | nil => rfl
  | cons n nodes ih =>
    rw [List.length_cons, List.range_succ_eq_map, List.filterMap_cons, List.filterMap_map]
    exact congrArg (n :: ·) ih

/-- The events of a level run the task of every node of the level. -/
theorem Timetable.Covers.tasks_perm {level : Array (Expr α)} {events : List PoolEvent}
    (h : Timetable.Covers level.size events) : (events.filterMap (PoolEvent.task? level)).Perm level.toList := by
  have hplaces : (events.filterMap PoolEvent.place?).Perm (List.range level.size) := by
    rw [List.perm_iff_count]
    intro place
    rw [count_filterMap_place?, h.runs, List.nodup_range.count]
    simp
  have hall : (List.range level.size).filterMap (level[·]?) = level.toList := by
    simpa using filterMap_getElem?_range level.toList
  have htasks := hplaces.filterMap (level[·]?)
  rwa [hall, List.filterMap_filterMap] at htasks

/-- The nodes in the order in which the timetable runs their tasks. -/
def Timetable.tasks (timetable : Timetable) : Nat → List (Array (Expr α)) → List (Expr α)
  | _, [] => []
  | number, level :: levels =>
    (timetable number level.size).filterMap (PoolEvent.task? level) ++ timetable.tasks (number + 1) levels

theorem Timetable.Valid.tasks_perm {timetable : Timetable} (valid : timetable.Valid) (number : Nat)
    (levels : List (Array (Expr α))) : (timetable.tasks number levels).Perm (levels.flatMap (·.toList)) := by
  induction levels generalizing number with
  | nil => exact .nil
  | cons level levels ih => exact (valid number level.size).tasks_perm.append (ih (number + 1))

end Tasks

namespace Pool

variable {α β γ : Type} {note : NodeCall α β → γ} {combine : Expr α → List β → Except Fault β}

theorem records_attempt {x : StateT (List γ) (Except Fault) β} {y : Except Fault β} {nodes : List (Expr α)} {a : β}
    (h : Records note combine x y nodes) (ha : y = .ok a) : Records note combine (attempt x) (attempt y) nodes := by
  intro result hresult log
  obtain ⟨calls, hrun, hcalls⟩ := h a ha log
  obtain rfl : .ok a = result := by
    rw [attempt_eq, ha] at hresult
    exact Except.ok.inj hresult
  refine ⟨calls, ?_, hcalls⟩
  have hattempt : (attempt x).run log =
      tryCatch (x.run log >>= fun p => pure (.ok p.1, p.2)) fun fault => pure (.error fault, log) := rfl
  rw [hattempt, hrun]
  rfl

theorem records_value (store : Store β) (id : NodeId) :
    Records note combine (store.value id : StateT (List γ) (Except Fault) β) (store.value id) [] := by
  unfold Store.value
  cases store.values[id]? with
  | none => rintro a ⟨⟩
  | some a => exact .nothing rfl

theorem Ready.mapM_value {store : Store β} {n : Expr α} (h : Ready combine store n) {operands : List β}
    (hoperands : n.children.mapM (foldChildren combine) = .ok operands) :
    n.children.mapM (fun c => (store.value c.id : StateT (List γ) (Except Fault) β)) = pure operands := by
  unfold Ready at h
  generalize n.children = children at h hoperands
  induction children generalizing operands with
  | nil =>
    cases hoperands
    rfl
  | cons c children ih =>
    obtain ⟨⟨a, hstored, ha⟩, hrest⟩ := List.forall_mem_cons.1 h
    rw [List.mapM_cons, ha] at hoperands
    obtain ⟨_, ⟨⟩, hoperands⟩ := exists_of_bind_eq_ok hoperands
    obtain ⟨values, hvalues, ⟨⟩⟩ := exists_of_bind_eq_ok hoperands
    rw [List.mapM_cons, ih hrest hvalues, Store.value, hstored]
    rfl

theorem Ready.records_task {store : Store β} {n : Expr α} (h : Ready combine store n) :
    Records note combine (task (recording note combine) store n) (task combine store n) [n] := by
  rw [h.task_eq, foldChildren_eq]
  cases hoperands : n.children.mapM (foldChildren combine) with
  | error fault => rintro a ⟨⟩
  | ok operands =>
    rw [task, h.mapM_value hoperands]
    exact records_recording hoperands

section Level

variable {root : Expr α} (identified : Identified root.postorder)
  (ok : ∀ n ∈ root.postorder, ∃ a, n.foldChildren combine = .ok a)
  {store : Store β} {level : Array (Expr α)} (served : Served root store level) {events : List PoolEvent}
  {p : Progress β}
include ok served

theorem Underway.records_step (h : Underway combine root store level events p) {event : PoolEvent}
    (inTurn : event = .collect → .run p.collected ∈ events ∧ p.collected < level.size) :
    Records note combine (p.step (recording note combine) level event) (p.step combine level event)
      (event.task? level).toList := by
  cases event with
  | run place =>
    cases hn : level[place]? with
    | none =>
      simp only [Progress.step, PoolEvent.task?, PoolEvent.place?, Option.bind_some, hn]
      exact .nothing rfl
    | some n =>
      have hready := h.ready served (Array.mem_of_getElem? hn)
      obtain ⟨a, ha⟩ := ok n (served n (Array.mem_of_getElem? hn)).1
      simp only [Progress.step, PoolEvent.task?, PoolEvent.place?, Option.bind_some, hn]
      exact (records_attempt hready.records_task (hready.task_eq.trans ha)).bind_pure _
  | collect =>
    obtain ⟨ran, hlt⟩ := inTurn rfl
    have hn : level[p.collected]? = some level[p.collected] := Array.getElem?_eq_getElem hlt
    have hresult := h.results p.collected _ hn
    obtain ⟨a, ha⟩ := ok _ (served _ (Array.getElem_mem hlt)).1
    rw [if_pos ran, ha] at hresult
    simp only [Progress.step, hn, hresult]
    exact .nothing rfl

include identified

theorem Underway.records_foldlM (h : Underway combine root store level events p) {more after : List PoolEvent}
    (covers : Timetable.Covers level.size (events ++ more ++ after)) :
    Records note combine (more.foldlM (Progress.step (recording note combine) level) p)
      (more.foldlM (Progress.step combine level) p) (more.filterMap (PoolEvent.task? level)) := by
  induction more generalizing events p with
  | nil => exact .nothing rfl
  | cons event more ih =>
    have hsplit : events ++ event :: more = (events ++ [event]) ++ more := by simp
    rw [hsplit] at covers
    have hnodes : (event :: more).filterMap (PoolEvent.task? level) =
        (event.task? level).toList ++ more.filterMap (PoolEvent.task? level) := by
      rw [List.filterMap_cons]
      cases event.task? level <;> rfl
    rw [List.foldlM_cons, List.foldlM_cons, hnodes]
    have hinTurn : event = .collect → .run p.collected ∈ events ∧ p.collected < level.size := by
      rintro rfl
      rw [List.append_assoc, List.append_assoc] at covers
      exact h.inTurn covers
    exact (h.records_step ok served hinTurn).bind fun p' hp' =>
      ih (h.next identified served hinTurn hp') covers

end Level

section Levels

variable {root : Expr α} (identified : Identified root.postorder)
  (ok : ∀ n ∈ root.postorder, ∃ a, n.foldChildren combine = .ok a)
include identified ok

theorem Carries.records_runLevel {below above : List (Array (Expr α))} {level : Array (Expr α)}
    {events : List PoolEvent} {store : Store β} (h : Carries combine root below (level :: above) store) (covers : Timetable.Covers level.size events) :
    Records note combine (runLevel (recording note combine) events store level) (runLevel combine events store level)
      (events.filterMap (PoolEvent.task? level)) := by
  have hcovers : Timetable.Covers level.size ([] ++ events ++ []) := by
    rwa [List.nil_append, List.append_nil]
  have hstart := underway_start h.sound level
  rw [← List.append_nil (events.filterMap _)]
  refine (hstart.records_foldlM identified ok h.served hcovers).bind fun p hp => ?_
  have hend := hstart.foldlM identified h.served hcovers hp
  rw [h.release_eq (m := Except Fault) hend]
  exact .nothing (h.release_eq hend)

variable {timetable : Timetable} (valid : timetable.Valid)
include valid

theorem Carries.records_runLevels {below above levels : List (Array (Expr α))} {store : Store β}
    (h : Carries combine root below (levels ++ above) store) :
    Records note combine (Pool.runLevels (recording note combine) timetable store below.length levels)
      (Pool.runLevels combine timetable store below.length levels) (timetable.tasks below.length levels) := by
  induction levels generalizing below store with
  | nil => exact .nothing rfl
  | cons level levels ih =>
    have hcovers := valid below.length level.size
    refine (h.records_runLevel identified ok hcovers).bind fun next hnext => ?_
    have hrest := ih (h.next identified hcovers hnext)
    rwa [List.length_append, List.length_singleton] at hrest

/-- A pool with workers has the calls of all tasks, level by level. -/
theorem records_evaluate {workers : Option Int} (positive : ∀ n ∈ workers, 0 < n) :
    Records note combine (Pool.evaluate (recording note combine) timetable workers root)
      (Pool.evaluate combine timetable workers root) (timetable.tasks 0 root.levels.toList) := by
  have hstart := carries_start combine (List.append_nil root.levels.toList).symm
  rw [evaluate_of_workers _ _ positive, evaluate_of_workers _ _ positive, ← List.append_nil (timetable.tasks 0 _)]
  exact (hstart.records_runLevels identified ok valid).bind fun store _ => records_value store root.id

end Levels

end Pool
end MatrixChain
