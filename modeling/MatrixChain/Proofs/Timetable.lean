import MatrixChain.Evaluation.Pool
import Mathlib.Data.List.Count

/-!
# Timetables

What a pool can make of the tasks of a level. The order in which tasks run is free, and so is how soon their results are
collected.
-/

namespace MatrixChain

/-- What a pool makes of the tasks of a level: each of them runs once, each result is collected in turn, and none
before its task has run. -/
structure Timetable.Covers (tasks : Nat) (events : List PoolEvent) : Prop where
  runs : ∀ place, events.count (.run place) = if place < tasks then 1 else 0
  collects : events.count .collect = tasks
  inTurn : ∀ before after, events = before ++ .collect :: after → .run (before.count .collect) ∈ before

def Timetable.Valid (timetable : Timetable) : Prop :=
  ∀ number tasks, Timetable.Covers tasks (timetable number tasks)

theorem Timetable.Covers.collect_lt {tasks : Nat} {events before after : List PoolEvent}
    (h : Timetable.Covers tasks events) (split : events = before ++ .collect :: after) :
    before.count .collect < tasks := by
  have hcollects := h.collects
  rw [split, List.count_append, List.count_cons_self] at hcollects
  omega

theorem Timetable.Covers.run_mem {tasks place : Nat} {events : List PoolEvent} (h : Timetable.Covers tasks events)
    (hplace : place < tasks) : .run place ∈ events := by
  rw [← List.count_pos_iff, h.runs, if_pos hplace]
  exact Nat.one_pos

theorem Timetable.Covers.append {tasks : Nat} {events : List PoolEvent} (h : Timetable.Covers tasks events) :
    Timetable.Covers (tasks + 1) (events ++ [.run tasks, .collect]) := by
  constructor
  · intro place
    rw [List.count_append, h.runs]
    by_cases hplace : tasks = place
    · simp [hplace]
    · have hlt : place < tasks ↔ place < tasks + 1 := by omega
      simp [hplace, hlt]
  · rw [List.count_append, h.collects]
    rfl
  · intro before after split
    rcases List.append_eq_append_iff.1 split with ⟨more, rfl, hmore⟩ | ⟨more, hevents, hmore⟩
    · cases more with
      | nil => cases hmore
      | cons event more =>
        cases more with
        | nil =>
          cases hmore
          simp [h.collects]
        | cons event' more => simp at hmore
    · cases more with
      | nil => cases hmore
      | cons event more =>
        cases hmore
        exact h.inTurn before more hevents

theorem Timetable.valid_oneByOne : Timetable.oneByOne.Valid := by
  intro number tasks
  unfold Timetable.oneByOne
  induction tasks with
  | zero => exact ⟨fun _ => rfl, rfl, fun before after split => by cases before <;> cases split⟩
  | succ tasks ih =>
    rw [List.range_succ, List.flatMap_append, List.flatMap_singleton]
    exact ih.append

/-- The tasks may run in any order before the first result is collected. -/
theorem Timetable.covers_of_perm {tasks : Nat} {order : List Nat} (perm : order.Perm (List.range tasks)) :
    Timetable.Covers tasks (order.map .run ++ List.replicate tasks .collect) := by
  have hnone : PoolEvent.collect ∉ order.map .run := by simp
  have hcollects : List.count .collect (order.map PoolEvent.run ++ List.replicate tasks .collect) = tasks := by
    rw [List.count_append, List.count_eq_zero_of_not_mem hnone, List.count_replicate_self, Nat.zero_add]
  refine ⟨fun place => ?_, hcollects, fun before after split => ?_⟩
  · have hcount : (order.map PoolEvent.run).count (.run place) = order.count place :=
      List.count_map_of_injective order PoolEvent.run (fun _ _ => PoolEvent.run.inj) place
    rw [List.count_append, hcount, perm.count_eq, List.nodup_range.count]
    simp [List.count_replicate]
  · have hlt : before.count .collect < tasks := by
      rw [split, List.count_append, List.count_cons_self] at hcollects
      omega
    have hruns : ∃ more, before = order.map .run ++ more := by
      rcases List.append_eq_append_iff.1 split with ⟨more, hbefore, _⟩ | ⟨more, horder, hmore⟩
      · exact ⟨more, hbefore⟩
      · cases more with
        | nil => exact ⟨[], by rw [horder, List.append_nil, List.append_nil]⟩
        | cons event more =>
          cases hmore
          exact absurd (horder ▸ List.mem_append_right _ List.mem_cons_self) hnone
    obtain ⟨more, hbefore⟩ := hruns
    have hrun : .run (before.count .collect) ∈ order.map PoolEvent.run :=
      List.mem_map_of_mem (perm.mem_iff.2 (List.mem_range.2 hlt))
    rw [hbefore] at hrun ⊢
    exact List.mem_append_left more hrun

/-- The tasks from the last to the first, and then all results. -/
def Timetable.lastFirst : Timetable := fun _ tasks =>
  (List.range tasks).reverse.map .run ++ List.replicate tasks .collect

theorem Timetable.valid_lastFirst : Timetable.lastFirst.Valid :=
  fun _ tasks => Timetable.covers_of_perm (List.range tasks).reverse_perm

end MatrixChain
