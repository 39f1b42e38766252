import MatrixChain.Proofs.Levels
import MatrixChain.Proofs.PoolLevel

/-!
# Evaluation level by level

Whatever the timetable is, every task finds the values of its operands: they were computed in lower levels, and the
counts keep them until their last use. So the pool comes to what folding the nodes one by one comes to, level by level.
-/

namespace MatrixChain

open MatrixChain.Expr

namespace Pool

variable {α β : Type} {combine : Expr α → List β → Except Fault β} {root : Expr α}

variable (combine root) in
/-- Between the levels that are done and those to come: the counts are those of the levels to come, and the values that
these need are stored, and that of the root. -/
structure Carries (below above : List (Array (Expr α))) (store : Store β) : Prop where
  levels : root.levels.toList = below ++ above
  pending : ∀ id, store.pending.getD id 0 = ↑((above.flatMap uses).count id)
  sound : Sound combine root store
  held : ∀ n ∈ root.postorder, n.height < below.length → n = root ∨ n.id ∈ above.flatMap uses → n.id ∈ store.values

variable (combine) in
theorem carries_start {levels above : List (Array (Expr α))} (split : root.levels.toList = levels ++ above) :
    Carries combine root [] (levels ++ above) (.start root.levels) where
  levels := split
  pending id := by rw [Store.pending_start, split]
  sound n _ a ha := by
    rw [Store.values_start] at ha
    cases ha
  held _ _ h := absurd h (Nat.not_lt_zero _)

theorem evaluate_of_workers {m : Type → Type} [Monad m] [LawfulMonad m] [MonadExcept Fault m]
    (combine : Expr α → List β → m β) (timetable : Timetable) {workers : Option Int} (positive : ∀ n ∈ workers, 0 < n) :
    Pool.evaluate combine timetable workers root = (do
      let store ← Pool.runLevels combine timetable (.start root.levels) 0 root.levels.toList
      store.value root.id) := by
  have hworkers : workers.any (· ≤ 0) = false := by
    cases workers with
    | none => rfl
    | some n => simpa using positive n rfl
  rw [Pool.evaluate, hworkers]
  rfl

section Levels

variable {below above : List (Array (Expr α))} {level : Array (Expr α)} {store : Store β}

theorem mem_level (h : root.levels.toList = below ++ level :: above) {n : Expr α} :
    n ∈ level ↔ n ∈ root.postorder ∧ n.height = below.length := by
  have hlevel : root.levels.toList[below.length]? = some level := by simp [h]
  rw [levels_eq, Array.getElem?_toList, Array.getElem?_eq_some_iff] at hlevel
  obtain ⟨hlt, rfl⟩ := hlevel
  rw [getElem_levelsOf, mem_levelAt]

theorem mem_postorder_of_mem_levels (h : level ∈ root.levels.toList) {n : Expr α} (hn : n ∈ level) :
    n ∈ root.postorder := by
  obtain ⟨below, above, hsplit⟩ := List.append_of_mem h
  exact ((mem_level hsplit).1 hn).1

theorem Carries.served (h : Carries combine root below (level :: above) store) : Served root store level := by
  intro n hn
  obtain ⟨hnode, hheight⟩ := (mem_level h.levels).1 hn
  refine ⟨hnode, fun c hc => ?_⟩
  have hlower : c.height < below.length := hheight ▸ height_lt_of_mem_children hc
  have huse : c.id ∈ uses level := mem_uses.2 ⟨n, hn, c, hc, rfl⟩
  exact h.held c (mem_postorder_of_mem_children hnode hc) hlower (Or.inr (List.mem_append_left _ huse))

theorem foldEach_levels (ok : ∀ n ∈ root.postorder, ∃ a, n.foldChildren combine = .ok a)
    {levels : List (Array (Expr α))} (subset : levels ⊆ root.levels.toList) :
    foldEach combine (levels.flatMap (·.toList)) = .ok () := by
  refine foldEach_eq_ok fun n hn => ?_
  obtain ⟨level, hlevel, hn⟩ := List.mem_flatMap.1 hn
  exact ok n (mem_postorder_of_mem_levels (subset hlevel) (Array.mem_toList_iff.1 hn))

/-- At the end of a level there are the values that were needed before and those of the level. -/
theorem Carries.stored (h : Carries combine root below (level :: above) store) {events : List PoolEvent}
    (covers : Timetable.Covers level.size events) {p : Progress β}
    (hend : Underway combine root store level events p) {n : Expr α} (hn : n ∈ root.postorder)
    (hheight : n.height < below.length + 1) (hneeded : n = root ∨ n.id ∈ above.flatMap uses) :
    n.id ∈ p.store.values := by
  rcases Nat.lt_succ_iff_lt_or_eq.1 hheight with hheight | hheight
  · exact hend.kept n.id (h.held n hn hheight (hneeded.imp_right (List.mem_append_right _)))
  · obtain ⟨place, hplace⟩ := Array.mem_iff_getElem?.1 ((mem_level h.levels).2 ⟨hn, hheight⟩)
    refine hend.stored place n hplace ?_
    rw [hend.collected, covers.collects]
    exact (Array.getElem?_eq_some_iff.1 hplace).1

theorem Carries.pending_underway (h : Carries combine root below (level :: above) store) {events : List PoolEvent}
    {p : Progress β} (hend : Underway combine root store level events p) (id : NodeId) :
    p.store.pending.getD id 0 = (uses level).count id + (above.flatMap uses).count id := by
  rw [hend.pending, h.pending, List.flatMap_cons, List.count_append, Int.natCast_add]

/-- When a level is released, no value is missed. -/
theorem Carries.release_eq {m : Type → Type} [Monad m] [LawfulMonad m] [MonadExcept Fault m]
    (h : Carries combine root below (level :: above) store) {events : List PoolEvent} {p : Progress β}
    (hend : Underway combine root store level events p) :
    (p.store.release level : m (Store β)) = pure (p.store.released level) := by
  refine Store.release_eq (fun id huse => ?_) fun id => ?_
  · obtain ⟨n, hn, c, hc, rfl⟩ := mem_uses.1 huse
    exact hend.kept c.id ((h.served n hn).2 c hc)
  · rw [h.pending_underway hend]
    exact Int.le_add_of_nonneg_right (Int.natCast_nonneg _)

variable (identified : Identified root.postorder)
include identified

theorem root_not_mem_uses (h : root.levels.toList = below ++ level :: above) : root.id ∉ uses level := by
  intro huse
  obtain ⟨n, hn, c, hc, hid⟩ := mem_uses.1 huse
  have hnode := ((mem_level h).1 hn).1
  have hroot : c = root :=
    identified c (mem_postorder_of_mem_children hnode hc) root root.mem_postorder_self hid
  have hlt := height_lt_of_mem_children hc
  rw [hroot] at hlt
  rcases height_lt_of_mem_postorder hnode with rfl | hn <;> omega

theorem Carries.release (h : Carries combine root below (level :: above) store) {events : List PoolEvent}
    (covers : Timetable.Covers level.size events) {p : Progress β}
    (hend : Underway combine root store level events p) :
    Carries combine root (below ++ [level]) above (p.store.released level) := by
  have hpending := h.pending_underway hend
  constructor
  · rw [h.levels, List.append_assoc, List.singleton_append]
  · intro id
    rw [Store.pending_released, hpending]
    omega
  · intro n hn a ha
    rw [Store.values_released] at ha
    split at ha
    · cases ha
    · exact hend.sound n hn a ha
  · intro n hn hheight hneeded
    have hstored := h.stored covers hend hn (by simpa using hheight) hneeded
    -- A value that goes has no use above, so only that of the root could be missed, and no node uses the root.
    have hkept : ¬(0 < p.store.pending.getD n.id 0 ∧ p.store.pending.getD n.id 0 ≤ (uses level).count n.id) := by
      rintro ⟨hmore, hlast⟩
      rw [hpending] at hmore hlast
      rcases hneeded with rfl | hneeded
      · have hnone := List.count_eq_zero.2 (root_not_mem_uses identified h.levels)
        omega
      · have habove := List.count_pos_iff.2 hneeded
        omega
    rw [Std.HashMap.mem_iff_isSome_getElem?] at hstored ⊢
    rwa [Store.values_released, if_neg hkept]

theorem Carries.next (h : Carries combine root below (level :: above) store) {events : List PoolEvent}
    (covers : Timetable.Covers level.size events) {store' : Store β}
    (hrun : runLevel combine events store level = .ok store') :
    Carries combine root (below ++ [level]) above store' := by
  obtain ⟨p, hp, hrun⟩ := exists_of_bind_eq_ok hrun
  have hend := (underway_start h.sound level).foldlM identified h.served ((List.append_nil events).symm ▸ covers) hp
  rw [h.release_eq hend] at hrun
  cases hrun
  exact h.release identified covers hend

/-- A level comes to what folding its nodes one by one comes to. -/
theorem Carries.discard_runLevel (h : Carries combine root below (level :: above) store) {events : List PoolEvent}
    (covers : Timetable.Covers level.size events) :
    discard (runLevel combine events store level) = foldEach combine level.toList := by
  rw [← discard_events identified h.served h.sound covers, runLevel]
  cases hp : events.foldlM (Progress.step combine level) (.start store level.size) with
  | error fault => rfl
  | ok p =>
    have hend := (underway_start h.sound level).foldlM identified h.served ((List.append_nil events).symm ▸ covers) hp
    have hrelease := h.release_eq (m := Except Fault) hend
    exact congrArg discard hrelease

variable {timetable : Timetable} (valid : timetable.Valid)
include valid

theorem Carries.runLevels {levels : List (Array (Expr α))} (h : Carries combine root below (levels ++ above) store)
    {store' : Store β} (hrun : runLevels combine timetable store below.length levels = .ok store') :
    Carries combine root (below ++ levels) above store' := by
  induction levels generalizing below store with
  | nil =>
    cases hrun
    rwa [List.append_nil]
  | cons level levels ih =>
    obtain ⟨next, hnext, hrun⟩ := exists_of_bind_eq_ok hrun
    have hlength : (below ++ [level]).length = below.length + 1 := List.length_append
    have hcarries := h.next identified (valid below.length level.size) hnext
    have hrest := ih hcarries (by rw [hlength]; exact hrun)
    rwa [List.append_assoc, List.singleton_append] at hrest

theorem Carries.discard_runLevels {levels : List (Array (Expr α))}
    (h : Carries combine root below (levels ++ above) store) :
    discard (Pool.runLevels combine timetable store below.length levels) =
      foldEach combine (levels.flatMap (·.toList)) := by
  induction levels generalizing below store with
  | nil => rfl
  | cons level levels ih =>
    have hcovers := valid below.length level.size
    have hlevel := h.discard_runLevel identified hcovers
    rw [Pool.runLevels, List.flatMap_cons, foldEach, List.forM_append, ← foldEach, ← hlevel]
    cases hnext : runLevel combine (timetable below.length level.size) store level with
    | error fault => rfl
    | ok next =>
      have hrest := ih (h.next identified hcovers hnext)
      rw [List.length_append, List.length_singleton] at hrest
      exact hrest

theorem value_of_runLevels
    (hrun : Pool.runLevels combine timetable (.start root.levels) 0 root.levels.toList = .ok store) :
    store.value root.id = root.foldChildren combine := by
  have hend : Carries combine root root.levels.toList [] store :=
    (carries_start combine (List.append_nil _).symm).runLevels identified valid hrun
  have hheight : root.height < root.levels.toList.length := by
    rw [levels_eq, Array.length_toList, size_levelsOf]
    exact Nat.lt_succ_self _
  have hheld := hend.held root root.mem_postorder_self hheight (Or.inl rfl)
  have hstored := Std.HashMap.getElem?_eq_some_getElem hheld
  rw [Store.value, hstored, hend.sound root root.mem_postorder_self _ hstored]
  rfl

/-- With workers, the pool comes to what folding all nodes one by one comes to, level by level, and then the root. -/
theorem evaluate_eq {workers : Option Int} (positive : ∀ n ∈ workers, 0 < n) :
    Pool.evaluate combine timetable workers root = (do
      foldEach combine (root.levels.toList.flatMap (·.toList))
      root.foldChildren combine) := by
  have hstart := carries_start combine (List.append_nil root.levels.toList).symm
  have hdiscard := hstart.discard_runLevels identified valid
  rw [← hdiscard, evaluate_of_workers _ _ positive, List.length_nil]
  cases hrun : Pool.runLevels combine timetable (.start root.levels) 0 root.levels.toList with
  | error fault => rfl
  | ok store => exact value_of_runLevels identified valid hrun

theorem evaluate_eq_foldChildren {workers : Option Int} (positive : ∀ n ∈ workers, 0 < n)
    (ok : ∀ n ∈ root.postorder, ∃ a, n.foldChildren combine = .ok a) :
    Pool.evaluate combine timetable workers root = root.foldChildren combine := by
  rw [evaluate_eq identified valid positive, foldEach_levels ok (List.Subset.refl _)]
  rfl

end Levels

theorem exists_of_discard {γ : Type} {x : Except Fault γ} (h : discard x = .ok ()) : ∃ a, x = .ok a := by
  cases x with
  | error fault => cases h
  | ok a => exact ⟨a, rfl⟩

/-- The pool is at work on a level of the tree: it has come to `p`, and `rest` are the events to come. -/
def Reaches (combine : Expr α → List β → Except Fault β) (timetable : Timetable) (root : Expr α)
    (level : Array (Expr α)) (p : Progress β) (rest : List PoolEvent) : Prop :=
  ∃ below above store before, root.levels.toList = below ++ level :: above ∧
    runLevels combine timetable (.start root.levels) 0 below = .ok store ∧
    timetable below.length level.size = before ++ rest ∧
    before.foldlM (Progress.step combine level) (.start store level.size) = .ok p

section Reaches

variable {timetable : Timetable} {level : Array (Expr α)} {p : Progress β} {rest : List PoolEvent}
  (identified : Identified root.postorder) (valid : timetable.Valid)
include identified valid

theorem Reaches.underway (h : Reaches combine timetable root level p rest) :
    ∃ store before, Served root store level ∧ Timetable.Covers level.size (before ++ rest) ∧
      Underway combine root store level before p := by
  obtain ⟨below, above, store, before, hlevels, hbelow, hevents, hp⟩ := h
  have hcarries : Carries combine root below (level :: above) store :=
    (carries_start combine hlevels).runLevels identified valid hbelow
  have hcovers : Timetable.Covers level.size (before ++ rest) := hevents ▸ valid below.length level.size
  exact ⟨store, before, hcarries.served, hcovers,
    (underway_start hcarries.sound level).foldlM identified hcarries.served hcovers hp⟩

theorem Reaches.ready (h : Reaches combine timetable root level p rest) {n : Expr α} (hn : n ∈ level) :
    Ready combine p.store n := by
  obtain ⟨_, _, hserved, _, hunderway⟩ := h.underway identified valid
  exact hunderway.ready hserved hn

theorem Reaches.results (h : Reaches combine timetable root level p []) {place : Nat} {n : Expr α}
    (hn : level[place]? = some n) : (p.results[place]?).join = some (n.foldChildren combine) := by
  obtain ⟨_, before, _, hcovers, hunderway⟩ := h.underway identified valid
  rw [List.append_nil] at hcovers
  have hran := hcovers.run_mem (Array.getElem?_eq_some_iff.1 hn).1
  rw [hunderway.results place n hn, if_pos hran]

/-- Where all nodes have values, the pool gets everywhere. -/
theorem exists_reaches (ok : ∀ n ∈ root.postorder, ∃ a, n.foldChildren combine = .ok a)
    {below above : List (Array (Expr α))} (hlevels : root.levels.toList = below ++ level :: above)
    {before : List PoolEvent} (hevents : timetable below.length level.size = before ++ rest) :
    ∃ p, Reaches combine timetable root level p rest := by
  have hstart : Carries combine root [] (below ++ level :: above) (.start root.levels) := carries_start combine hlevels
  have hbelow : foldEach combine (below.flatMap (·.toList)) = .ok () :=
    foldEach_levels ok (hlevels ▸ List.subset_append_left ..)
  obtain ⟨store, hstore⟩ := exists_of_discard ((hstart.discard_runLevels identified valid).trans hbelow)
  have hcarries : Carries combine root below (level :: above) store := hstart.runLevels identified valid hstore
  have hcovers : Timetable.Covers level.size (before ++ rest) := hevents ▸ valid below.length level.size
  have hlevel : foldEach combine level.toList = .ok () :=
    foldEach_eq_ok fun n hn => ok n ((mem_level hlevels).1 (Array.mem_toList_iff.1 hn)).1
  obtain ⟨q, hq⟩ := exists_of_discard
    ((discard_events identified hcarries.served hcarries.sound hcovers).trans hlevel)
  rw [List.foldlM_append] at hq
  obtain ⟨p, hp, _⟩ := exists_of_bind_eq_ok hq
  exact ⟨p, below, above, store, before, hlevels, hstore, hevents, hp⟩

end Reaches

end Pool
end MatrixChain
