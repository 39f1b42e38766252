import MatrixChain.Proofs.ChildFold
import MatrixChain.Proofs.Postorder
import MatrixChain.Proofs.Store
import MatrixChain.Proofs.Timetable

/-!
# One level in the pool

From a store that has the values of all operands, the tasks of a level come to what folding the trees of its nodes comes
to, in whatever order they run. The invariant goes from event to event; nothing that is stored for the tree is lost or
replaced by another value before the level is released.
-/

namespace MatrixChain

open MatrixChain.Expr

namespace Pool

variable {α β : Type} (combine : Expr α → List β → Except Fault β) (root : Expr α)

/-- The task of a node finds the value of each operand. -/
def Ready (store : Store β) (n : Expr α) : Prop :=
  ∀ c ∈ n.children, ∃ a, store.values[c.id]? = some a ∧ c.foldChildren combine = .ok a

/-- What is stored for a node of the tree is its value. -/
def Sound (store : Store β) : Prop :=
  ∀ n ∈ root.postorder, ∀ a, store.values[n.id]? = some a → n.foldChildren combine = .ok a

variable {combine root}

theorem exists_of_bind_eq_ok {γ δ : Type} {x : Except Fault γ} {f : γ → Except Fault δ} {b : δ}
    (h : x >>= f = .ok b) : ∃ a, x = .ok a ∧ f a = .ok b := by
  cases x with
  | error fault => cases h
  | ok a => exact ⟨a, rfl, h⟩

theorem attempt_eq (x : Except Fault β) : (attempt x : Except Fault (Except Fault β)) = .ok x := by
  cases x <;> rfl

theorem mapM_congr {γ : Type} {f g : γ → Except Fault β} {items : List γ} (h : ∀ item ∈ items, f item = g item) :
    items.mapM f = items.mapM g := by
  induction items with
  | nil => rfl
  | cons item items ih =>
    rw [List.mapM_cons, List.mapM_cons, h item List.mem_cons_self,
      ih fun item' h' => h item' (List.mem_cons_of_mem item h')]

theorem Ready.task_eq {store : Store β} {n : Expr α} (h : Ready combine store n) :
    task combine store n = n.foldChildren combine := by
  rw [foldChildren_eq, task]
  refine congrArg (· >>= combine n) (mapM_congr fun c hc => ?_)
  obtain ⟨a, hstored, hvalue⟩ := h c hc
  rw [hvalue, Store.value, hstored]
  rfl

theorem Sound.put {store : Store β} (h : Sound combine root store) (identified : Identified root.postorder)
    {n : Expr α} (hn : n ∈ root.postorder) {a : β} (ha : n.foldChildren combine = .ok a) :
    Sound combine root (store.put n.id a) := by
  intro n' hn' a' ha'
  rw [Store.values_put] at ha'
  by_cases hid : n.id = n'.id
  · rw [if_pos hid] at ha'
    rw [← identified n hn n' hn' hid, ← Option.some.inj ha']
    exact ha
  · rw [if_neg hid] at ha'
    exact h n' hn' a' ha'

variable (combine) in
/-- Fold the nodes one by one, of which there is nothing left but the first fault. -/
def foldEach (nodes : List (Expr α)) : Except Fault Unit :=
  forM nodes fun n => discard (n.foldChildren combine)

theorem foldEach_eq_ok {nodes : List (Expr α)} (h : ∀ n ∈ nodes, ∃ a, n.foldChildren combine = .ok a) :
    foldEach combine nodes = .ok () := by
  induction nodes with
  | nil => rfl
  | cons n nodes ih =>
    obtain ⟨a, ha⟩ := h n List.mem_cons_self
    rw [foldEach, List.forM_cons, ha]
    exact ih fun n' hn' => h n' (List.mem_cons_of_mem n hn')

/-- The nodes of a level are nodes of the tree, whose operands have their values stored. -/
def Served (root : Expr α) (store : Store β) (level : Array (Expr α)) : Prop :=
  ∀ n ∈ level, n ∈ root.postorder ∧ ∀ c ∈ n.children, c.id ∈ store.values

variable (combine root) in
/-- Within a level that began with `store`, after `events`: no use has been spent and no value dropped, the results are
those of the tasks that ran, and what was collected is stored. -/
structure Underway (store : Store β) (level : Array (Expr α)) (events : List PoolEvent) (p : Progress β) : Prop where
  pending : p.store.pending = store.pending
  kept : ∀ id ∈ store.values, id ∈ p.store.values
  sound : Sound combine root p.store
  size : p.results.size = level.size
  results : ∀ place n, level[place]? = some n →
    (p.results[place]?).join = if .run place ∈ events then some (n.foldChildren combine) else none
  collected : p.collected = events.count .collect
  stored : ∀ place n, level[place]? = some n → place < p.collected → n.id ∈ p.store.values

theorem underway_start {store : Store β} (sound : Sound combine root store) (level : Array (Expr α)) :
    Underway combine root store level [] (.start store level.size) where
  pending := rfl
  kept _ h := h
  sound := sound
  size := Array.size_replicate
  results place n hn := by
    have hlt := (Array.getElem?_eq_some_iff.1 hn).1
    simp [Progress.start, hlt]
  collected := rfl
  stored _ _ _ h := absurd h (Nat.not_lt_zero _)

section Level

variable {store : Store β} {level : Array (Expr α)} {events : List PoolEvent} {p : Progress β}

theorem Underway.ready (h : Underway combine root store level events p) (served : Served root store level)
    {n : Expr α} (hn : n ∈ level) : Ready combine p.store n := by
  intro c hc
  obtain ⟨hnode, hoperands⟩ := served n hn
  have hstored := Std.HashMap.getElem?_eq_some_getElem (h.kept c.id (hoperands c hc))
  exact ⟨_, hstored, h.sound c (mem_postorder_of_mem_children hnode hc) _ hstored⟩

/-- A task that runs has the value of its node as its result. -/
theorem Underway.step_run (h : Underway combine root store level events p) (served : Served root store level)
    {place : Nat} {n : Expr α} (hn : level[place]? = some n) : p.step combine level (.run place) =
      .ok { p with results := p.results.setIfInBounds place (some (n.foldChildren combine)) } := by
  simp only [Progress.step, hn, attempt_eq, (h.ready served (Array.mem_of_getElem? hn)).task_eq]
  rfl

theorem Underway.run (h : Underway combine root store level events p) {place : Nat} {n : Expr α}
    (hn : level[place]? = some n) : Underway combine root store level (events ++ [.run place])
      { p with results := p.results.setIfInBounds place (some (n.foldChildren combine)) } := by
  have hlt : place < p.results.size := by
    rw [h.size]
    exact (Array.getElem?_eq_some_iff.1 hn).1
  refine { h with size := by simp [h.size], results := fun place' n' hn' => ?_, collected := by simp [h.collected] }
  simp only [Array.getElem?_setIfInBounds]
  by_cases hsame : place = place'
  · subst hsame
    rw [hn] at hn'
    cases hn'
    simp [hlt]
  · have hne : ¬ place' = place := fun h => hsame h.symm
    simp [hsame, hne, h.results place' n' hn']

theorem Underway.run_none (h : Underway combine root store level events p) {place : Nat} (hn : level[place]? = none) :
    Underway combine root store level (events ++ [.run place]) p := by
  refine { h with results := fun place' n' hn' => ?_, collected := by simp [h.collected] }
  have hne : place' ≠ place := by
    rintro rfl
    rw [hn] at hn'
    cases hn'
  simp [h.results place' n' hn', hne]

theorem Underway.step_collect (h : Underway combine root store level events p) (ran : .run p.collected ∈ events)
    {n : Expr α} (hn : level[p.collected]? = some n) : p.step combine level .collect =
      n.foldChildren combine >>= fun a =>
        .ok { p with store := p.store.put n.id a, collected := p.collected + 1 } := by
  have hresult := h.results p.collected n hn
  rw [if_pos ran] at hresult
  simp only [Progress.step, hn, hresult]
  cases n.foldChildren combine <;> rfl

theorem Underway.collect (h : Underway combine root store level events p)
    (identified : Identified root.postorder) {n : Expr α} (hn : level[p.collected]? = some n) (hnode : n ∈ root.postorder)
    {a : β} (ha : n.foldChildren combine = .ok a) :
    Underway combine root store level (events ++ [.collect])
      { p with store := p.store.put n.id a, collected := p.collected + 1 } := by
  have hput : ∀ id, id ∈ p.store.values → id ∈ (p.store.put n.id a).values := fun id hid =>
    Std.HashMap.mem_insert.2 (Or.inr hid)
  constructor
  · exact h.pending
  · exact fun id hid => hput id (h.kept id hid)
  · exact h.sound.put identified hnode ha
  · exact h.size
  · intro place n' hn'
    simp [h.results place n' hn']
  · simp [h.collected]
  · intro place n' hn' hplace
    rcases Nat.lt_succ_iff_lt_or_eq.1 hplace with hplace | rfl
    · exact hput n'.id (h.stored place n' hn' hplace)
    · rw [hn] at hn'
      cases hn'
      exact Std.HashMap.mem_insert_self

theorem Underway.inTurn (h : Underway combine root store level events p) {after : List PoolEvent}
    (covers : Timetable.Covers level.size (events ++ .collect :: after)) :
    .run p.collected ∈ events ∧ p.collected < level.size := by
  rw [h.collected]
  exact ⟨covers.inTurn events after rfl, covers.collect_lt rfl⟩

variable (identified : Identified root.postorder) (served : Served root store level)
include identified served

/-- Every event that goes well keeps the invariant. -/
theorem Underway.next (h : Underway combine root store level events p) {event : PoolEvent}
    (inTurn : event = .collect → .run p.collected ∈ events ∧ p.collected < level.size) {q : Progress β}
    (hq : p.step combine level event = .ok q) : Underway combine root store level (events ++ [event]) q := by
  cases event with
  | run place =>
    cases hn : level[place]? with
    | none =>
      simp only [Progress.step, hn] at hq
      cases hq
      exact h.run_none hn
    | some n =>
      rw [h.step_run served hn] at hq
      cases hq
      exact h.run hn
  | collect =>
    obtain ⟨ran, hlt⟩ := inTurn rfl
    have hn : level[p.collected]? = some level[p.collected] := Array.getElem?_eq_getElem hlt
    rw [h.step_collect ran hn] at hq
    obtain ⟨a, ha, hq⟩ := exists_of_bind_eq_ok hq
    cases hq
    exact h.collect identified hn (served _ (Array.getElem_mem hlt)).1 ha

theorem Underway.foldlM (h : Underway combine root store level events p) {more after : List PoolEvent}
    (covers : Timetable.Covers level.size (events ++ more ++ after)) {q : Progress β}
    (hq : more.foldlM (Progress.step combine level) p = .ok q) :
    Underway combine root store level (events ++ more) q := by
  induction more generalizing events p with
  | nil =>
    cases hq
    rwa [List.append_nil]
  | cons event more ih =>
    have hsplit : events ++ event :: more = (events ++ [event]) ++ more := by simp
    rw [hsplit] at covers ⊢
    rw [List.foldlM_cons] at hq
    obtain ⟨p', hp', hq⟩ := exists_of_bind_eq_ok hq
    refine ih (h.next identified served (fun hevent => ?_) hp') covers hq
    subst hevent
    rw [List.append_assoc, List.append_assoc] at covers
    exact h.inTurn covers

/-- The rest of the events collects the rest of the level, up to the first fault. -/
theorem Underway.discard_foldlM (h : Underway combine root store level events p) {after : List PoolEvent}
    (covers : Timetable.Covers level.size (events ++ after)) :
    discard (after.foldlM (Progress.step combine level) p) = foldEach combine (level.toList.drop p.collected) := by
  induction after generalizing events p with
  | nil =>
    rw [List.append_nil] at covers
    have hall : level.toList.length ≤ p.collected := by
      rw [h.collected, covers.collects]
      exact Nat.le_refl _
    rw [List.drop_eq_nil_of_le hall]
    rfl
  | cons event after ih =>
    have covers' : Timetable.Covers level.size ((events ++ [event]) ++ after) := by
      rwa [List.append_assoc]
    rw [List.foldlM_cons]
    cases event with
    | run place =>
      cases hn : level[place]? with
      | none =>
        simp only [Progress.step, hn]
        exact ih (h.run_none hn) covers'
      | some n =>
        rw [h.step_run served hn]
        exact ih (h.run hn) covers'
    | collect =>
      obtain ⟨ran, hlt⟩ := h.inTurn covers
      have hn : level[p.collected]? = some level[p.collected] := Array.getElem?_eq_getElem hlt
      rw [h.step_collect ran hn, List.drop_eq_getElem_cons hlt, foldEach, List.forM_cons, Array.getElem_toList]
      cases ha : level[p.collected].foldChildren combine with
      | error fault => rfl
      | ok a => exact ih (h.collect identified hn (served _ (Array.getElem_mem hlt)).1 ha) covers'

theorem discard_events (sound : Sound combine root store) (covers : Timetable.Covers level.size events) :
    discard (events.foldlM (Progress.step combine level) (.start store level.size)) = foldEach combine level.toList :=
  (underway_start sound level).discard_foldlM identified served covers

end Level

end Pool
end MatrixChain
