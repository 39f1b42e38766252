import MatrixChain.Proofs.Levels
import MatrixChain.Proofs.Strategies
import Mathlib.Order.Bounds.Basic

/-!
# The levels as a schedule

Entering the nodes of a tree never looks for a level that is not there. Taken one after the other, the levels have every
place of the tree once and each node after its operands, as early as these allow.
-/

namespace MatrixChain
namespace Expr

variable {α : Type}

/-- There is a way of so many steps down from a node to one without operands. -/
inductive Descends : Expr α → Nat → Prop where
  | bottom {e : Expr α} (h : e.children = []) : Descends e 0
  | step {e c : Expr α} {steps : Nat} (hc : c ∈ e.children) (h : Descends c steps) : Descends e (steps + 1)

theorem exists_child_height {e : Expr α} (h : 0 < e.height) : ∃ c ∈ e.children, c.height + 1 = e.height := by
  have hpair : ∀ left right : Expr α, ∃ c ∈ [left, right], c.height + 1 = max left.height right.height + 1 := by
    intro left right
    rcases Nat.le_total left.height right.height with hle | hle
    · exact ⟨right, by simp, by rw [Nat.max_eq_right hle]⟩
    · exact ⟨left, by simp, by rw [Nat.max_eq_left hle]⟩
  cases e with
  | leaf id matrix label => exact absurd h (Nat.lt_irrefl 0)
  | product id left right shape => exact hpair left right
  | sum id left right shape => exact hpair left right
  | foreign node => exact absurd h (Nat.lt_irrefl 0)

theorem children_eq_nil_iff {e : Expr α} : e.children = [] ↔ e.height = 0 := by
  cases e <;> simp [children, height]

theorem Descends.le_height {e : Expr α} {steps : Nat} (h : Descends e steps) : steps ≤ e.height := by
  induction h with
  | bottom => exact Nat.zero_le _
  | step hc _ ih => exact Nat.lt_of_le_of_lt ih (height_lt_of_mem_children hc)

theorem descends_height (e : Expr α) : Descends e e.height := by
  induction e using childrenInduction with
  | node e ih =>
    rcases Nat.eq_zero_or_pos e.height with hzero | hpos
    · rw [hzero]
      exact .bottom (children_eq_nil_iff.2 hzero)
    · obtain ⟨c, hc, hheight⟩ := exists_child_height hpos
      rw [← hheight]
      exact .step hc (ih c hc)

/-- The height of a node is the longest way down from it. -/
theorem isGreatest_height (e : Expr α) : IsGreatest {steps | Descends e steps} e.height :=
  ⟨e.descends_height, fun _ h => h.le_height⟩

theorem exists_mem_postorder_height {e : Expr α} {h : Nat} (hle : h ≤ e.height) : ∃ n ∈ e.postorder, n.height = h := by
  induction e using childrenInduction with
  | node e ih =>
    rcases Nat.lt_or_eq_of_le hle with hlt | rfl
    · obtain ⟨c, hc, hheight⟩ := exists_child_height (Nat.zero_lt_of_lt hlt)
      obtain ⟨n, hn, rfl⟩ := ih c hc (by omega)
      exact ⟨n, mem_postorder_iff.2 (Or.inr ⟨c, hc, hn⟩), rfl⟩
    · exact ⟨e, e.mem_postorder_self, rfl⟩

theorem getElem?_levels (e : Expr α) (h : Nat) :
    e.levels[h]? = if h ≤ e.height then some (levelAt e.postorder h) else none := by
  rw [levels_eq]
  split
  · rw [Array.getElem?_eq_getElem (by simp; omega), getElem_levelsOf]
  · rw [Array.getElem?_eq_none (by simp; omega)]

def OnLevel (e n : Expr α) (h : Nat) : Prop :=
  ∃ level, e.levels[h]? = some level ∧ n ∈ level

theorem onLevel_iff {e n : Expr α} {h : Nat} : e.OnLevel n h ↔ n ∈ e.postorder ∧ n.height = h := by
  simp only [OnLevel, getElem?_levels]
  constructor
  · rintro ⟨level, hlevel, hn⟩
    split at hlevel
    · cases hlevel
      exact mem_levelAt.1 hn
    · cases hlevel
  · rintro ⟨hn, rfl⟩
    rw [if_pos (height_le_of_mem_postorder hn)]
    exact ⟨_, rfl, mem_levelAt.2 ⟨hn, rfl⟩⟩

theorem levelAt_height (e : Expr α) : levelAt e.postorder e.height = #[e] := by
  have hlower : ∀ n ∈ e.children.flatMap postorder, ¬(n.height == e.height) := by
    intro n hn
    obtain ⟨c, hc, hn⟩ := List.mem_flatMap.1 hn
    have hlt := Nat.lt_of_le_of_lt (height_le_of_mem_postorder hn) (height_lt_of_mem_children hc)
    simpa using Nat.ne_of_lt hlt
  rw [levelAt, postorder_eq, List.filter_append, List.filter_eq_nil_iff.2 hlower]
  simp

/-- Put a node on its level and answer its height, and fail where that level is out of range. -/
def enterInRange (e : Expr α) (operandHeights : List Nat) : StateT (Levels α) Option Nat := fun levels =>
  let height := heightAbove operandHeights
  let opened := if height = levels.size then levels.push #[] else levels
  if height < opened.size then some (height, opened.modify height (·.push e)) else none

theorem places_enterInRange : Places (enterInRange : Expr α → List Nat → StateT (Levels α) Option Nat) := by
  intro n nodes count lower h
  rw [← insert_levelsOf lower h]
  simp only [StateT.run, enterInRange, heightAbove_children, Levels.insert]
  rw [if_pos]
  · rfl
  · rw [size_levelsOf]
    split
    · simp; omega
    · simp; omega

/-- Every node finds its level in range when it is entered. There is one level more than the root is high, none of them is
empty, and the last has the root alone. The level of a height has the places of the nodes from which the longest way down
is that high, in post-order, so together the levels have each place of the tree once, and one node at several places is
always on one level. The operands of a node are on lower levels, one of them on the next. -/
theorem levels_schedule (e : Expr α) :
    (e.foldChildren enterInRange).run #[] = some (e.height, e.levels) ∧
    e.levels.size = e.height + 1 ∧ e.levels[e.height]? = some #[e] ∧
    (∀ h level, e.levels[h]? = some level →
      level ≠ #[] ∧ level.toList = e.postorder.filter fun n => n.height == h) ∧
    (∀ n : Expr α, IsGreatest {steps | Descends n steps} n.height) ∧
    (e.levels.toList.flatMap (·.toList)).Perm e.postorder ∧
    (Identified e.postorder → ∀ n n' h h', e.OnLevel n h → e.OnLevel n' h' → n.id = n'.id → h = h') ∧
    ∀ n h, e.OnLevel n h →
      (∀ c ∈ n.children, ∃ below < h, e.OnLevel c below) ∧ (0 < h → ∃ c ∈ n.children, e.OnLevel c (h - 1)) := by
  refine ⟨?_, ?_, ?_, fun h level hlevel => ?_, isGreatest_height, e.flatMap_levels_perm,
    fun identified n n' h h' hn hn' hid => ?_, fun n h hn => ⟨fun c hc => ?_, fun hpos => ?_⟩⟩
  · rw [levels_eq]
    exact places_enterInRange.foldChildren_run e
  · rw [levels_eq, size_levelsOf]
  · rw [getElem?_levels, if_pos (Nat.le_refl _), levelAt_height]
  · rw [getElem?_levels] at hlevel
    split at hlevel
    · next hle =>
      cases hlevel
      obtain ⟨n, hn, hheight⟩ := exists_mem_postorder_height hle
      exact ⟨Array.ne_empty_of_mem (mem_levelAt.2 ⟨hn, hheight⟩), rfl⟩
    · cases hlevel
  · obtain ⟨hmem, rfl⟩ := onLevel_iff.1 hn
    obtain ⟨hmem', rfl⟩ := onLevel_iff.1 hn'
    rw [identified n hmem n' hmem' hid]
  · obtain ⟨hmem, rfl⟩ := onLevel_iff.1 hn
    exact ⟨c.height, height_lt_of_mem_children hc, onLevel_iff.2 ⟨mem_postorder_of_mem_children hmem hc, rfl⟩⟩
  · obtain ⟨hmem, rfl⟩ := onLevel_iff.1 hn
    obtain ⟨c, hc, hheight⟩ := exists_child_height hpos
    exact ⟨c, hc, onLevel_iff.2 ⟨mem_postorder_of_mem_children hmem hc, by omega⟩⟩

theorem levels_schedule_of_sharedSum :
    Identified sharedSum.postorder ∧ (sharedSum.foldChildren enterInRange).run #[] = some (3, sharedSum.levels) ∧
    sharedSum.levels.toList.map (fun level => level.toList.map Expr.id) = [[0, 1, 0, 0, 1], [2, 2], [3], [4]] ∧
    sharedSum.OnLevel twosProduct 1 ∧ (∀ h, sharedSum.OnLevel twosProduct h → h = 1) ∧
    ∃ c ∈ twosProduct.children, sharedSum.OnLevel c 0 := by
  have hidentified : Identified sharedSum.postorder := session_sharedSum.identified List.mem_cons_self
  obtain ⟨hrange, _, _, _, _, _, hsame, hbelow⟩ := levels_schedule sharedSum
  have hids : sharedSum.levels.toList.map (fun level => level.toList.map Expr.id) =
      [[0, 1, 0, 0, 1], [2, 2], [3], [4]] := by
    rw [levels_eq]
    decide
  have hmem : twosProduct ∈ sharedSum.postorder :=
    mem_postorder_of_mem_children sharedSum.mem_postorder_self (by simp [sharedSum, children])
  have hproduct : sharedSum.OnLevel twosProduct 1 := onLevel_iff.2 ⟨hmem, rfl⟩
  exact ⟨hidentified, hrange, hids, hproduct, fun h hh => hsame hidentified _ _ _ _ hh hproduct rfl,
    (hbelow twosProduct 1 hproduct).2 Nat.zero_lt_one⟩

end Expr
end MatrixChain
