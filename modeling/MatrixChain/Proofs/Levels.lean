import MatrixChain.Evaluation.Levels
import MatrixChain.Proofs.ChildFold
import MatrixChain.Proofs.Postorder

/-!
# Nodes by height

The level of a height has the nodes of that height, in post-order. A fold that enters the nodes one after the other
always finds the level of a node or is to add it on top, since the operands of the node are there already.
-/

namespace MatrixChain
namespace Expr

variable {α : Type}

/-- The length of the longest way down to a node without operands. -/
def height : Expr α → Nat
  | product _ left right _ => max left.height right.height + 1
  | sum _ left right _ => max left.height right.height + 1
  | _ => 0

theorem heightAbove_children (e : Expr α) : heightAbove (e.children.map height) = e.height := by
  cases e <;> simp [children, height, heightAbove, List.max?]

theorem height_lt_of_mem_children {e c : Expr α} (h : c ∈ e.children) : c.height < e.height := by
  cases e <;> simp only [children, List.mem_cons, List.not_mem_nil, or_false] at h <;>
    rcases h with rfl | rfl <;> simp only [height] <;> omega

theorem height_lt_of_mem_postorder {e n : Expr α} (h : n ∈ e.postorder) : n = e ∨ n.height < e.height := by
  induction e using childrenInduction with
  | node e ih =>
    rcases mem_postorder_iff.1 h with rfl | ⟨c, hc, hn⟩
    · exact Or.inl rfl
    · have hlt := height_lt_of_mem_children hc
      rcases ih c hc hn with rfl | hn
      · exact Or.inr hlt
      · exact Or.inr (Nat.lt_trans hn hlt)

theorem height_le_of_mem_postorder {e n : Expr α} (h : n ∈ e.postorder) : n.height ≤ e.height := by
  rcases height_lt_of_mem_postorder h with rfl | h
  · exact Nat.le_refl _
  · exact Nat.le_of_lt h

def levelAt (nodes : List (Expr α)) (h : Nat) : Array (Expr α) :=
  (nodes.filter fun n => n.height == h).toArray

theorem mem_levelAt {nodes : List (Expr α)} {h : Nat} {n : Expr α} :
    n ∈ levelAt nodes h ↔ n ∈ nodes ∧ n.height = h := by
  simp [levelAt]

theorem levelAt_append_singleton (nodes : List (Expr α)) (h : Nat) (n : Expr α) :
    levelAt (nodes ++ [n]) h = if n.height = h then (levelAt nodes h).push n else levelAt nodes h := by
  by_cases hn : n.height = h <;> simp [levelAt, List.filter_append, hn]

def levelsOf (nodes : List (Expr α)) (count : Nat) : Levels α :=
  Array.ofFn fun h : Fin count => levelAt nodes h

@[simp] theorem size_levelsOf (nodes : List (Expr α)) (count : Nat) : (levelsOf nodes count).size = count :=
  Array.size_ofFn

@[simp] theorem getElem_levelsOf (nodes : List (Expr α)) {count h : Nat} (hh : h < (levelsOf nodes count).size) :
    (levelsOf nodes count)[h] = levelAt nodes h := by
  simp [levelsOf]

theorem push_levelsOf {nodes : List (Expr α)} {count : Nat} (lower : ∀ n ∈ nodes, n.height < count) :
    (levelsOf nodes count).push #[] = levelsOf nodes (count + 1) := by
  have hempty : levelAt nodes count = #[] := by
    rw [levelAt, List.filter_eq_nil_iff.2 fun n hn => by simpa using Nat.ne_of_lt (lower n hn)]
  rw [levelsOf, levelsOf, Array.ofFn_succ]
  simp [hempty]

/-- A node goes to the end of its level, which is there or comes on top. -/
theorem insert_levelsOf {nodes : List (Expr α)} {count : Nat} {n : Expr α}
    (lower : ∀ n ∈ nodes, n.height < count) (h : n.height ≤ count) :
    (levelsOf nodes count).insert n.height n = levelsOf (nodes ++ [n]) (max count (n.height + 1)) := by
  have hmodify : ∀ c, (levelsOf nodes c).modify n.height (·.push n) = levelsOf (nodes ++ [n]) c := by
    intro c
    refine Array.ext (by simp) fun i hi hi' => ?_
    rw [Array.getElem_modify, getElem_levelsOf, getElem_levelsOf, levelAt_append_singleton]
  unfold Levels.insert
  simp only [size_levelsOf]
  by_cases htop : n.height = count
  · rw [if_pos htop, push_levelsOf lower, hmodify, htop, Nat.max_eq_right (Nat.le_succ count)]
  · rw [if_neg htop, hmodify, Nat.max_eq_left (by omega)]

theorem lower_append {nodes : List (Expr α)} {count : Nat} (lower : ∀ n ∈ nodes, n.height < count) (e : Expr α) :
    ∀ n ∈ nodes ++ e.postorder, n.height < max count (e.height + 1) := by
  intro n hn
  rcases List.mem_append.1 hn with hn | hn
  · have h := lower n hn
    omega
  · rcases height_lt_of_mem_postorder hn with rfl | h <;> omega

section Entering

variable {m : Type → Type} [Monad m]

/-- Into the levels of lower nodes, `enter` puts a node for which there is a level or which comes on top. -/
def Places (enter : Expr α → List Nat → StateT (Levels α) m Nat) : Prop :=
  ∀ (n : Expr α) (nodes : List (Expr α)) (count : Nat), (∀ n ∈ nodes, n.height < count) → n.height ≤ count →
    (enter n (n.children.map height)).run (levelsOf nodes count) =
      pure (n.height, levelsOf (nodes ++ [n]) (max count (n.height + 1)))

/-- Folded into the levels of lower nodes, the tree enters its nodes in post-order and answers its height. -/
def Enters (enter : Expr α → List Nat → StateT (Levels α) m Nat) (e : Expr α) : Prop :=
  ∀ (nodes : List (Expr α)) (count : Nat), (∀ n ∈ nodes, n.height < count) →
    (e.foldChildren enter).run (levelsOf nodes count) =
      pure (e.height, levelsOf (nodes ++ e.postorder) (max count (e.height + 1)))

variable [LawfulMonad m] {enter : Expr α → List Nat → StateT (Levels α) m Nat} (places : Places enter)
include places

theorem Places.enters_of_no_children {e : Expr α} (h : e.children = []) : Enters enter e := by
  intro nodes count lower
  have hheight : e.height = 0 := by rw [← heightAbove_children, h]; rfl
  have hpost : e.postorder = [e] := by rw [postorder_eq, h]; rfl
  have hplaced := places e nodes count lower (hheight ▸ Nat.zero_le count)
  rw [h] at hplaced
  rw [foldChildren_eq, h, hpost, List.mapM_nil, pure_bind]
  exact hplaced

theorem Places.enters_of_pair {e left right : Expr α} (h : e.children = [left, right]) (hl : Enters enter left)
    (hr : Enters enter right) : Enters enter e := by
  intro nodes count lower
  have hheight : e.height = max left.height right.height + 1 := by
    rw [← heightAbove_children, h]; rfl
  have hpost : e.postorder = left.postorder ++ right.postorder ++ [e] := by
    rw [postorder_eq, h]; simp
  have hlower := lower_append (lower_append lower left) right
  have hplaced := places e _ _ hlower (by omega)
  have hcount : max (max (max count (left.height + 1)) (right.height + 1)) (e.height + 1) =
      max count (e.height + 1) := by omega
  rw [hcount, h] at hplaced
  have hleft := hl nodes count lower
  have hright := hr _ _ (lower_append lower left)
  rw [foldChildren_eq, h, hpost, ← List.append_assoc, ← List.append_assoc, ← hplaced]
  simp only [List.mapM_cons, List.mapM_nil, bind_assoc, pure_bind, StateT.run_bind, hleft, hright]
  rfl

theorem Places.enters (e : Expr α) : Enters enter e := by
  induction e with
  | leaf id matrix label => exact places.enters_of_no_children rfl
  | product id left right shape ihl ihr => exact places.enters_of_pair rfl ihl ihr
  | sum id left right shape ihl ihr => exact places.enters_of_pair rfl ihl ihr
  | foreign node => exact places.enters_of_no_children rfl

theorem Places.foldChildren_run (e : Expr α) :
    (e.foldChildren enter).run #[] = pure (e.height, levelsOf e.postorder (e.height + 1)) := by
  have h := places.enters e [] 0 (List.forall_mem_nil _)
  rwa [Nat.zero_max, List.nil_append] at h

end Entering

theorem places_enterLevel : Places (enterLevel : Expr α → List Nat → StateM (Levels α) Nat) := by
  intro n nodes count lower h
  rw [← insert_levelsOf lower h, ← heightAbove_children]
  rfl

/-- There is a level for each height up to that of the root. -/
theorem levels_eq (e : Expr α) : e.levels = levelsOf e.postorder (e.height + 1) :=
  congrArg Prod.snd (places_enterLevel.foldChildren_run e)

/-- The nodes lower than `count`, the lowest first, and those of one height in order. -/
def sortedByHeight (nodes : List (Expr α)) (count : Nat) : List (Expr α) :=
  (List.range count).flatMap fun h => nodes.filter (·.height == h)

theorem sortedByHeight_succ (nodes : List (Expr α)) (count : Nat) :
    sortedByHeight nodes (count + 1) = sortedByHeight nodes count ++ nodes.filter (·.height == count) := by
  simp [sortedByHeight, List.range_succ]

theorem mem_sortedByHeight {nodes : List (Expr α)} {count : Nat} {n : Expr α} :
    n ∈ sortedByHeight nodes count ↔ n ∈ nodes ∧ n.height < count := by
  simp [sortedByHeight, and_comm]

theorem sortedByHeight_perm (nodes : List (Expr α)) (count : Nat) :
    (sortedByHeight nodes count).Perm (nodes.filter (·.height < count)) := by
  induction count with
  | zero => simp [sortedByHeight]
  | succ count ih =>
    have hlower : (nodes.filter (·.height < count + 1)).filter (·.height < count) = nodes.filter (·.height < count) := by
      rw [List.filter_filter]
      exact List.filter_congr fun n _ => by simp; omega
    have htop : (nodes.filter (·.height < count + 1)).filter (fun n => !decide (n.height < count)) =
        nodes.filter (·.height == count) := by
      rw [List.filter_filter]
      exact List.filter_congr fun n _ => by rw [Bool.eq_iff_iff]; simp; omega
    have hsplit := List.filter_append_perm (fun n : Expr α => n.height < count) (nodes.filter (·.height < count + 1))
    rw [hlower, htop] at hsplit
    rw [sortedByHeight_succ]
    exact (ih.append_right _).trans hsplit

theorem toList_levelsOf (nodes : List (Expr α)) (count : Nat) :
    (levelsOf nodes count).toList = (List.range count).map (levelAt nodes) := by
  apply List.ext_getElem
  · simp
  · intro h hlt _
    simp

/-- The levels have all nodes of the tree, the lowest first. -/
theorem flatMap_levels (e : Expr α) :
    e.levels.toList.flatMap (·.toList) = sortedByHeight e.postorder (e.height + 1) := by
  rw [levels_eq, toList_levelsOf, List.flatMap_map]
  rfl

theorem flatMap_levels_perm (e : Expr α) : (e.levels.toList.flatMap (·.toList)).Perm e.postorder := by
  have hall : e.postorder.filter (·.height < e.height + 1) = e.postorder :=
    List.filter_eq_self.2 fun n hn => decide_eq_true (Nat.lt_succ_of_le (height_le_of_mem_postorder hn))
  have hperm := sortedByHeight_perm e.postorder (e.height + 1)
  rwa [hall, ← flatMap_levels] at hperm

end Expr
end MatrixChain
