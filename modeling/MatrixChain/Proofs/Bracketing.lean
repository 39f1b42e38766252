import MatrixChain.Chain.Tableau

/-!
# Bracketings

An association of a chain as a binary tree over the numbers of its operands, what it costs over given boundaries,
what comes of it when operands and joins are given a meaning, and the bracketing that a split table describes.
-/

namespace MatrixChain

inductive Bracketing where
  | operand (i : Nat)
  | join (left right : Bracketing)
deriving DecidableEq

namespace Bracketing

/-- The operands from `first` to `last`, each of them once and in order. -/
inductive Spans : Bracketing → Nat → Nat → Prop where
  | operand (i : Nat) : Spans (.operand i) i i
  | join {left right : Bracketing} {first split last : Nat} (hl : left.Spans first split)
      (hr : right.Spans (split + 1) last) : Spans (.join left right) first last

def first : Bracketing → Nat
  | operand i => i
  | join left _ => left.first

def last : Bracketing → Nat
  | operand i => i
  | join _ right => right.last

/-- Scalar multiplications of all joins, over the boundaries of the chain. -/
def cost (dimensions : Array Int) : Bracketing → Int
  | operand _ => 0
  | join left right =>
    left.cost dimensions + right.cost dimensions + Chain.joinWork dimensions left.first left.last right.last

theorem Spans.first_eq {b : Bracketing} {i j : Nat} (h : b.Spans i j) : b.first = i := by
  induction h with
  | operand => rfl
  | join _ _ ihl _ => exact ihl

theorem Spans.last_eq {b : Bracketing} {i j : Nat} (h : b.Spans i j) : b.last = j := by
  induction h with
  | operand => rfl
  | join _ _ _ ihr => exact ihr

theorem Spans.le {b : Bracketing} {i j : Nat} (h : b.Spans i j) : i ≤ j := by
  induction h with
  | operand => exact Nat.le_refl _
  | join _ _ ihl ihr => omega

theorem Spans.cost_join {left right : Bracketing} {i k j : Nat} (hl : left.Spans i k)
    (hr : right.Spans (k + 1) j) (dimensions : Array Int) :
    (Bracketing.join left right).cost dimensions =
      left.cost dimensions + right.cost dimensions + Chain.joinWork dimensions i k j := by
  rw [Bracketing.cost, hl.first_eq, hl.last_eq, hr.last_eq]

theorem cost_nonneg {dimensions : Array Int} (sound : ∀ i, 0 ≤ Chain.boundary dimensions i) (b : Bracketing) :
    0 ≤ b.cost dimensions := by
  induction b with
  | operand i => exact Int.le_refl _
  | join left right ihl ihr =>
    have hwork : 0 ≤ Chain.joinWork dimensions left.first left.last right.last :=
      Int.mul_nonneg (Int.mul_nonneg (sound _) (sound _)) (sound _)
    rw [cost]
    omega

def operands : Bracketing → List Nat
  | operand i => [i]
  | join left right => left.operands ++ right.operands

theorem exists_map_operands {β : Type} (b : Bracketing) (value : Nat → β) :
    ∃ first rest, b.operands.map value = first :: rest := by
  induction b with
  | operand i => exact ⟨value i, [], rfl⟩
  | join left right ihl _ =>
    obtain ⟨first, rest, h⟩ := ihl
    refine ⟨first, rest ++ right.operands.map value, ?_⟩
    rw [operands, List.map_append, h, List.cons_append]

theorem Spans.operands_eq {b : Bracketing} {i j : Nat} (h : b.Spans i j) :
    b.operands = List.range' i (j + 1 - i) := by
  induction h with
  | operand i => simp [operands]
  | @join left right first split last hl hr ihl ihr =>
    obtain ⟨m, hm⟩ : ∃ m, split + 1 = first + m := Nat.exists_eq_add_of_le (Nat.le_succ_of_le hl.le)
    obtain ⟨n, hn⟩ : ∃ n, last + 1 = split + 1 + n := Nat.exists_eq_add_of_le (Nat.le_succ_of_le hr.le)
    rw [operands, ihl, ihr, hn, hm, Nat.add_sub_cancel_left, Nat.add_sub_cancel_left, Nat.add_assoc,
      Nat.add_sub_cancel_left, List.range'_append_1]

theorem Spans.map_getD_operands {β : Type} {b : Bracketing} {items : List β} (h : b.Spans 0 (items.length - 1))
    (nonempty : items ≠ []) (outside : β) : b.operands.map (fun i => items.getD i outside) = items := by
  have hpos := List.length_pos_iff.2 nonempty
  have hcount : items.length - 1 + 1 - 0 = items.length := by omega
  rw [h.operands_eq, hcount]
  apply List.ext_getElem
  · simp
  · intro i _ hi
    simp [hi]

section Assembly

variable {β : Type}

def assemble (value : Nat → β) (joined : β → β → β) : Bracketing → β
  | operand i => value i
  | join left right => joined (left.assemble value joined) (right.assemble value joined)

/-- The same with effects, those of the left part first and that of the join last. -/
def assembleM {m : Type → Type} [Monad m] (value : Nat → m β) (joined : β → β → m β) : Bracketing → m β
  | operand i => value i
  | join left right => do
    let l ← left.assembleM value joined
    let r ← right.assembleM value joined
    joined l r

/-- What respects joins can be taken of the operands. -/
theorem apply_assemble {γ : Type} {f : β → γ} {value : Nat → β} {joined : β → β → β} {joined' : γ → γ → γ}
    (respects : ∀ l r, f (joined l r) = joined' (f l) (f r)) (b : Bracketing) :
    f (b.assemble value joined) = b.assemble (fun i => f (value i)) joined' := by
  induction b with
  | operand i => rfl
  | join left right ihl ihr => rw [assemble, assemble, respects, ihl, ihr]

theorem assembleM_pure {m : Type → Type} [Monad m] [LawfulMonad m] {value : Nat → m β} {pureValue : Nat → β}
    {joined : β → β → m β} {pureJoined : β → β → β} {b : Bracketing}
    (operands : ∀ i ∈ b.operands, value i = pure (pureValue i))
    (joins : ∀ l r, joined l r = pure (pureJoined l r)) :
    b.assembleM value joined = pure (b.assemble pureValue pureJoined) := by
  induction b with
  | operand i => exact operands i (List.mem_singleton.2 rfl)
  | join left right ihl ihr =>
    have hl := ihl fun i hi => operands i (List.mem_append_left _ hi)
    have hr := ihr fun i hi => operands i (List.mem_append_right _ hi)
    rw [assembleM, hl, hr, pure_bind, pure_bind, joins, assemble]

end Assembly

section LeftDeep

/-- `((A0 A1) A2) … Ak`. -/
def leftDeep : Nat → Bracketing
  | 0 => operand 0
  | k + 1 => join (leftDeep k) (operand (k + 1))

theorem leftDeep_spans (k : Nat) : (leftDeep k).Spans 0 k := by
  induction k with
  | zero => exact .operand 0
  | succ k ih => exact .join ih (.operand (k + 1))

theorem cost_leftDeep (dimensions : Array Int) (k : Nat) :
    (leftDeep k).cost dimensions =
      total ((List.range k).map fun i => Chain.joinWork dimensions 0 i (i + 1)) := by
  induction k with
  | zero => rfl
  | succ k ih =>
    have hlast : (operand (k + 1)).Spans (k + 1) (k + 1) := .operand (k + 1)
    rw [leftDeep, (leftDeep_spans k).cost_join hlast, ih, List.range_succ, List.map_append, total_append]
    simp [cost]

theorem assemble_leftDeep {β : Type} (value : Nat → β) (joined : β → β → β) (k : Nat) :
    (leftDeep k).assemble value joined = ((List.range k).map fun i => value (i + 1)).foldl joined (value 0) := by
  induction k with
  | zero => rfl
  | succ k ih =>
    rw [leftDeep, assemble, assemble, ih, List.range_succ, List.map_append, List.foldl_append]
    rfl

end LeftDeep

end Bracketing

/-- What is added up from left to right is the cost of the left-deep bracketing. -/
theorem Chain.leftDeepCost_eq {dimensions : List Int} (sound : flaw? dimensions = none) : leftDeepCost dimensions =
    .ok ((Bracketing.leftDeep (dimensions.length - 2)).cost dimensions.toArray) := by
  rw [leftDeepCost, (check_eq_ok_iff dimensions).2 sound, Bracketing.cost_leftDeep]
  rfl

namespace Tableau

/-- Every sub-chain of two operands or more has a split in the table, and inside of itself. -/
def SplitsWithin (t : Tableau) : Prop :=
  ∀ first last : Nat, first < last → last < t.length →
    ∃ split : Nat, entryAt? t.splits first last = some (split : Int) ∧ first ≤ split ∧ split < last

def bracketing (t : Tableau) (first last : Nat) : Bracketing :=
  if h : first ≤ (t.splitOf first last).toNat ∧ (t.splitOf first last).toNat < last then
    .join (t.bracketing first (t.splitOf first last).toNat) (t.bracketing ((t.splitOf first last).toNat + 1) last)
  else .operand first
termination_by last - first
decreasing_by all_goals omega

theorem bracketing_self (t : Tableau) (i : Nat) : t.bracketing i i = .operand i := by
  rw [bracketing, dif_neg (by omega)]

theorem bracketing_of_entryAt? {t : Tableau} {first split last : Nat}
    (h : entryAt? t.splits first last = some (split : Int)) (hfirst : first ≤ split) (hlast : split < last) :
    t.bracketing first last = .join (t.bracketing first split) (t.bracketing (split + 1) last) := by
  have hsplit : t.splitOf first last = split := by rw [splitOf, entryOf_eq, h, Option.getD_some]
  rw [bracketing, hsplit, Int.toNat_natCast, dif_pos ⟨hfirst, hlast⟩]

def HasSplits (t : Tableau) : Bracketing → Prop
  | .operand _ => True
  | .join left right =>
    entryAt? t.splits left.first right.last = some (left.last : Int) ∧ t.HasSplits left ∧ t.HasSplits right

instance decidableHasSplits (t : Tableau) : (b : Bracketing) → Decidable (t.HasSplits b)
  | .operand _ => isTrue trivial
  | .join left right =>
    have := decidableHasSplits t left
    have := decidableHasSplits t right
    inferInstanceAs (Decidable (_ ∧ _))

/-- The bracketing that a table describes is the one whose splits it has. -/
theorem bracketing_eq {t : Tableau} {b : Bracketing} {first last : Nat} (h : b.Spans first last)
    (splits : t.HasSplits b) : t.bracketing first last = b := by
  induction h with
  | operand i => exact bracketing_self t i
  | @join left right first split last hl hr ihl ihr =>
    obtain ⟨hsplit, hleft, hright⟩ := splits
    rw [hl.first_eq, hl.last_eq, hr.last_eq] at hsplit
    rw [bracketing_of_entryAt? hsplit hl.le hr.le, ihl hleft, ihr hright]

theorem bracketing_spans {t : Tableau} (within : t.SplitsWithin) {first last : Nat} (h : first ≤ last)
    (hlast : last < t.length) : (t.bracketing first last).Spans first last := by
  induction hlen : last - first using Nat.strongRecOn generalizing first last with
  | ind length ih =>
    rcases Nat.lt_or_eq_of_le h with hlt | rfl
    · obtain ⟨split, hsplit, hle, hgt⟩ := within first last hlt hlast
      rw [bracketing_of_entryAt? hsplit hle hgt]
      exact .join (ih (split - first) (by omega) hle (by omega) rfl)
        (ih (last - (split + 1)) (by omega) hgt hlast rfl)
    · rw [bracketing_self]
      exact .operand first

end Tableau
end MatrixChain
