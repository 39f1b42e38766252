import MatrixChain.Proofs.Association
import MatrixChain.Proofs.CheapestBracketing

/-!
# The leftmost cheapest bracketing

Among all bracketings of least cost the one in the tables comes first when splits are compared in pre-order. The rule
for one cell, that its split is the leftmost of those that reach its cost, thus holds of the tree as a whole.
-/

namespace MatrixChain
namespace Bracketing

/-- The last operands of the left parts in pre-order: that of the root, those of the left part, those of the right. -/
def splits : Bracketing → List Nat
  | operand _ => []
  | join left right => left.last :: (left.splits ++ right.splits)

/-- At the first place in pre-order where the splits differ, that of `b` is further to the left. -/
def SplitsBefore (b c : Bracketing) : Prop :=
  ∃ common split split' rest rest',
    b.splits = common ++ split :: rest ∧ c.splits = common ++ split' :: rest' ∧ split < split'

section Joins

variable {left left' right right' : Bracketing}

theorem splitsBefore_of_root (h : left.last < left'.last) : (join left right).SplitsBefore (join left' right') :=
  ⟨[], left.last, left'.last, _, _, rfl, rfl, h⟩

theorem splitsBefore_of_left (root : left.last = left'.last) (h : left.SplitsBefore left') :
    (join left right).SplitsBefore (join left' right') := by
  obtain ⟨common, split, split', rest, rest', hleft, hleft', hlt⟩ := h
  refine ⟨left.last :: common, split, split', rest ++ right.splits, rest' ++ right'.splits, ?_, ?_, hlt⟩
  · simp [splits, hleft]
  · simp [splits, hleft', root]

theorem splitsBefore_of_right (h : right.SplitsBefore right') :
    (join left right).SplitsBefore (join left right') := by
  obtain ⟨common, split, split', rest, rest', hright, hright', hlt⟩ := h
  refine ⟨left.last :: (left.splits ++ common), split, split', rest, rest', ?_, ?_, hlt⟩
  · simp [splits, hright]
  · simp [splits, hright']

end Joins

theorem assemble_operand (b : Bracketing) : b.assemble operand join = b := by
  induction b with
  | operand i => rfl
  | join left right ihl ihr => rw [assemble, ihl, ihr]

end Bracketing

namespace Tableau

open Chain

section Solved

variable (dimensions : List Int) {first last : Nat}

/-- A join costs the table's entry only if both parts cost theirs and the root split is among the cheapest. -/
theorem costs_of_cost_join {left right : Bracketing} {split : Nat} (hl : left.Spans first split)
    (hr : right.Spans (split + 1) last) (hlast : last < dimensions.length - 1)
    (h : (Bracketing.join left right).cost dimensions.toArray = (ofDimensions dimensions).costOf first last) :
    left.cost dimensions.toArray = (ofDimensions dimensions).costOf first split ∧
      right.cost dimensions.toArray = (ofDimensions dimensions).costOf (split + 1) last ∧
      (ofDimensions dimensions).splitCost first split last = (ofDimensions dimensions).costOf first last := by
  have hle := hl.le
  have hgt := hr.le
  have hleft := costOf_le_cost dimensions hl (by omega)
  have hright := costOf_le_cost dimensions hr hlast
  obtain ⟨_, _, _, _, _, hleast, _⟩ := splitOf_spec dimensions (show first < last by omega) hlast
  have hsplit := hleast split hle hgt
  have hwork : (ofDimensions dimensions).splitCost first split last =
      (ofDimensions dimensions).costOf first split + (ofDimensions dimensions).costOf (split + 1) last +
        joinWork dimensions.toArray first split last := rfl
  rw [hl.cost_join hr] at h
  omega

theorem bracketing_splitsBefore {c : Bracketing} (h : c.Spans first last) (hlast : last < dimensions.length - 1)
    (least : c.cost dimensions.toArray = (ofDimensions dimensions).costOf first last)
    (hne : c ≠ (ofDimensions dimensions).bracketing first last) :
    ((ofDimensions dimensions).bracketing first last).SplitsBefore c := by
  induction h with
  | operand i => exact absurd (bracketing_self _ i).symm hne
  | @join left right first split last hl hr ihl ihr =>
    have hle := hl.le
    have hgt := hr.le
    obtain ⟨leastLeft, leastRight, leastSplit⟩ := costs_of_cost_join dimensions hl hr hlast least
    obtain ⟨split', hentry, hle', hgt', _, _, hbefore⟩ := splitOf_spec dimensions (show first < last by omega) hlast
    rw [bracketing_of_entryAt? hentry hle' hgt'] at hne ⊢
    -- a cheapest split cannot lie to the left of the one in the table
    have hnot : ¬split < split' := fun hlt => Int.ne_of_lt (hbefore split hle hlt) leastSplit.symm
    have hroot := (spans_bracketing dimensions hle' (Nat.lt_trans hgt' hlast)).last_eq
    rcases Nat.lt_or_eq_of_le (Nat.not_lt.1 hnot) with hlt | rfl
    · exact Bracketing.splitsBefore_of_root (by rw [hroot, hl.last_eq]; exact hlt)
    · by_cases hleft : left = (ofDimensions dimensions).bracketing first split'
      · subst hleft
        have hright : right ≠ (ofDimensions dimensions).bracketing (split' + 1) last := by
          rintro rfl
          exact hne rfl
        exact Bracketing.splitsBefore_of_right (ihr hlast leastRight hright)
      · have hbeforeLeft := ihl (by omega) leastLeft hleft
        exact Bracketing.splitsBefore_of_left (by rw [hroot, hl.last_eq]) hbeforeLeft

end Solved

def operandTrees (n : Nat) : Array Bracketing :=
  Array.ofFn fun i : Fin n => .operand i

theorem associate_operandTrees {dimensions : List Int} (operand : 2 ≤ dimensions.length) :
    (ofDimensions dimensions).associate (operandTrees (dimensions.length - 1))
      (fun left right => pure (.join left right)) = (.ok (cheapest dimensions) : Except Fault Bracketing) := by
  have hsize : (operandTrees (dimensions.length - 1)).size = dimensions.length - 1 := Array.size_ofFn
  have hspans := cheapest_spans operand
  have hassemble : (cheapest dimensions).assembleM (operandValue (operandTrees (dimensions.length - 1)))
      (fun left right => pure (.join left right)) =
        (pure ((cheapest dimensions).assemble .operand .join) : Except Fault Bracketing) := by
    refine Bracketing.assembleM_pure (fun i hi => ?_) fun _ _ => rfl
    rw [hspans.operands_eq, List.mem_range'_1] at hi
    rw [operandValue_of_lt (show i < (operandTrees (dimensions.length - 1)).size by omega)]
    simp [operandTrees]
  rw [associate_ofDimensions operand hsize]
  exact hassemble.trans (congrArg pure (Bracketing.assemble_operand _))

/-- The tree that a sound chain is associated to has the cost in the table, which is the least one, and comes before
every other tree of that cost when splits are compared in pre-order. -/
theorem associate_leftmost {dimensions : List Int} (operand : 2 ≤ dimensions.length)
    (sound : ∀ d ∈ dimensions, 0 ≤ d) :
    ∃ t b, solve dimensions = .ok t ∧
      t.associate (operandTrees t.length) (fun left right => pure (.join left right)) =
        (.ok b : Except Fault Bracketing) ∧
      b.Spans 0 (t.length - 1) ∧ b.cost dimensions.toArray = t.cost ∧
      ∀ c : Bracketing, c.Spans 0 (t.length - 1) → t.cost ≤ c.cost dimensions.toArray ∧
        (c.cost dimensions.toArray = t.cost → c ≠ b → b.SplitsBefore c) := by
  refine ⟨_, cheapest dimensions, solve_eq_ok operand sound, associate_operandTrees operand, cheapest_spans operand,
    cost_cheapest operand, fun c hc => ⟨cost_le_cost operand hc, fun hcost hne => ?_⟩⟩
  exact bracketing_splitsBefore dimensions hc (show dimensions.length - 2 < dimensions.length - 1 by omega) hcost hne

theorem associate_leftmost_of_equal_sides :
    2 ≤ [2, 2, 2, 2, 2].length ∧ (∀ d ∈ [2, 2, 2, 2, 2], (0 : Int) ≤ d) ∧
      ∃ t b, solve [2, 2, 2, 2, 2] = .ok t ∧
        t.associate (operandTrees 4) (fun left right => pure (.join left right)) =
          (.ok b : Except Fault Bracketing) ∧
        b.cost #[2, 2, 2, 2, 2] = 24 ∧
        b.SplitsBefore (.join (.operand 0) (.join (.join (.operand 1) (.operand 2)) (.operand 3))) := by
  have operand : 2 ≤ [2, 2, 2, 2, 2].length := by decide
  have sound : ∀ d ∈ [2, 2, 2, 2, 2], (0 : Int) ≤ d := by decide
  obtain ⟨t, b, ht, hb, _, hcost, hleast⟩ := associate_leftmost operand sound
  obtain rfl := Except.ok.inj ((solve_eq_ok operand sound).symm.trans ht)
  have htree : cheapest [2, 2, 2, 2, 2] =
      .join (.operand 0) (.join (.operand 1) (.join (.operand 2) (.operand 3))) := by
    change (ofDimensions [2, 2, 2, 2, 2]).bracketing 0 3 = _
    have hwhole : entryAt? (ofDimensions [2, 2, 2, 2, 2]).splits (0 : Nat) (3 : Nat) = some (0 : Nat) := by decide
    have hright : entryAt? (ofDimensions [2, 2, 2, 2, 2]).splits (1 : Nat) (3 : Nat) = some (1 : Nat) := by decide
    have hlast : entryAt? (ofDimensions [2, 2, 2, 2, 2]).splits (2 : Nat) (3 : Nat) = some (2 : Nat) := by decide
    rw [bracketing_of_entryAt? hwhole (by decide) (by decide), bracketing_of_entryAt? hright (by decide) (by decide),
      bracketing_of_entryAt? hlast (by decide) (by decide)]
    simp only [bracketing_self]
  obtain rfl := Except.ok.inj ((associate_operandTrees operand).symm.trans hb)
  refine ⟨operand, sound, _, _, ht, hb, hcost, (hleast _ ?_).2 (by decide) ?_⟩
  · exact .join (.operand 0) (.join (.join (.operand 1) (.operand 2)) (.operand 3))
  · rw [htree]
    decide

end Tableau
end MatrixChain
