import MatrixChain.Proofs.Association
import MatrixChain.Proofs.Bracketing
import MatrixChain.Proofs.Tableau
import Mathlib.Order.Bounds.Basic

/-!
# The cheapest bracketing

The bracketing that the split table of a chain describes costs what the cost table says, and no bracketing of the
same operands costs less. Main statement: the tables are square, zero up to the diagonal, exactly optimal above it,
and every entry is final when it is looked up.
-/

namespace MatrixChain
namespace Tableau

open Chain

theorem boundary_nonneg {dimensions : List Int} (sound : ∀ d ∈ dimensions, 0 ≤ d) (i : Nat) :
    0 ≤ boundary dimensions.toArray i := by
  rw [boundary, Array.getD_eq_getD_getElem?, List.getElem?_toArray]
  cases h : dimensions[i]? with
  | none => exact Int.le_refl _
  | some d => exact sound d (List.mem_of_getElem? h)

section Solved

variable (dimensions : List Int) {first last : Nat}

theorem spans_bracketing (h : first ≤ last) (hlast : last < dimensions.length - 1) :
    ((ofDimensions dimensions).bracketing first last).Spans first last :=
  bracketing_spans (splitsWithin_ofDimensions dimensions) h hlast

theorem cost_bracketing (h : first ≤ last) (hlast : last < dimensions.length - 1) :
    ((ofDimensions dimensions).bracketing first last).cost dimensions.toArray =
      (ofDimensions dimensions).costOf first last := by
  induction hlen : last - first using Nat.strongRecOn generalizing first last with
  | ind length ih =>
    rcases Nat.lt_or_eq_of_le h with hlt | rfl
    · obtain ⟨split, hsplit, hle, hgt, hcost, _⟩ := splitOf_spec dimensions hlt hlast
      have hleft := spans_bracketing dimensions hle (Nat.lt_trans hgt hlast)
      have hright := spans_bracketing dimensions (Nat.succ_le_of_lt hgt) hlast
      rw [bracketing_of_entryAt? hsplit hle hgt, hleft.cost_join hright, hcost,
        ih (split - first) (by omega) hle (by omega) rfl, ih (last - (split + 1)) (by omega) hgt hlast rfl]
      rfl
    · rw [bracketing_self, costOf_of_le dimensions (Nat.le_refl _)]
      rfl

theorem costOf_le_cost {b : Bracketing} (h : b.Spans first last) (hlast : last < dimensions.length - 1) :
    (ofDimensions dimensions).costOf first last ≤ b.cost dimensions.toArray := by
  induction h with
  | operand i =>
    rw [costOf_of_le dimensions (Nat.le_refl _)]
    exact Int.le_refl _
  | @join left right first split last hl hr ihl ihr =>
    have hle := hl.le
    have hgt := hr.le
    obtain ⟨_, _, _, _, _, hleast, _⟩ := splitOf_spec dimensions (show first < last by omega) hlast
    have hsplit := hleast split hle hgt
    have hleft := ihl (by omega)
    have hright := ihr hlast
    rw [hl.cost_join hr]
    simp only [splitCost] at hsplit
    exact hsplit.trans (Int.add_le_add_right (Int.add_le_add hleft hright) _)

/-- Entries of the cost table are least costs. -/
theorem costOf_isLeast (h : first ≤ last) (hlast : last < dimensions.length - 1) :
    IsLeast {cost | ∃ b : Bracketing, b.Spans first last ∧ b.cost dimensions.toArray = cost}
      ((ofDimensions dimensions).costOf first last) := by
  constructor
  · exact ⟨_, spans_bracketing dimensions h hlast, cost_bracketing dimensions h hlast⟩
  · rintro _ ⟨b, hb, rfl⟩
    exact costOf_le_cost dimensions hb hlast

theorem costOf_nonneg (sound : ∀ d ∈ dimensions, 0 ≤ d) (first last : Nat) :
    0 ≤ (ofDimensions dimensions).costOf first last := by
  by_cases h : first < last ∧ last < dimensions.length - 1
  · rw [← cost_bracketing dimensions (Nat.le_of_lt h.1) h.2]
    exact Bracketing.cost_nonneg (boundary_nonneg sound) _
  · rw [costOf_ofDimensions, if_neg h]

def cheapest (dimensions : List Int) : Bracketing :=
  (ofDimensions dimensions).bracketing 0 ((ofDimensions dimensions).length - 1)

variable {dimensions} (operand : 2 ≤ dimensions.length)
include operand

theorem cheapest_spans : (cheapest dimensions).Spans 0 (dimensions.length - 2) := by
  have hlast : dimensions.length - 2 < dimensions.length - 1 := by omega
  exact spans_bracketing dimensions (Nat.zero_le _) hlast

theorem cost_cheapest : (cheapest dimensions).cost dimensions.toArray = (ofDimensions dimensions).cost := by
  have hlast : dimensions.length - 2 < dimensions.length - 1 := by omega
  exact cost_bracketing dimensions (Nat.zero_le _) hlast

theorem cost_le_cost {b : Bracketing} (h : b.Spans 0 (dimensions.length - 2)) :
    (ofDimensions dimensions).cost ≤ b.cost dimensions.toArray := by
  have hlast : dimensions.length - 2 < dimensions.length - 1 := by omega
  exact costOf_le_cost dimensions h hlast

/-- By the tables of a chain its operands are joined along the cheapest bracketing. -/
theorem associate_ofDimensions {β : Type} {m : Type → Type} [Monad m] [LawfulMonad m] [MonadExcept Fault m]
    {operands : Array β} (size : operands.size = dimensions.length - 1) (joined : β → β → m β) :
    (ofDimensions dimensions).associate operands joined =
      (cheapest dimensions).assembleM (operandValue operands) joined :=
  associate_eq operands joined (splitsWithin_ofDimensions dimensions) size (by omega)

end Solved

section Pair

variable (a b c : Int)

theorem cheapest_of_twoOperands : cheapest [a, b, c] = .join (.operand 0) (.operand 1) := by
  have hsplit : entryAt? (ofDimensions [a, b, c]).splits 0 1 = some 0 := rfl
  exact bracketing_eq (.join (.operand 0) (.operand 1)) ⟨hsplit, trivial, trivial⟩

theorem cost_of_twoOperands : (ofDimensions [a, b, c]).cost = a * b * c := by
  have hwork : (Bracketing.join (.operand 0) (.operand 1)).cost #[a, b, c] = 0 + 0 + a * b * c := rfl
  have operand : 2 ≤ [a, b, c].length := Nat.le_succ 2
  have hcost := cost_cheapest operand
  rw [cheapest_of_twoOperands] at hcost
  rw [← hcost, hwork, Int.add_zero, Int.zero_add]

end Pair

/-- Sound chains have tables, and no others. -/
theorem solve_eq_ok_iff {dimensions : List Int} {t : Tableau} : solve dimensions = .ok t ↔
    (2 ≤ dimensions.length ∧ ∀ d ∈ dimensions, 0 ≤ d) ∧ ofDimensions dimensions = t := by
  rw [← flaw?_eq_none_iff, ← check_eq_ok_iff]
  cases hcheck : check dimensions with
  | error fault => simp [solve, hcheck, bind, Except.bind]
  | ok _ => simp [solve, hcheck, bind, Except.bind, pure, Except.pure]

theorem solve_eq_ok {dimensions : List Int} (operand : 2 ≤ dimensions.length) (sound : ∀ d ∈ dimensions, 0 ≤ d) :
    solve dimensions = .ok (ofDimensions dimensions) :=
  solve_eq_ok_iff.2 ⟨⟨operand, sound⟩, rfl⟩

def Square (t : Tableau) : Prop :=
  (t.costs.size = t.length ∧ ∀ row ∈ t.costs, row.size = t.length) ∧
    t.splits.size = t.length ∧ ∀ row ∈ t.splits, row.size = t.length

theorem square_ofDimensions (dimensions : List Int) : (ofDimensions dimensions).Square := by
  simp [Square, ofDimensions, upperTable, length]

/-- When the cell of the sub-chain at `first` with `products + 1` products is computed, each lookup finds an entry, with
the cost that the finished table has there, nothing but the lookups has a say in the cell, and its cost is final. -/
def LooksUpFinal (t : Tableau) (first products : Nat) : Prop :=
  let known := rowsTo t.dimensions.toArray t.length products
  let next := nextRow t.dimensions.toArray t.length products
  (∀ place ∈ lookups first products, known.Holds place.1 place.2 ∧
    (known.cell place.1 place.2).cost = t.costOf place.1 (place.1 + place.2)) ∧
  (∀ rows : Rows, (∀ place ∈ lookups first products,
    rows.cell place.1 place.2 = known.cell place.1 place.2) → (next rows)[first]? = (next known)[first]?) ∧
  (next known)[first]?.map Cell.cost = some (t.costOf first (first + products + 1))

theorem cost_cell_rowsTo (dimensions : List Int) {first products later : Nat} (h : products ≤ later)
    (hlater : later < dimensions.length - 1) (hfirst : first + products < dimensions.length - 1) :
    ((rowsTo dimensions.toArray (dimensions.length - 1) later).cell first products).cost =
      (ofDimensions dimensions).costOf first (first + products) := by
  rw [costOf_eq_cell dimensions (Nat.le_add_right _ _) hfirst, Nat.add_sub_cancel_left,
    cell_rowsTo_of_le dimensions.toArray (dimensions.length - 1) h (show later ≤ dimensions.length - 1 - 1 by omega)]

theorem looksUpFinal_ofDimensions (dimensions : List Int) {first products : Nat}
    (h : first + products + 1 < dimensions.length - 1) : (ofDimensions dimensions).LooksUpFinal first products := by
  have hinside : ∀ place ∈ lookups first products, place.2 ≤ products ∧
      place.1 + place.2 < dimensions.length - 1 := by
    intro place hplace
    obtain ⟨m, hm, rfl | rfl⟩ := mem_lookups.1 hplace <;> simp only <;> omega
  have hnext := nextRow_getElem? dimensions.toArray (dimensions.length - 1) h
  refine ⟨fun place hplace => ?_, fun rows hrows => ?_, ?_⟩
  · obtain ⟨hle, hlt⟩ := hinside place hplace
    exact ⟨rowsTo_holds _ _ hle hlt, cost_cell_rowsTo dimensions hle (by omega) hlt⟩
  · exact (hnext rows).trans ((congrArg some (leftmost_splitCell_congr _ hrows)).trans (hnext _).symm)
  · have hcost := cost_cell_rowsTo dimensions (Nat.le_refl (products + 1)) (by omega) h
    rw [cell_rowsTo_last _ _ h] at hcost
    exact (congrArg (Option.map Cell.cost) (hnext _)).trans (congrArg some hcost)

/-- The tables of a sound chain: square, zero up to the diagonal, above it the least cost of all bracketings, and
computed from final entries only. -/
theorem solve_optimal {dimensions : List Int} (operand : 2 ≤ dimensions.length) (sound : ∀ d ∈ dimensions, 0 ≤ d) :
    ∃ t, solve dimensions = .ok t ∧ t.dimensions = dimensions ∧ t.Square ∧
      (∀ first last, last ≤ first → t.costOf first last = 0 ∧ t.splitOf first last = 0) ∧
      (∀ first last, first ≤ last → last < t.length →
        IsLeast {cost | ∃ b : Bracketing, b.Spans first last ∧ b.cost dimensions.toArray = cost}
          (t.costOf first last)) ∧
      ∀ first products, first + products + 1 < t.length → t.LooksUpFinal first products := by
  refine ⟨_, solve_eq_ok operand sound, rfl, square_ofDimensions dimensions, fun first last h => ?_,
    fun first last h hlast => ?_, fun first products h => ?_⟩
  · exact ⟨costOf_of_le dimensions h, splitOf_of_le dimensions h⟩
  · exact costOf_isLeast dimensions h hlast
  · exact looksUpFinal_ofDimensions dimensions h

theorem solve_optimal_of_six_operands :
    2 ≤ [30, 35, 15, 5, 10, 20, 25].length ∧ (∀ d ∈ [30, 35, 15, 5, 10, 20, 25], (0 : Int) ≤ d) ∧
      ∃ t, solve [30, 35, 15, 5, 10, 20, 25] = .ok t ∧ t.cost = 15125 ∧
        IsLeast {cost | ∃ b : Bracketing, b.Spans 0 5 ∧ b.cost #[30, 35, 15, 5, 10, 20, 25] = cost} t.cost ∧
        t.LooksUpFinal 0 4 := by
  have operand : 2 ≤ [30, 35, 15, 5, 10, 20, 25].length := by decide
  have sound : ∀ d ∈ [30, 35, 15, 5, 10, 20, 25], (0 : Int) ≤ d := by decide
  obtain ⟨t, ht, _, _, _, least, final⟩ := solve_optimal operand sound
  obtain rfl := Except.ok.inj ((solve_eq_ok operand sound).symm.trans ht)
  exact ⟨operand, sound, _, ht, by decide, least 0 5 (by decide) (by decide), final 0 4 (by decide)⟩

end Tableau
end MatrixChain
