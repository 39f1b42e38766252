import MatrixChain.Proofs.Bracketing

/-!
# The recurrence of the tables

What the rows of the dynamic program hold once all of them are there. A cell is computed from cells of earlier rows
only, no later row changes them, and so the finished tables obey the recurrence on sub-chains: an entry is the least
cost over all splits, at the leftmost split that reaches it.
-/

namespace MatrixChain
namespace Chain

section Rows

variable (dimensions : Array Int) (operands : Nat)

def Rows.Holds (rows : Rows) (first products : Nat) : Prop :=
  ∃ row, rows[products]? = some row ∧ first < row.size

/-- The sub-chains, by first operand and number of products, whose cells are looked up for the cell of the one at
`first` with `products + 1` products. -/
def lookups (first products : Nat) : List (Nat × Nat) :=
  (List.range (products + 1)).flatMap fun m => [(first, m), (first + m + 1, products - m)]

theorem mem_lookups {first products : Nat} {place : Nat × Nat} :
    place ∈ lookups first products ↔
      ∃ m ≤ products, place = (first, m) ∨ place = (first + m + 1, products - m) := by
  simp only [lookups, List.mem_flatMap, List.mem_range, List.mem_cons, List.not_mem_nil, or_false, Nat.lt_succ_iff]

theorem leftmost_splitCell_congr {best best' : Nat → Nat → Cell} {first products : Nat}
    (h : ∀ place ∈ lookups first products, best place.1 place.2 = best' place.1 place.2) :
    leftmost (splitCell dimensions best first products) products =
      leftmost (splitCell dimensions best' first products) products := by
  refine leftmost_congr fun m hm => ?_
  have hleft := h (first, m) (mem_lookups.2 ⟨m, hm, Or.inl rfl⟩)
  have hright := h (first + m + 1, products - m) (mem_lookups.2 ⟨m, hm, Or.inr rfl⟩)
  simp only at hleft hright
  simp only [splitCell, hleft, hright]

theorem nextRow_getElem? {first products : Nat} (h : first + products + 1 < operands) (rows : Rows) :
    (nextRow dimensions operands products rows)[first]? =
      some (leftmost (splitCell dimensions rows.cell first products) products) := by
  have hlt : first < operands - (products + 1) := by omega
  simp [nextRow, hlt]

theorem rowsTo_getElem?_last (products : Nat) :
    (rowsTo dimensions operands (products + 1))[products + 1]? =
      some (nextRow dimensions operands products (rowsTo dimensions operands products)) := by
  have h : ((rowsTo dimensions operands products).push (nextRow dimensions operands products
      (rowsTo dimensions operands products)))[(rowsTo dimensions operands products).size]? = some _ :=
    Array.getElem?_push_size
  rw [size_rowsTo] at h
  exact h

theorem rowsTo_holds {later first products : Nat} (hlater : products ≤ later)
    (hfirst : first + products < operands) : (rowsTo dimensions operands later).Holds first products := by
  induction later with
  | zero =>
    obtain rfl := Nat.le_zero.1 hlater
    exact ⟨Array.replicate operands .operand, rfl, by simpa using hfirst⟩
  | succ later ih =>
    rcases Nat.lt_or_eq_of_le hlater with h | rfl
    · obtain ⟨row, hrow, hsize⟩ := ih (by omega)
      refine ⟨row, ?_, hsize⟩
      have hne : products ≠ later + 1 := by omega
      simpa [rowsTo, Array.getElem?_push, hne] using hrow
    · refine ⟨_, rowsTo_getElem?_last dimensions operands later, ?_⟩
      simp only [nextRow, Array.size_ofFn]
      omega

theorem cell_rowsTo_of_le {later products below first : Nat} (hbelow : below ≤ products) (h : products ≤ later) :
    (rowsTo dimensions operands later).cell first below =
      (rowsTo dimensions operands products).cell first below := by
  induction later with
  | zero => rw [Nat.le_zero.1 h]
  | succ later ih =>
    rcases Nat.lt_or_eq_of_le h with h | rfl
    · rw [cell_rowsTo_succ dimensions operands (by omega), ih (by omega)]
    · rfl

theorem cell_rowsTo_zero (later first : Nat) : (rowsTo dimensions operands later).cell first 0 = .operand := by
  rw [cell_rowsTo_of_le dimensions operands (Nat.le_refl 0) (Nat.zero_le later)]
  simp only [rowsTo, Rows.cell, Array.getD_eq_getD_getElem?, List.getElem?_toArray, List.getElem?_cons_zero,
    Option.getD_some, Array.getElem?_replicate]
  split <;> rfl

theorem cell_rowsTo_last {first products : Nat} (h : first + products + 1 < operands) :
    (rowsTo dimensions operands (products + 1)).cell first (products + 1) =
      leftmost (splitCell dimensions (rowsTo dimensions operands products).cell first products) products := by
  rw [Rows.cell, Array.getD_eq_getD_getElem?, Array.getD_eq_getD_getElem?, rowsTo_getElem?_last,
    Option.getD_some, nextRow_getElem? dimensions operands h, Option.getD_some]

/-- The recurrence, over the finished rows. -/
theorem cell_rowsTo {later first products : Nat} (hlater : products + 1 ≤ later)
    (hfirst : first + products + 1 < operands) :
    (rowsTo dimensions operands later).cell first (products + 1) =
      leftmost (splitCell dimensions (rowsTo dimensions operands later).cell first products) products := by
  rw [cell_rowsTo_of_le dimensions operands (Nat.le_refl _) hlater, cell_rowsTo_last dimensions operands hfirst]
  refine leftmost_splitCell_congr dimensions fun place h => ?_
  obtain ⟨m, hm, rfl | rfl⟩ := mem_lookups.1 h
  · exact (cell_rowsTo_of_le dimensions operands hm (by omega)).symm
  · exact (cell_rowsTo_of_le dimensions operands (Nat.sub_le _ _) (by omega)).symm

end Rows

theorem upperTable_congr {α : Type} [OfNat α 0] {n : Nat} {f g : Nat → Nat → α}
    (h : ∀ first last, first < last → last < n → f first last = g first last) : upperTable n f = upperTable n g := by
  refine congrArg Array.ofFn (funext fun first => congrArg Array.ofFn (funext fun last => ?_))
  by_cases hlt : first.val < last.val
  · rw [if_pos hlt, if_pos hlt, h first last hlt last.isLt]
  · rw [if_neg hlt, if_neg hlt]

end Chain

namespace Tableau

open Chain

def splitCost (t : Tableau) (first split last : Nat) : Int :=
  t.costOf first split + t.costOf (split + 1) last + joinWork t.dimensions.toArray first split last

section Recurrence

variable (dimensions : List Int) {first last : Nat}

theorem costOf_eq_cell (h : first ≤ last) (hlast : last < dimensions.length - 1) :
    (ofDimensions dimensions).costOf first last =
      ((rowsTo dimensions.toArray (dimensions.length - 1) (dimensions.length - 1 - 1)).cell
        first (last - first)).cost := by
  rw [costOf_ofDimensions]
  rcases Nat.lt_or_eq_of_le h with h | rfl
  · rw [if_pos ⟨h, hlast⟩]
  · rw [if_neg fun h => Nat.lt_irrefl _ h.1, Nat.sub_self, cell_rowsTo_zero]
    rfl

@[simp] theorem costOf_of_le (h : last ≤ first) : (ofDimensions dimensions).costOf first last = 0 := by
  rw [costOf_ofDimensions, if_neg (by omega)]

@[simp] theorem splitOf_of_le (h : last ≤ first) : (ofDimensions dimensions).splitOf first last = 0 := by
  rw [splitOf_ofDimensions, if_neg (by omega)]

theorem costs_ofDimensions : (ofDimensions dimensions).costs =
    upperTable (ofDimensions dimensions).length (ofDimensions dimensions).costOf := by
  have hcells : (ofDimensions dimensions).costs = upperTable (dimensions.length - 1) fun first last =>
      ((rowsTo dimensions.toArray (dimensions.length - 1) (dimensions.length - 1 - 1)).cell
        first (last - first)).cost := rfl
  rw [hcells, length_ofDimensions]
  refine upperTable_congr fun first last h hlast => ?_
  rw [costOf_ofDimensions, if_pos ⟨h, hlast⟩]

theorem entryAt?_costs (hfirst : first < dimensions.length - 1) (hlast : last < dimensions.length - 1) :
    entryAt? (ofDimensions dimensions).costs first last = some ((ofDimensions dimensions).costOf first last) := by
  simp [costOf, entryOf_eq, entryAt?, itemAt?_ofNat, ofDimensions, upperTable, hfirst, hlast]

theorem entryAt?_splits (h : first < last) (hlast : last < dimensions.length - 1) :
    entryAt? (ofDimensions dimensions).splits first last =
      some (((rowsTo dimensions.toArray (dimensions.length - 1) (dimensions.length - 1 - 1)).cell
        first (last - first)).split : Int) := by
  have hfirst : first < dimensions.length - 1 := Nat.lt_trans h hlast
  simp [entryAt?, itemAt?_ofNat, ofDimensions, upperTable, hfirst, hlast, h]

theorem splitCell_cost {products m : Nat} (hm : m ≤ products)
    (hfirst : first + products + 1 < dimensions.length - 1) :
    (splitCell dimensions.toArray
        (rowsTo dimensions.toArray (dimensions.length - 1) (dimensions.length - 1 - 1)).cell
        first products m).cost =
      (ofDimensions dimensions).splitCost first (first + m) (first + products + 1) := by
  have hleft := costOf_eq_cell dimensions (show first ≤ first + m by omega) (by omega)
  have hright := costOf_eq_cell dimensions (show first + m + 1 ≤ first + products + 1 by omega) hfirst
  rw [show first + m - first = m by omega] at hleft
  rw [show first + products + 1 - (first + m + 1) = products - m by omega] at hright
  rw [splitCost, hleft, hright]
  rfl

/-- The split of a sub-chain: it lies inside, it reaches the cost in the table, no split is cheaper, and every split
further to the left is dearer. -/
theorem splitOf_spec (h : first < last) (hlast : last < dimensions.length - 1) :
    ∃ split : Nat, entryAt? (ofDimensions dimensions).splits first last = some (split : Int) ∧
      first ≤ split ∧ split < last ∧
      (ofDimensions dimensions).costOf first last = (ofDimensions dimensions).splitCost first split last ∧
      (∀ other, first ≤ other → other < last →
        (ofDimensions dimensions).costOf first last ≤ (ofDimensions dimensions).splitCost first other last) ∧
      ∀ other, first ≤ other → other < split →
        (ofDimensions dimensions).costOf first last < (ofDimensions dimensions).splitCost first other last := by
  obtain ⟨products, rfl⟩ := Nat.exists_eq_add_of_lt h
  have hcell := cell_rowsTo dimensions.toArray (dimensions.length - 1)
    (show products + 1 ≤ dimensions.length - 1 - 1 by omega) hlast
  obtain ⟨m, hm, hpick, hbefore, hleast⟩ := leftmost_spec (splitCell dimensions.toArray
    (rowsTo dimensions.toArray (dimensions.length - 1) (dimensions.length - 1 - 1)).cell first products) products
  have hplace : first + products + 1 - first = products + 1 := by omega
  have hcost : (ofDimensions dimensions).costOf first (first + products + 1) =
      (ofDimensions dimensions).splitCost first (first + m) (first + products + 1) := by
    rw [costOf_eq_cell dimensions (Nat.le_of_lt h) hlast, hplace, hcell, hpick, splitCell_cost dimensions hm hlast]
  refine ⟨first + m, ?_, by omega, by omega, hcost, fun other hfirst hother => ?_, fun other hfirst hother => ?_⟩
  · rw [entryAt?_splits dimensions h hlast, hplace, hcell, hpick]
    rfl
  · obtain ⟨m', rfl⟩ := Nat.exists_eq_add_of_le hfirst
    have hm' : m' ≤ products := by omega
    rw [hcost, ← splitCell_cost dimensions hm hlast, ← splitCell_cost dimensions hm' hlast]
    exact hleast m' hm'
  · obtain ⟨m', rfl⟩ := Nat.exists_eq_add_of_le hfirst
    have hm' : m' ≤ products := by omega
    rw [hcost, ← splitCell_cost dimensions hm hlast, ← splitCell_cost dimensions hm' hlast]
    exact hbefore m' (by omega)

theorem splitsWithin_ofDimensions : (ofDimensions dimensions).SplitsWithin := by
  intro first last h hlast
  obtain ⟨split, hsplit, hle, hgt, _⟩ := splitOf_spec dimensions h hlast
  exact ⟨split, hsplit, hle, hgt⟩

end Recurrence
end Tableau
end MatrixChain
