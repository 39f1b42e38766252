import MatrixChain.Chain.Dimensions
import MatrixChain.Place

/-!
# The cheapest association of a chain

A dynamic program over sub-chains. A sub-chain is given by its first operand and by the number of products in
it. Its best cell is picked from the best cells of the shorter sub-chains that it can be split into, and the
leftmost split wins ties. Cells are computed row by row, a row holding all sub-chains with equally many
products, so each cell is final when it is read.
-/

namespace MatrixChain
namespace Chain

/-- How a sub-chain is split: the least cost, and the last operand of the left part. -/
structure Cell where
  cost : Int
  split : Nat
deriving DecidableEq

def Cell.operand : Cell :=
  ⟨0, 0⟩

/-- Of the cells `0 … last`, the first one that no other undercuts. -/
def leftmost (cells : Nat → Cell) : Nat → Cell
  | 0 => cells 0
  | last + 1 =>
    let best := leftmost cells last
    let next := cells (last + 1)
    if next.cost < best.cost then next else best

theorem leftmost_congr {cells cells' : Nat → Cell} {last : Nat} (h : ∀ m ≤ last, cells m = cells' m) :
    leftmost cells last = leftmost cells' last := by
  induction last with
  | zero => exact h 0 (Nat.le_refl _)
  | succ last ih =>
    simp only [leftmost]
    rw [ih fun m hm => h m (by omega), h (last + 1) (Nat.le_refl _)]

theorem leftmost_spec (cells : Nat → Cell) (last : Nat) :
    ∃ m ≤ last, leftmost cells last = cells m ∧ (∀ m' < m, (cells m).cost < (cells m').cost) ∧
      ∀ m' ≤ last, (cells m).cost ≤ (cells m').cost := by
  induction last with
  | zero =>
    refine ⟨0, Nat.le_refl _, rfl, fun m' h => absurd h (Nat.not_lt_zero m'), fun m' h => ?_⟩
    obtain rfl := Nat.le_zero.1 h
    exact Int.le_refl _
  | succ last ih =>
    obtain ⟨m, hm, hpick, hbefore, hleast⟩ := ih
    simp only [leftmost, hpick]
    by_cases hlt : (cells (last + 1)).cost < (cells m).cost
    · refine ⟨last + 1, Nat.le_refl _, if_pos hlt, fun m' h => ?_, fun m' h => ?_⟩
      · exact Int.lt_of_lt_of_le hlt (hleast m' (by omega))
      · rcases Nat.lt_or_eq_of_le h with h | rfl
        · exact Int.le_of_lt (Int.lt_of_lt_of_le hlt (hleast m' (by omega)))
        · exact Int.le_refl _
    · refine ⟨m, by omega, if_neg hlt, hbefore, fun m' h => ?_⟩
      rcases Nat.lt_or_eq_of_le h with h | rfl
      · exact hleast m' (by omega)
      · exact Int.not_lt.1 hlt

/-- The cell of the sub-chain with `products + 1` products at `first`, if it is split behind its operand `m`. -/
def splitCell (dimensions : Array Int) (best : Nat → Nat → Cell) (first products m : Nat) : Cell where
  cost := (best first m).cost + (best (first + m + 1) (products - m)).cost +
    joinWork dimensions first (first + m) (first + products + 1)
  split := first + m

/-- Row `products`, place `first`: the cell of the sub-chain at `first` with so many products. -/
abbrev Rows := Array (Array Cell)

def Rows.cell (rows : Rows) (first products : Nat) : Cell :=
  (rows.getD products #[]).getD first .operand

def nextRow (dimensions : Array Int) (operands products : Nat) (rows : Rows) : Array Cell :=
  Array.ofFn fun first : Fin (operands - (products + 1)) =>
    leftmost (splitCell dimensions rows.cell first products) products

def rowsTo (dimensions : Array Int) (operands : Nat) : Nat → Rows
  | 0 => #[Array.replicate operands .operand]
  | products + 1 =>
    let rows := rowsTo dimensions operands products
    rows.push (nextRow dimensions operands products rows)

@[simp] theorem size_rowsTo (dimensions : Array Int) (operands products : Nat) :
    (rowsTo dimensions operands products).size = products + 1 := by
  induction products with
  | zero => rfl
  | succ products ih => simp [rowsTo, ih]

theorem cell_rowsTo_succ (dimensions : Array Int) (operands : Nat) {products below first : Nat}
    (h : below ≤ products) :
    (rowsTo dimensions operands (products + 1)).cell first below =
      (rowsTo dimensions operands products).cell first below := by
  have hlt : below < (rowsTo dimensions operands products).size := by simp; omega
  simp only [Rows.cell, Array.getD_eq_getD_getElem?, rowsTo, Array.getElem?_push, if_neg (Nat.ne_of_lt hlt)]

/-- A square table that holds `f first last` above the diagonal, and zeros elsewhere. -/
def upperTable {α : Type} [OfNat α 0] (n : Nat) (f : Nat → Nat → α) : Array (Array α) :=
  Array.ofFn fun first : Fin n => Array.ofFn fun last : Fin n =>
    if first.val < last.val then f first last else 0

theorem upperTable_getD {α : Type} [OfNat α 0] (n : Nat) (f : Nat → Nat → α) (first last : Nat) :
    ((upperTable n f).getD first #[]).getD last 0 = if first < last ∧ last < n then f first last else 0 := by
  simp only [upperTable, Array.getD_eq_getD_getElem?, Array.getElem?_ofFn]
  by_cases hfirst : first < n
  · by_cases hlast : last < n
    · simp [hfirst, hlast]
    · simp [hfirst, hlast]
  · have : ¬(first < last ∧ last < n) := by omega
    simp [hfirst, this]

end Chain

/-- The association of a chain, as tables over the first and last operand of a sub-chain. -/
structure Tableau where
  dimensions : List Int
  costs : Array (Array Int)
  splits : Array (Array Int)
deriving DecidableEq

namespace Tableau

def length (t : Tableau) : Nat :=
  t.dimensions.length - 1

/-- An entry of a table, by indices that may count from the end. -/
def entryAt? (table : Array (Array Int)) (first last : Int) : Option Int :=
  (itemAt? table first).bind (itemAt? · last)

def entryOf (table : Array (Array Int)) (first last : Nat) : Int :=
  (table.getD first #[]).getD last 0

theorem entryOf_eq (table : Array (Array Int)) (first last : Nat) :
    entryOf table first last = (entryAt? table first last).getD 0 := by
  simp only [entryOf, entryAt?, itemAt?_ofNat, Array.getD_eq_getD_getElem?]
  cases table[first]? with
  | none => simp
  | some row => simp

def costOf (t : Tableau) (first last : Nat) : Int :=
  entryOf t.costs first last

def splitOf (t : Tableau) (first last : Nat) : Int :=
  entryOf t.splits first last

def cost (t : Tableau) : Int :=
  t.costOf 0 (t.length - 1)

/-- The cost of the whole chain, where the table is known to hold it. -/
def statedCost (t : Tableau) : Except Fault Int :=
  match entryAt? t.costs 0 ((t.dimensions.length : Int) - 2) with
  | some cost => pure cost
  | none => throw (.indexBeyond .tuple)

def ofDimensions (dimensions : List Int) : Tableau :=
  let operands := dimensions.length - 1
  let rows := Chain.rowsTo dimensions.toArray operands (operands - 1)
  { dimensions
    costs := Chain.upperTable operands fun first last => (rows.cell first (last - first)).cost
    splits := Chain.upperTable operands fun first last => (rows.cell first (last - first)).split }

@[simp] theorem length_ofDimensions (dimensions : List Int) :
    (ofDimensions dimensions).length = dimensions.length - 1 := rfl

theorem costOf_ofDimensions (dimensions : List Int) (first last : Nat) :
    (ofDimensions dimensions).costOf first last =
      if first < last ∧ last < dimensions.length - 1 then
        ((Chain.rowsTo dimensions.toArray (dimensions.length - 1) (dimensions.length - 1 - 1)).cell
          first (last - first)).cost
      else 0 :=
  Chain.upperTable_getD ..

theorem splitOf_ofDimensions (dimensions : List Int) (first last : Nat) :
    (ofDimensions dimensions).splitOf first last =
      if first < last ∧ last < dimensions.length - 1 then
        (((Chain.rowsTo dimensions.toArray (dimensions.length - 1) (dimensions.length - 1 - 1)).cell
          first (last - first)).split : Int)
      else 0 :=
  Chain.upperTable_getD ..

def solve (dimensions : List Int) : Except Fault Tableau := do
  Chain.check dimensions
  pure (ofDimensions dimensions)

/-- What a hash keeps of an integer: its remainder by the Mersenne prime `2 ^ 61 - 1`. -/
def residue (n : Int) : Int :=
  n.tmod (Int.pow 2 61 - 1)

def digest (t : Tableau) : Tableau where
  dimensions := t.dimensions.map residue
  costs := t.costs.map fun row => row.map residue
  splits := t.splits.map fun row => row.map residue

end Tableau
end MatrixChain
