import MatrixChain.Chain.CostTable
import MatrixChain.Proofs.CheapestBracketing
import MatrixChain.Proofs.Columns
import MatrixChain.Proofs.Decimals
import Mathlib.Data.List.DropRight
import Mathlib.Data.List.TakeDrop

/-!
# Reading the printed cost table

A table is printed if each of its costs can be written. Its lines are as many as there are operands and all of one length.
Each cost stands right aligned in columns of its own, and what is below the diagonal is blank. So the words of a line are
the costs of its row from the diagonal on, and what is printed tells the cost tables of chains of one length apart.
-/

namespace MatrixChain
namespace CostTable

open Text

section Written

theorem writes_digits (cost : Int) : Writes (digits cost) (Writable cost) (decimals cost) :=
  (writes_decimal cost).map String.toList

def cellText (width first last : Nat) (cost : Int) : List Char :=
  if first ≤ last then rightAligned width (decimals cost) else List.replicate width ' '

theorem cell_eq {cost : Int} (writable : Writable cost) (width first last : Nat) :
    cell width first last cost = .ok (cellText width first last cost) := by
  rw [cell, cellText]
  split
  · exact ((writes_digits cost).map (rightAligned width)).eq_ok writable
  · rfl

def cells (width first : Nat) (row : Array Int) : List (List Char) :=
  row.toList.mapIdx fun last cost => cellText width first last cost

/-- A line before blanks are taken away at its end. -/
def padded (width first : Nat) (row : Array Int) : List Char :=
  [' ', ' '].intercalate (cells width first row)

def lineText (width first : Nat) (row : Array Int) : List Char :=
  withoutTrailingBlanks (padded width first row)

theorem line_eq {row : Array Int} (writable : ∀ cost ∈ row, Writable cost) (width first : Nat) :
    line width first row = .ok (lineText width first row) := by
  have hcells : row.toList.zipIdx.mapM (fun place => cell width first place.2 place.1) =
      .ok (cells width first row) := by
    rw [cells, List.mapIdx_eq_zipIdx_map]
    refine mapM_eq_ok fun place hplace => cell_eq (writable _ ?_) width first _
    exact Array.mem_toList_iff.1 (List.fst_mem_of_mem_zipIdx hplace)
  exact congrArg (· >>= fun cells => pure (withoutTrailingBlanks ([' ', ' '].intercalate cells))) hcells

def widest (t : Tableau) : Nat :=
  ((entries t).map fun cost => (decimals cost).length).foldl max 0

theorem writes_width (t : Tableau) : Writes (width t) (∀ cost ∈ entries t, Writable cost) (widest t) :=
  (Writes.mapM (fun cost => (writes_digits cost).map List.length) (entries t)).map (·.foldl max 0)

def printed (t : Tableau) : List String :=
  t.costs.toList.mapIdx fun first row => String.ofList (lineText (widest t) first row)

theorem writes_lines (t : Tableau) : Writes (lines t) (∀ cost ∈ entries t, Writable cost) (printed t) := by
  refine (writes_width t).bind fun writable => ?_
  rw [printed, List.mapIdx_eq_zipIdx_map]
  refine mapM_eq_ok fun place hplace => ?_
  have hrow : ∀ cost ∈ place.1, Writable cost := fun cost hcost =>
    writable cost (List.mem_flatMap.2 ⟨place.1, List.fst_mem_of_mem_zipIdx hplace, Array.mem_toList_iff.2 hcost⟩)
  exact congrArg (String.ofList <$> ·) (line_eq hrow (widest t) place.2)

theorem writes_text (t : Tableau) :
    Writes (text t) (∀ cost ∈ entries t, Writable cost) ("\n".intercalate (printed t)) :=
  (writes_lines t).map ("\n".intercalate ·)

end Written

section Lines

/-- A row that reaches the diagonal, of costs for which cells of this width have room. -/
structure Fits (width first : Nat) (row : Array Int) : Prop where
  inside : first < row.size
  nonneg : ∀ cost ∈ row, 0 ≤ cost
  narrow : ∀ cost ∈ row, (decimals cost).length ≤ width

variable {width first : Nat} {row : Array Int}

@[simp] theorem length_cells : (cells width first row).length = row.size := by
  simp [cells]

theorem cells_getElem {last : Nat} (h : last < (cells width first row).length) {cost : Int}
    (hcost : row[last]? = some cost) : (cells width first row)[last] = cellText width first last cost := by
  obtain ⟨_, rfl⟩ := Array.getElem?_eq_some_iff.1 hcost
  simp [cells]

theorem length_cell {cost : Int} (narrow : (decimals cost).length ≤ width) (last : Nat) :
    (cellText width first last cost).length = width := by
  rw [cellText]
  split
  · rw [rightAligned, List.length_append, List.length_replicate, Nat.sub_add_cancel narrow]
  · exact List.length_replicate

theorem mem_cell {c : Char} {last : Nat} {cost : Int} (h : c ∈ cellText width first last cost) :
    c = ' ' ∨ c ∈ decimals cost := by
  rw [cellText] at h
  split at h
  · exact (List.mem_append.1 h).imp_left List.eq_of_mem_replicate
  · exact Or.inl (List.eq_of_mem_replicate h)

theorem mem_padded {c : Char} (h : c ∈ padded width first row) : c = ' ' ∨ ∃ cost ∈ row, c ∈ decimals cost := by
  rcases mem_intercalate h with h | ⟨text, htext, hmem⟩
  · exact Or.inl (by simpa using h)
  · obtain ⟨last, hlast, rfl⟩ := List.mem_mapIdx.1 htext
    exact (mem_cell hmem).imp_right fun hcost => ⟨_, Array.mem_toList_iff.1 (List.getElem_mem hlast), hcost⟩

theorem words_cell {cost : Int} (nonneg : 0 ≤ cost) (last : Nat) :
    words (cellText width first last cost) = if first ≤ last then [decimals cost] else [] := by
  rw [cellText]
  split
  · rw [rightAligned, words_blanks_append, words_of_notMem (notMem_decimals nonneg rfl) (decimals_ne_nil nonneg)]
  · have hblanks := words_blanks_append width []
    rwa [List.append_nil, words_nil] at hblanks

theorem flatMap_words_cells {costs : List Int} (nonneg : ∀ cost ∈ costs, 0 ≤ cost) (first : Nat) :
    (costs.mapIdx fun last cost => cellText width first last cost).flatMap words = (costs.drop first).map decimals := by
  induction costs generalizing first with
  | nil => simp
  | cons cost costs ih =>
    rw [List.forall_mem_cons] at nonneg
    obtain ⟨hcost, hcosts⟩ := nonneg
    rw [List.mapIdx_cons, List.flatMap_cons, words_cell hcost]
    cases first with
    | zero =>
      have hrest := ih hcosts 0
      simp only [cellText, Nat.zero_le, if_true] at hrest ⊢
      rw [hrest]
      rfl
    | succ first =>
      have hrest := ih hcosts first
      simp only [cellText, Nat.succ_le_succ_iff] at hrest ⊢
      rw [hrest]
      rfl

variable (fits : Fits width first row)
include fits

theorem Fits.aligned : ∀ cell ∈ cells width first row, cell.length = width := by
  intro cell hcell
  obtain ⟨last, h, rfl⟩ := List.mem_mapIdx.1 hcell
  exact length_cell (fits.narrow _ (Array.mem_of_getElem rfl)) last

theorem Fits.newline_notMem_padded : '\n' ∉ padded width first row := by
  intro h
  obtain h | ⟨cost, hcost, hmem⟩ := mem_padded h
  · exact absurd h (by decide)
  · exact notMem_decimals (fits.nonneg cost hcost) rfl hmem

/-- The last column is not before the diagonal, so a line ends in digits. -/
theorem Fits.exists_append_digits :
    ∃ before cost, 0 ≤ cost ∧ padded width first row = before ++ decimals cost := by
  have hinside := fits.inside
  have hlast : row.size - 1 < row.size := by omega
  have hlength : (cells width first row).length = row.size := length_cells
  have hne : cells width first row ≠ [] := List.ne_nil_of_length_pos (by omega)
  have hcell : (cells width first row).getLast hne = rightAligned width (decimals row[row.size - 1]) := by
    simp only [List.getLast_eq_getElem, hlength]
    rw [cells_getElem _ (Array.getElem?_eq_getElem hlast), cellText, if_pos (by omega)]
  have hdrop := drop_intercalate fits.aligned (show (cells width first row).length - 1 < _ by omega)
  rw [List.drop_length_sub_one hne, List.intercalate_singleton, hcell, rightAligned] at hdrop
  have htext := List.take_append_drop (((cells width first row).length - 1) * (width + 2)) (padded width first row)
  rw [padded, hdrop, ← List.append_assoc] at htext
  exact ⟨_, _, fits.nonneg _ (Array.getElem_mem hlast), htext.symm⟩

theorem Fits.lineText_eq : lineText width first row = padded width first row := by
  obtain ⟨before, cost, nonneg, htext⟩ := fits.exists_append_digits
  refine List.rdropWhile_eq_self_iff.2 fun h => ?_
  have hends : (padded width first row).getLast h ∈ decimals cost := by
    simp only [htext, List.getLast_append_of_ne_nil _ (decimals_ne_nil nonneg)]
    exact List.getLast_mem _
  rw [decide_eq_true_iff]
  exact fun hblank => notMem_decimals nonneg rfl (hblank ▸ hends)

/-- What the line of a row shows: nothing is missing at its end, each cost from the diagonal on stands right aligned in
columns of its own, the columns before them and all gaps are blank, and its words are the costs. -/
structure Shows (width first : Nat) (row : Array Int) (text : List Char) : Prop where
  whole : text = padded width first row
  length : text.length = row.size * width + 2 * (row.size - 1)
  cost : ∀ (last : Nat) (cost : Int), first ≤ last → row[last]? = some cost →
    columns text (last * (width + 2)) width = List.replicate (width - (decimals cost).length) ' ' ++ decimals cost
  blank : ∀ last < first, columns text (last * (width + 2)) width = List.replicate width ' '
  gap : ∀ last, last + 1 < row.size → columns text (last * (width + 2) + width) 2 = [' ', ' ']
  words : Text.words text = (row.toList.drop first).map decimals
  readBack : (Text.words text).map (fun word => (Number.ofDigits word : Int)) = row.toList.drop first

theorem Fits.shows : Shows width first row (lineText width first row) := by
  have hwords : words (padded width first row) = (row.toList.drop first).map decimals := by
    rw [padded, words_intercalate]
    exact flatMap_words_cells (fun cost hcost => fits.nonneg cost (Array.mem_toList_iff.1 hcost)) first
  have hlength := length_intercalate fits.aligned
  rw [length_cells] at hlength
  rw [fits.lineText_eq]
  constructor
  case whole => rfl
  case length => exact hlength
  case cost =>
    intro last cost h hcost
    have hlast : last < (cells width first row).length := by
      rw [length_cells]
      exact (Array.getElem?_eq_some_iff.1 hcost).1
    rw [padded, columns_intercalate fits.aligned hlast, cells_getElem hlast hcost, cellText, if_pos h, rightAligned]
  case blank =>
    intro last h
    have hrow := Nat.lt_trans h fits.inside
    have hlast : last < (cells width first row).length := by rwa [length_cells]
    rw [padded, columns_intercalate fits.aligned hlast, cells_getElem hlast (Array.getElem?_eq_getElem hrow), cellText,
      if_neg (Nat.not_le.2 h)]
  case gap =>
    intro last h
    exact columns_intercalate_gap fits.aligned (by rwa [length_cells])
  case words => exact hwords
  case readBack =>
    have hread : ∀ cost ∈ row.toList.drop first, (Number.ofDigits (decimals cost) : Int) = cost := fun cost hcost =>
      ofDigits_decimals (fits.nonneg cost (Array.mem_toList_iff.1 (List.mem_of_mem_drop hcost)))
    rw [hwords, List.map_map]
    exact (List.map_congr_left hread).trans (List.map_id _)

end Lines

section Width

open Tableau

theorem mem_entries {t : Tableau} {cost : Int} :
    cost ∈ entries t ↔ ∃ first last : Nat, entryAt? t.costs first last = some cost := by
  simp only [entries, List.mem_flatMap, Array.mem_toList_iff, entryAt?, itemAt?_ofNat, Option.bind_eq_some_iff]
  constructor
  · rintro ⟨row, hrow, hcost⟩
    obtain ⟨first, hfirst⟩ := Array.mem_iff_getElem?.1 hrow
    obtain ⟨last, hlast⟩ := Array.mem_iff_getElem?.1 hcost
    exact ⟨first, last, row, hfirst, hlast⟩
  · rintro ⟨first, last, row, hfirst, hlast⟩
    exact ⟨row, Array.mem_of_getElem? hfirst, Array.mem_of_getElem? hlast⟩

theorem widest_isGreatest {t : Tableau} (nonempty : entries t ≠ []) :
    IsGreatest {n | ∃ (first last : Nat) (cost : Int), entryAt? t.costs first last = some cost ∧
      (decimals cost).length = n} (widest t) := by
  cases hmax : ((entries t).map fun cost => (decimals cost).length).max? with
  | none => exact absurd (List.map_eq_nil_iff.1 (List.max?_eq_none_iff.1 hmax)) nonempty
  | some greatest =>
    obtain ⟨hmem, hgreatest⟩ := List.max?_eq_some_iff.1 hmax
    rw [widest, List.foldl_max, hmax, Option.getD_some, Nat.zero_max]
    constructor
    · obtain ⟨cost, hcost, hlength⟩ := List.mem_map.1 hmem
      obtain ⟨first, last, hentry⟩ := mem_entries.1 hcost
      exact ⟨first, last, cost, hentry, hlength⟩
    · rintro n ⟨first, last, cost, hentry, rfl⟩
      exact hgreatest _ (List.mem_map_of_mem (mem_entries.2 ⟨first, last, hentry⟩))

theorem length_decimals_le_widest {t : Tableau} {cost : Int} (h : cost ∈ entries t) :
    (decimals cost).length ≤ widest t := by
  obtain ⟨first, last, hentry⟩ := mem_entries.1 h
  exact (widest_isGreatest (List.ne_nil_of_mem h)).2 ⟨first, last, cost, hentry, rfl⟩

end Width

section Table

open Tableau

variable {t : Tableau} {first : Nat} {row : Array Int}

theorem getElem?_printed (t : Tableau) (first : Nat) :
    (printed t)[first]? = t.costs[first]?.map fun row => String.ofList (lineText (widest t) first row) := by
  rw [printed, List.getElem?_mapIdx, Array.getElem?_toList]

theorem mem_printed {c : Char} (h : c ∈ ("\n".intercalate (printed t)).toList) :
    c = '\n' ∨ c = ' ' ∨ c = '-' ∨ c.isDigit = true := by
  rw [String.toList_intercalate] at h
  obtain h | ⟨chars, hchars, hmem⟩ := mem_intercalate h
  · exact Or.inl (List.mem_singleton.1 h)
  · obtain ⟨line, hline, rfl⟩ := List.mem_map.1 hchars
    obtain ⟨first, _, rfl⟩ := List.mem_mapIdx.1 hline
    rw [String.toList_ofList, lineText, withoutTrailingBlanks, List.mem_reverse] at hmem
    have hpadded := List.mem_reverse.1 ((List.dropWhile_sublist _).mem hmem)
    exact Or.inr ((mem_padded hpadded).imp_right fun ⟨_, _, hcost⟩ => mem_decimals hcost)

theorem row_getElem? (hrow : t.costs[first]? = some row) (last : Nat) : row[last]? = entryAt? t.costs first last := by
  rw [entryAt?, itemAt?_ofNat, hrow, Option.bind_some, itemAt?_ofNat]

variable (square : t.Square) (nonneg : ∀ cost ∈ entries t, 0 ≤ cost)
include square

theorem length_printed : (printed t).length = t.length := by
  rw [printed, List.length_mapIdx, Array.length_toList, square.1.1]

include nonneg

theorem fits_row (h : first < t.length) (hrow : t.costs[first]? = some row) : Fits (widest t) first row := by
  have hentry : ∀ cost ∈ row, cost ∈ entries t := by
    intro cost hcost
    obtain ⟨last, hlast⟩ := Array.mem_iff_getElem?.1 hcost
    rw [row_getElem? hrow] at hlast
    exact mem_entries.2 ⟨first, last, hlast⟩
  constructor
  case inside => exact h.trans_eq (square.1.2 row (Array.mem_of_getElem? hrow)).symm
  case nonneg => exact fun cost hcost => nonneg cost (hentry cost hcost)
  case narrow => exact fun cost hcost => length_decimals_le_widest (hentry cost hcost)

theorem exists_line (h : first < t.length) : ∃ row line, t.costs[first]? = some row ∧ row.size = t.length ∧
    (printed t)[first]? = some line ∧ Shows (widest t) first row line.toList := by
  obtain ⟨row, hrow⟩ : ∃ row, t.costs[first]? = some row := ⟨_, Array.getElem?_eq_getElem (h.trans_eq square.1.1.symm)⟩
  refine ⟨row, String.ofList (lineText (widest t) first row), hrow, square.1.2 row (Array.mem_of_getElem? hrow), ?_, ?_⟩
  · rw [getElem?_printed, hrow, Option.map_some]
  · rw [String.toList_ofList]
    exact (fits_row square nonneg h hrow).shows

theorem splitOn_printed (operand : 0 < t.length) :
    ("\n".intercalate (printed t)).toList.splitOn '\n' = (printed t).map String.toList := by
  have hnewline : "\n".toList = ['\n'] := rfl
  rw [String.toList_intercalate, hnewline]
  refine List.splitOn_intercalate '\n' (fun chars hchars => ?_) ?_
  · obtain ⟨line, hline, rfl⟩ := List.mem_map.1 hchars
    obtain ⟨first, hfirst⟩ := List.mem_iff_getElem?.1 hline
    have hlt : first < t.length := (List.getElem?_eq_some_iff.1 hfirst).1.trans_eq (length_printed square)
    obtain ⟨row, line', hrow, _, hline', hshows⟩ := exists_line square nonneg hlt
    obtain rfl := Option.some.inj (hfirst.symm.trans hline')
    rw [hshows.whole]
    exact (fits_row square nonneg hlt hrow).newline_notMem_padded
  · refine mt List.map_eq_nil_iff.1 fun hnil => ?_
    rw [← length_printed square, hnil] at operand
    exact Nat.lt_irrefl _ operand

/-- Equal texts have equal lines, from which equal costs are read back. -/
theorem entryAt?_eq_of_printed_eq {t' : Tableau} (square' : t'.Square) (nonneg' : ∀ cost ∈ entries t', 0 ≤ cost)
    (length : t'.length = t.length) (h : "\n".intercalate (printed t') = "\n".intercalate (printed t)) {last : Nat}
    (hle : first ≤ last) (hlast : last < t.length) :
    entryAt? t'.costs first last = entryAt? t.costs first last := by
  have hfirst := Nat.lt_of_le_of_lt hle hlast
  have operand := Nat.zero_lt_of_lt hfirst
  have hlines := splitOn_printed square' nonneg' (operand.trans_eq length.symm)
  rw [h, splitOn_printed square nonneg operand] at hlines
  obtain ⟨row, line, hrow, _, hline, hshows⟩ := exists_line square nonneg hfirst
  obtain ⟨row', line', hrow', _, hline', hshows'⟩ := exists_line square' nonneg' (hfirst.trans_eq length.symm)
  have hsame : line'.toList = line.toList := by
    have hplace := congrArg (·[first]?) hlines
    simp only [List.getElem?_map, hline, hline', Option.map_some] at hplace
    exact (Option.some.inj hplace).symm
  have hrows : row'.toList.drop first = row.toList.drop first := by
    rw [← hshows'.readBack, ← hshows.readBack, hsame]
  have hplace := congrArg (·[last - first]?) hrows
  simp only [List.getElem?_drop, Nat.add_sub_cancel' hle, Array.getElem?_toList] at hplace
  rw [← row_getElem? hrow', ← row_getElem? hrow, hplace]

end Table

section Solved

open Tableau Chain

variable {dimensions : List Int}

theorem cost_mem_entries (operand : 2 ≤ dimensions.length) :
    (ofDimensions dimensions).cost ∈ entries (ofDimensions dimensions) := by
  have hlength : (ofDimensions dimensions).length = dimensions.length - 1 := length_ofDimensions dimensions
  exact mem_entries.2 ⟨0, _, entryAt?_costs dimensions (by omega) (by omega)⟩

theorem nonneg_of_mem_entries (sound : ∀ d ∈ dimensions, 0 ≤ d) : ∀ cost ∈ entries (ofDimensions dimensions), 0 ≤ cost := by
  intro cost hcost
  obtain ⟨first, last, hentry⟩ := mem_entries.1 hcost
  have hcostOf := costOf_nonneg dimensions sound first last
  rwa [costOf, entryOf_eq, hentry, Option.getD_some] at hcostOf

/-- Printed tables of one size are equal only for equal costs. -/
theorem costs_eq_of_printed_eq {dimensions' : List Int} (sound : ∀ d ∈ dimensions, 0 ≤ d)
    (sound' : ∀ d ∈ dimensions', 0 ≤ d) (length : (ofDimensions dimensions').length = (ofDimensions dimensions).length)
    (h : "\n".intercalate (printed (ofDimensions dimensions')) = "\n".intercalate (printed (ofDimensions dimensions))) :
    (ofDimensions dimensions').costs = (ofDimensions dimensions).costs := by
  rw [costs_ofDimensions, costs_ofDimensions, length]
  refine upperTable_congr fun first last hlt hlast => ?_
  have hentry := entryAt?_eq_of_printed_eq (square_ofDimensions dimensions) (nonneg_of_mem_entries sound)
    (square_ofDimensions dimensions') (nonneg_of_mem_entries sound') length h (Nat.le_of_lt hlt) hlast
  rw [costOf, costOf, entryOf_eq, entryOf_eq, hentry]

end Solved

open Tableau

theorem text_eq_of_costs_eq {t t' : Tableau} (h : t'.costs = t.costs) : text t' = text t := by
  rw [text, text, lines, lines, width, width, entries, entries, h]

/-- The table of a chain is printed if each cost can be written. Its columns are as wide as the widest cost. It has a line
for each operand, and each line shows its row: aligned, and so that the costs from the diagonal on are read back. Chains
with as many operands have the same printed table only if they have the same costs. -/
theorem text_readBack {dimensions : List Int} {t : Tableau} (solved : solve dimensions = .ok t) :
    ((∃ cost ∈ entries t, 10 ^ Number.maxDigits ≤ cost) → text t = .error .tooManyDigits) ∧
    ((∀ cost ∈ entries t, cost < 10 ^ Number.maxDigits) → ∃ width lines,
      CostTable.lines t = .ok lines ∧ text t = .ok ("\n".intercalate lines) ∧
      IsGreatest {n | ∃ (first last : Nat) (cost : Int), entryAt? t.costs first last = some cost ∧
        (decimals cost).length = n} width ∧
      ("\n".intercalate lines).toList.splitOn '\n' = lines.map String.toList ∧ lines.length = t.length ∧
      (∀ first < t.length, ∃ row line, t.costs[first]? = some row ∧ row.size = t.length ∧
        lines[first]? = some line ∧ Shows width first row line.toList) ∧
      ∀ dimensions' t', solve dimensions' = .ok t' → t'.length = t.length →
        (text t' = text t ↔ t'.costs = t.costs)) := by
  obtain ⟨⟨enough, sound⟩, rfl⟩ := solve_eq_ok_iff.1 solved
  have operand : 0 < (ofDimensions dimensions).length := by
    rw [length_ofDimensions]
    omega
  have square := square_ofDimensions dimensions
  have nonneg := nonneg_of_mem_entries sound
  have hwrites := writes_text (ofDimensions dimensions)
  refine ⟨fun ⟨cost, hcost, hlong⟩ => hwrites.eq_error fun hall => ?_, fun short => ?_⟩
  · exact writable_iff (nonneg cost hcost) |>.1 (hall cost hcost) |>.not_ge hlong
  have writable : ∀ cost ∈ entries (ofDimensions dimensions), Writable cost := fun cost hcost =>
    (writable_iff (nonneg cost hcost)).2 (short cost hcost)
  have htext := hwrites.eq_ok writable
  refine ⟨_, _, (writes_lines _).eq_ok writable, htext, widest_isGreatest ?_, splitOn_printed square nonneg operand,
    length_printed square, fun first h => exists_line square nonneg h, fun dimensions' t' solved' length => ?_⟩
  · exact List.ne_nil_of_mem (mem_entries.2 ⟨0, 0, entryAt?_costs dimensions operand operand⟩)
  · obtain ⟨⟨_, sound'⟩, rfl⟩ := solve_eq_ok_iff.1 solved'
    refine ⟨fun h => ?_, text_eq_of_costs_eq⟩
    have hwrites' := writes_text (ofDimensions dimensions')
    by_cases writable' : ∀ cost ∈ entries (ofDimensions dimensions'), Writable cost
    · rw [hwrites'.eq_ok writable', htext] at h
      exact costs_eq_of_printed_eq sound sound' length (Except.ok.inj h)
    · rw [hwrites'.eq_error writable', htext] at h
      cases h

theorem text_readBack_of_threeOperands :
    ∃ t, solve [10, 2, 5, 30] = .ok t ∧ (∀ cost ∈ entries t, cost < 10 ^ Number.maxDigits) ∧
      text t = .ok "  0  100  900\n       0  300\n            0" ∧
      Shows 3 1 #[0, 0, 300] "       0  300".toList ∧
      ∃ t', solve [1, 20, 5, 3] = .ok t' ∧ t'.length = t.length ∧ text t' ≠ text t := by
  have solved : solve [10, 2, 5, 30] = .ok (ofDimensions [10, 2, 5, 30]) := rfl
  have solved' : solve [1, 20, 5, 3] = .ok (ofDimensions [1, 20, 5, 3]) := rfl
  have hthree : ∀ cost ∈ entries (ofDimensions [10, 2, 5, 30]), cost < 10 ^ 3 := by decide
  have short : ∀ cost ∈ entries (ofDimensions [10, 2, 5, 30]), cost < 10 ^ Number.maxDigits := fun cost hcost =>
    lt_pow_maxDigits (hthree cost hcost)
  have hprinted : printed (ofDimensions [10, 2, 5, 30]) =
      ["  0  100  900", "       0  300", "            0"] := by decide
  obtain ⟨width, lines, hlines, htext, hgreatest, _, _, hshows, hcompare⟩ := (text_readBack solved).2 short
  have nonneg : ∀ cost ∈ entries (ofDimensions [10, 2, 5, 30]), 0 ≤ cost := by decide
  have writable : ∀ cost ∈ entries (ofDimensions [10, 2, 5, 30]), Writable cost := fun cost hcost =>
    (writable_iff (nonneg cost hcost)).2 (short cost hcost)
  rw [(writes_lines _).eq_ok writable, hprinted] at hlines
  cases hlines
  obtain rfl : 3 = width := (widest_isGreatest (by decide)).unique hgreatest
  obtain ⟨row, line, hrow, _, hline, hshown⟩ := hshows 1 (by decide)
  cases hline
  obtain rfl : #[0, 0, 300] = row := Option.some.inj (Eq.trans (by decide) hrow)
  exact ⟨_, solved, short, htext, hshown, _, solved', rfl, (hcompare _ _ solved' rfl).not.2 (by decide)⟩

/-- The one product of the chain costs too many digits. -/
theorem text_of_longCost :
    ∃ t, solve [10 ^ 1500, 10 ^ 1500, 10 ^ 1500] = .ok t ∧ text t = .error .tooManyDigits := by
  have hlong : ¬Writable (10 ^ (1500 + 1500 + 1500)) := not_writable_pow (by decide)
  rw [Int.pow_add, Int.pow_add] at hlong
  have nonneg : (0 : Int) ≤ 10 ^ 1500 := Int.le_of_lt (Int.pow_pos (by decide))
  generalize (10 : Int) ^ 1500 = d at hlong nonneg
  refine ⟨_, solve_eq_ok (by simp) (by simpa using nonneg), (writes_text _).eq_error fun writable => hlong ?_⟩
  rw [← cost_of_twoOperands]
  exact writable _ (cost_mem_entries (by simp))

end CostTable
end MatrixChain
