/-!
# Words and columns

What stands between the blanks of a text, and what stands in given columns of it. Cells of one width that are set apart
by two blanks are found again in their columns, and the words of the text are those of the cells.
-/

namespace MatrixChain
namespace Text

section Words

/-- What stands between blanks. -/
def words (text : List Char) : List (List Char) :=
  (text.splitOnP (· = ' ')).filter (· ≠ [])

@[simp] theorem words_nil : words [] = [] := by
  simp [words]

/-- A blank belongs to no word, and no word goes on over it. -/
theorem words_append_blank (left right : List Char) : words (left ++ ' ' :: right) = words left ++ words right := by
  rw [words, List.splitOnP_append_cons left right (by simp), List.filter_append]
  rfl

theorem words_blanks_append (n : Nat) (text : List Char) : words (List.replicate n ' ' ++ text) = words text := by
  induction n with
  | zero => rfl
  | succ n ih =>
    rw [List.replicate_succ, List.cons_append]
    exact (words_append_blank [] _).trans ih

theorem words_of_notMem {text : List Char} (h : ' ' ∉ text) (nonempty : text ≠ []) : words text = [text] := by
  have hnone : ∀ c ∈ text, decide (c = ' ') = false := by
    intro c hc
    exact decide_eq_false fun hblank => h (hblank ▸ hc)
  rw [words, List.splitOnP_eq_singleton hnone]
  simp [nonempty]

/-- The words of cells that are set apart are those of each cell. -/
theorem words_intercalate (cells : List (List Char)) : words ([' ', ' '].intercalate cells) = cells.flatMap words := by
  induction cells with
  | nil => exact words_nil
  | cons cell cells ih =>
    cases cells with
    | nil => rw [List.intercalate_singleton, List.flatMap_singleton]
    | cons cell' cells =>
      rw [List.intercalate_cons_cons, List.append_assoc, List.cons_append, words_append_blank, List.cons_append,
        List.nil_append, List.flatMap_cons, ← ih]
      exact congrArg _ (words_append_blank [] _)

end Words

section Columns

theorem mem_intercalate {separator : List Char} {cells : List (List Char)} {c : Char}
    (h : c ∈ separator.intercalate cells) : c ∈ separator ∨ ∃ cell ∈ cells, c ∈ cell := by
  induction cells with
  | nil => cases h
  | cons cell cells ih =>
    cases cells with
    | nil => exact Or.inr ⟨cell, List.mem_cons_self, by rwa [List.intercalate_singleton] at h⟩
    | cons cell' cells =>
      rw [List.intercalate_cons_cons, List.mem_append, List.mem_append] at h
      rcases h with (h | h) | h
      · exact Or.inr ⟨cell, List.mem_cons_self, h⟩
      · exact Or.inl h
      · exact (ih h).imp_right fun hcell => hcell.imp fun _ hmem => ⟨List.mem_cons_of_mem _ hmem.1, hmem.2⟩

/-- What stands in `count` columns from `start` on. -/
def columns (text : List Char) (start count : Nat) : List Char :=
  (text.drop start).take count

variable {width : Nat} {cells : List (List Char)} (aligned : ∀ cell ∈ cells, cell.length = width)
include aligned

theorem length_intercalate :
    ([' ', ' '].intercalate cells).length = cells.length * width + 2 * (cells.length - 1) := by
  induction cells with
  | nil => simp [List.intercalate]
  | cons cell cells ih =>
    rw [List.forall_mem_cons] at aligned
    obtain ⟨hcell, hcells⟩ := aligned
    cases cells with
    | nil => simp [List.intercalate_singleton, hcell]
    | cons cell' cells =>
      rw [List.intercalate_cons_cons, List.length_append, List.length_append, ih hcells, hcell]
      simp only [List.length_cons, List.length_nil, Nat.add_sub_cancel, Nat.succ_mul]
      omega

theorem drop_intercalate {i : Nat} (h : i < cells.length) :
    ([' ', ' '].intercalate cells).drop (i * (width + 2)) = [' ', ' '].intercalate (cells.drop i) := by
  induction i generalizing cells with
  | zero => rw [Nat.zero_mul, List.drop_zero, List.drop_zero]
  | succ i ih =>
    match cells, h with
    | cell :: cell' :: cells, h =>
      rw [List.forall_mem_cons] at aligned
      have hlength : (cell ++ [' ', ' ']).length = width + 2 := by simp [aligned.1]
      rw [List.intercalate_cons_cons, Nat.succ_mul, Nat.add_comm, ← List.drop_drop,
        List.drop_left' hlength, ih aligned.2 (Nat.lt_of_succ_lt_succ h), List.drop_succ_cons]

theorem columns_intercalate {i : Nat} (h : i < cells.length) :
    columns ([' ', ' '].intercalate cells) (i * (width + 2)) width = cells[i] := by
  have hlength : cells[i].length = width := aligned _ (List.getElem_mem h)
  rw [columns, drop_intercalate aligned h, List.drop_eq_getElem_cons h]
  cases cells.drop (i + 1) with
  | nil => rw [List.intercalate_singleton, ← hlength, List.take_length]
  | cons cell' cells' =>
    rw [List.intercalate_cons_cons, List.append_assoc, ← hlength, List.take_left]

theorem columns_intercalate_gap {i : Nat} (h : i + 1 < cells.length) :
    columns ([' ', ' '].intercalate cells) (i * (width + 2) + width) 2 = [' ', ' '] := by
  have hi : i < cells.length := Nat.lt_of_succ_lt h
  have hlength : cells[i].length = width := aligned _ (List.getElem_mem hi)
  rw [columns, ← List.drop_drop, drop_intercalate aligned hi, List.drop_eq_getElem_cons hi, List.drop_eq_getElem_cons h,
    List.intercalate_cons_cons, List.append_assoc, List.drop_left' hlength]
  rfl

end Columns

end Text
end MatrixChain
