import MatrixChain.Command.Response
import MatrixChain.Proofs.BracketedNotation
import MatrixChain.Proofs.ChainFlaw
import MatrixChain.Proofs.PrintedTable

/-!
# What is shown of a text

Where output is read, control sequences in it may be missing. The command relies on no more than that: what holds no
escape character is shown as it is, and no control sequence goes over a blank, a bracket or an operator. So of all that
the command prints only the names of operands can look different from what was printed.
-/

namespace MatrixChain
namespace Command

open Chain FullyBracketed

def escape : Char := '\x1b'

def Plain (text : String) : Prop :=
  escape ∉ text.toList

/-- Where a text is shown, nothing is missing but control sequences, and these go over no blank, bracket or operator. -/
structure Unstyling (shown : String → String) : Prop where
  plain : ∀ text, Plain text → shown text = text
  apart : ∀ left right : String, ∀ c ∈ separators,
    shown (left ++ c.toString ++ right) = shown left ++ c.toString ++ shown right

theorem Plain.append {text text' : String} (h : Plain text) (h' : Plain text') : Plain (text ++ text') := by
  rw [Plain, String.toList_append, List.mem_append]
  exact fun hmem => hmem.elim h h'

theorem plain_int (n : Int) : Plain (toString n) := fun h =>
  (mem_decimals h).elim (absurd · (by decide)) (absurd · (by decide))

theorem plain_nat (n : Nat) : Plain (toString n) := fun h =>
  absurd (isDigit_of_mem_repr h) (by decide)

theorem plain_intercalate {separator : String} (hseparator : Plain separator) {texts : List String}
    (h : ∀ text ∈ texts, Plain text) : Plain (separator.intercalate texts) := by
  rw [Plain, String.toList_intercalate]
  intro hmem
  obtain hmem | ⟨chars, hchars, hmem⟩ := Text.mem_intercalate hmem
  · exact hseparator hmem
  · obtain ⟨text, htext, rfl⟩ := List.mem_map.1 hchars
    exact h text htext hmem

theorem plain_nameCount (given operands : Nat) : Plain (Fault.nameCount given operands).message := by
  have hbeginning : Plain "Expected one name per operand, but found " := by simp [Plain, escape]
  have hnames : Plain " names for " := by simp [Plain, escape]
  have hoperands : Plain " operands" := by simp [Plain, escape]
  exact (((hbeginning.append (plain_nat given)).append hnames).append (plain_nat operands)).append hoperands

theorem plain_reason {dimensions : List Int} {flaw : ChainFlaw} (h : flaw? dimensions = some flaw) :
    Plain flaw.reason := by
  have hfew : Plain "found no operands" := by simp [Plain, escape]
  have hnegative : Plain "found negative dimension " := by simp [Plain, escape]
  cases flaw?_eq_some_iff.1 h with
  | noOperands _ => exact hfew
  | negativeDimension _ _ _ => exact hnegative.append (plain_int _)

theorem plain_bracketed (dimensions : List Int) : Plain (Text.bracketed (dimensions.map toString)) := by
  have hopening : Plain "[" := by simp [Plain, escape]
  have hseparator : Plain ", " := by simp [Plain, escape]
  have hclosing : Plain "]" := by simp [Plain, escape]
  refine (hopening.append (plain_intercalate hseparator fun text htext => ?_)).append hclosing
  obtain ⟨d, _, rfl⟩ := List.mem_map.1 htext
  exact plain_int d

theorem plain_message {m : BrokenChain} (hreason : Plain m.flaw.reason) : Plain m.message := by
  have hbeginning : Plain "Expected a chain of at least one operand with non-negative, compatible dimensions, but " := by
    simp [Plain, escape]
  have hmiddle : Plain " in chain with dimensions " := by simp [Plain, escape]
  have hexpectation := hbeginning.append hreason
  have hwhole := (hexpectation.append hmiddle).append (plain_bracketed m.dimensions)
  unfold BrokenChain.message BrokenChain.wording
  split
  · exact hexpectation
  · exact hwhole

theorem plain_table (t : Tableau) : Plain ("\n".intercalate (CostTable.printed t)) := by
  intro h
  have hchars : ¬(escape = '\n' ∨ escape = ' ' ∨ escape = '-' ∨ escape.isDigit = true) := by decide
  exact hchars (CostTable.mem_printed h)

def unstyled (lines : List String) : String :=
  ended id lines

theorem unstyled_cons_ne_empty (line : String) (lines : List String) : unstyled (line :: lines) ≠ "" := by
  intro h
  have hchars := congrArg String.toList h
  simp [unstyled, ended, String.toList_join] at hchars

variable {shown : String → String} (unstyling : Unstyling shown)
include unstyling

/-- Control sequences stay within the operands of a product. -/
theorem Unstyling.shown_inBrackets (left right : String) :
    shown (inBrackets left right) = inBrackets (shown left) (shown right) := by
  have hempty : shown "" = "" := unstyling.plain "" List.not_mem_nil
  have hopening (rest : String) : shown ("" ++ "(" ++ rest) = shown "" ++ "(" ++ shown rest :=
    unstyling.apart "" rest '(' (by decide)
  have hblank (before rest : String) : shown (before ++ " " ++ rest) = shown before ++ " " ++ shown rest :=
    unstyling.apart before rest ' ' (by decide)
  have htimes (rest : String) : shown ("" ++ "*" ++ rest) = shown "" ++ "*" ++ shown rest :=
    unstyling.apart "" rest '*' (by decide)
  have hclosing : shown (right ++ ")" ++ "") = shown right ++ ")" ++ shown "" :=
    unstyling.apart right "" ')' (by decide)
  have hparts (left right : String) : inBrackets left right =
      "" ++ "(" ++ (left ++ " " ++ ("" ++ "*" ++ ("" ++ " " ++ (right ++ ")" ++ "")))) := by
    apply String.toList_inj.1
    simp [inBrackets]
  rw [hparts, hparts, hopening, hblank, htimes, hblank, hclosing, hempty]

theorem Unstyling.shown_written (name : Nat → String) (b : Bracketing) :
    shown (b.written name) = b.written fun i => shown (name i) :=
  b.apply_assemble unstyling.shown_inBrackets

theorem Unstyling.ended_of_plain {lines : List String} (h : ∀ line ∈ lines, Plain line) :
    ended shown lines = unstyled lines := by
  have hlines : lines.map (fun line => shown line ++ "\n") = lines.map fun line => id line ++ "\n" :=
    List.map_congr_left fun line hline => congrArg (· ++ "\n") (unstyling.plain line (h line hline))
  rw [ended, hlines]
  rfl

/-- Only the first line of an answer may be styled. -/
theorem Unstyling.ended_cons {line : String} {lines : List String} (h : ∀ line ∈ lines, Plain line) :
    ended shown (line :: lines) = unstyled (shown line :: lines) := by
  have hlines := unstyling.ended_of_plain h
  apply String.toList_inj.1
  have hchars := congrArg String.toList hlines
  simp only [ended, unstyled, String.toList_join, List.map_cons, List.flatMap_cons, id_eq] at hchars ⊢
  rw [hchars]

end Command
end MatrixChain
