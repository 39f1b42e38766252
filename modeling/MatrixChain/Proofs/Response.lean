import MatrixChain.Proofs.Report

/-!
# What the command answers is consistent

A chain that cannot be planned, or that has not as many names as operands, is refused with a message and no output.
Otherwise the lines of the answer agree: the association in writing has the cost on the second line, which is the least of
all, and the third line is the cost from left to right. A cost that is too long to be written ends the answer before its
line.
-/

namespace MatrixChain
namespace Command

open Chain InfixToken FullyBracketed

section Answers

variable {shown : String → String} (unstyling : Unstyling shown) {dimensions : List Int} {names : List String}
  {table : Bool}

/-- The dimensions and the names do not describe a chain. -/
def Refused (dimensions : List Int) (names : List String) : Prop :=
  dimensions.length < 2 ∨ (∃ d ∈ dimensions, d < 0) ∨ (names ≠ [] ∧ names.length ≠ dimensions.length - 1)

theorem flaw?_eq_none_of_not_refused (h : ¬Refused dimensions names) :
    flaw? dimensions = none ∧ (names = [] ∨ names.length = dimensions.length - 1) := by
  simp only [Refused, not_or, not_exists, not_and, not_lt] at h
  exact ⟨(flaw?_eq_none_iff dimensions).2 ⟨h.1, h.2.1⟩, or_iff_not_imp_left.2 fun given => not_not.1 (h.2.2 given)⟩

theorem exists_flaw (h : dimensions.length < 2 ∨ ∃ d ∈ dimensions, d < 0) : ∃ flaw, flaw? dimensions = some flaw := by
  refine Option.ne_none_iff_exists'.1 fun hnone => ?_
  obtain ⟨operand, nonneg⟩ := (flaw?_eq_none_iff dimensions).1 hnone
  rcases h with h | ⟨d, hd, h⟩
  · omega
  · exact absurd h (not_lt.2 (nonneg d hd))

include unstyling in
theorem Unstyling.code_of_refused (h : Refused dimensions names) :
    (respond shown dimensions names table).code = 1 ∧ (respond shown dimensions names table).out = "" := by
  cases hflaw : flaw? dimensions with
  | some flaw =>
    by_cases writable : ∀ d ∈ dimensions, Writable d
    · rw [unstyling.respond_of_flaw hflaw writable]
      exact ⟨rfl, rfl⟩
    · rw [respond_of_longFlaw hflaw writable]
      exact ⟨rfl, rfl⟩
  | none =>
    rcases or_assoc.2 h with hbad | ⟨given, hcount⟩
    · obtain ⟨flaw, hsome⟩ := exists_flaw hbad
      exact absurd (hflaw.symm.trans hsome) (Option.some_ne_none flaw).symm
    · rw [unstyling.respond_of_nameCount hflaw given hcount]
      exact ⟨rfl, rfl⟩

section Lines

variable (shown dimensions names table) (line : String) (cost leftDeep : Int)

/-- The line and the costs of an answer agree with each other and with the dimensions. -/
structure Agrees : Prop where
  least : IsLeast {c | ∃ b : Bracketing, b.Spans 0 (dimensions.length - 2) ∧ b.cost dimensions.toArray = c} cost
  /-- Over words the line is an association of the operands with that cost, and reads as nothing else. -/
  association : (∀ name ∈ names, IsWord separators (shown name)) →
    ∃ b : Bracketing, b.Spans 0 (dimensions.length - 2) ∧ b.cost dimensions.toArray = cost ∧
      ∀ s, Reads line s ↔ s = b.named fun i => (shownNames shown dimensions names).getD i ""
  oneLine : (∀ name ∈ names, '\n' ∉ (shown name).toList) → '\n' ∉ line.toList
  leftDeep_eq : leftDeep = (Bracketing.leftDeep (dimensions.length - 2)).cost dimensions.toArray
  le : cost ≤ leftDeep

/-- The line and the costs are answered, up to the first number that is too long to be written. -/
structure Answered : Prop where
  longCost : 10 ^ Number.maxDigits ≤ cost → respond shown dimensions names table = brokenOff [line]
  longLeftDeep : cost < 10 ^ Number.maxDigits → 10 ^ Number.maxDigits ≤ leftDeep →
    respond shown dimensions names table = brokenOff [line, costLine cost]
  withoutTable : leftDeep < 10 ^ Number.maxDigits → table = false →
    respond shown dimensions names table = answer (summary line cost leftDeep)
  withTable : leftDeep < 10 ^ Number.maxDigits → table = true →
    ∃ t, Tableau.solve dimensions = .ok t ∧
      ((∃ c ∈ CostTable.entries t, 10 ^ Number.maxDigits ≤ c) →
        respond shown dimensions names table = brokenOff (summary line cost leftDeep ++ ["cost table:"])) ∧
      ((∀ c ∈ CostTable.entries t, c < 10 ^ Number.maxDigits) → ∃ text, CostTable.text t = .ok text ∧
        respond shown dimensions names table = answer (summary line cost leftDeep ++ ["cost table:", text]))

end Lines

theorem Answered.out_ne_empty {line : String} {cost leftDeep : Int}
    (h : Answered shown dimensions names table line cost leftDeep) : (respond shown dimensions names table).out ≠ "" := by
  rcases lt_or_ge cost (10 ^ Number.maxDigits) with short | long
  · rcases lt_or_ge leftDeep (10 ^ Number.maxDigits) with short' | long'
    · cases table with
      | false =>
        rw [h.withoutTable short' rfl]
        exact unstyled_cons_ne_empty _ _
      | true =>
        obtain ⟨t, _, hlong, hshort⟩ := h.withTable short' rfl
        by_cases hall : ∀ c ∈ CostTable.entries t, c < 10 ^ Number.maxDigits
        · obtain ⟨text, _, hrespond⟩ := hshort hall
          rw [hrespond]
          exact unstyled_cons_ne_empty _ _
        · simp only [not_forall, not_lt, exists_prop] at hall
          rw [hlong hall]
          exact unstyled_cons_ne_empty _ _
    · rw [h.longLeftDeep short long']
      exact unstyled_cons_ne_empty _ _
  · rw [h.longCost long]
    exact unstyled_cons_ne_empty _ _

section Chain

variable (h : ¬Refused dimensions names)
include h

theorem two_le_of_not_refused : 2 ≤ dimensions.length :=
  ((flaw?_eq_none_iff dimensions).1 (flaw?_eq_none_of_not_refused h).1).1

theorem shownName_mem {b : Bracketing} (hb : b.Spans 0 (dimensions.length - 2)) {i : Nat} (hi : i ∈ b.operands) :
    (shownNames shown dimensions names).getD i "" ∈ shownNames shown dimensions names := by
  have operand := two_le_of_not_refused h
  have hlength : (shownNames shown dimensions names).length = dimensions.length - 1 := by
    rw [shownNames, List.length_map, length_operandNames (flaw?_eq_none_of_not_refused h).2]
  rw [hb.operands_eq, List.mem_range'_1] at hi
  have hlt : i < (shownNames shown dimensions names).length := by omega
  rw [List.getD_eq_getElem?_getD, List.getElem?_eq_getElem hlt]
  exact List.getElem_mem hlt

include unstyling

theorem Unstyling.agrees :
    Agrees shown dimensions names (association dimensions (shownNames shown dimensions names))
      (Tableau.ofDimensions dimensions).cost
      ((Bracketing.leftDeep (dimensions.length - 2)).cost dimensions.toArray) := by
  have operand := two_le_of_not_refused h
  have hspans := Tableau.cheapest_spans operand
  constructor
  case least => exact Tableau.costOf_isLeast dimensions (Nat.zero_le _) (by omega)
  case association =>
    intro words
    have hshown := unstyling.isWord_of_mem_shownNames dimensions words
    exact ⟨_, hspans, Tableau.cost_cheapest operand,
      Bracketing.reads_written _ fun i hi => hshown _ (shownName_mem h hspans hi)⟩
  case oneLine =>
    intro oneLine hmem
    have hshown := unstyling.newline_notMem_shownNames dimensions oneLine
    rcases Bracketing.mem_written _ hmem with hseparator | ⟨i, hi, hname⟩
    · exact absurd hseparator (by decide)
    · exact hshown _ (shownName_mem h hspans hi) hname
  case leftDeep_eq => rfl
  case le => exact Tableau.cost_le_cost operand (Bracketing.leftDeep_spans _)

variable (table) in
theorem Unstyling.answered :
    Answered shown dimensions names table (association dimensions (shownNames shown dimensions names))
      (Tableau.ofDimensions dimensions).cost
      ((Bracketing.leftDeep (dimensions.length - 2)).cost dimensions.toArray) := by
  obtain ⟨sound, named⟩ := flaw?_eq_none_of_not_refused h
  obtain ⟨operand, nonneg⟩ := (flaw?_eq_none_iff dimensions).1 sound
  have hleftDeep : leftDeepCost (Tableau.ofDimensions dimensions).dimensions =
      .ok ((Bracketing.leftDeep (dimensions.length - 2)).cost dimensions.toArray) := leftDeepCost_eq sound
  have hle := Tableau.cost_le_cost operand (Bracketing.leftDeep_spans (dimensions.length - 2))
  -- the association has the least cost, so none of the numbers is negative, and the last one is the longest
  have hcost := writable_iff (Tableau.costOf_nonneg dimensions nonneg 0 ((Tableau.ofDimensions dimensions).length - 1))
  have hleftDeepCost := writable_iff ((Tableau.costOf_nonneg dimensions nonneg 0 _).trans hle)
  have hentry := fun c hc => writable_iff (CostTable.nonneg_of_mem_entries nonneg c hc)
  constructor
  case longCost => exact fun long => unstyling.respond_of_cost sound named (hcost.not.2 (not_lt.2 long))
  case longLeftDeep =>
    exact fun short long =>
      unstyling.respond_of_leftDeep sound named hleftDeep (hcost.2 short) (hleftDeepCost.not.2 (not_lt.2 long))
  case withoutTable =>
    rintro short rfl
    exact unstyling.respond_without_table sound named hleftDeep (hcost.2 (hle.trans_lt short)) (hleftDeepCost.2 short)
  case withTable =>
    rintro short rfl
    have hshort := hcost.2 (hle.trans_lt short)
    refine ⟨_, solve_of_sound sound, fun hsome => ?_, fun hall => ?_⟩
    · obtain ⟨c, hc, long⟩ := hsome
      exact unstyling.respond_of_entry sound named hleftDeep hshort (hleftDeepCost.2 short) fun all =>
        absurd long (not_le.2 ((hentry c hc).1 (all c hc)))
    · exact unstyling.respond_with_table sound named hleftDeep hshort (hleftDeepCost.2 short) fun c hc =>
        (hentry c hc).2 (hall c hc)

end Chain

end Answers

theorem unstyling_id : Unstyling id :=
  ⟨fun _ _ => rfl, fun _ _ _ _ => rfl⟩

section Exceptions

theorem respond_of_longCost :
    ¬Refused [10 ^ 1500, 10 ^ 1500, 10 ^ 1500] [] ∧
      respond id [10 ^ 1500, 10 ^ 1500, 10 ^ 1500] [] false = brokenOff ["(A1 * A2)"] := by
  have hlong : ¬Writable (10 ^ (1500 + 1500 + 1500)) := not_writable_pow (by decide)
  rw [Int.pow_add, Int.pow_add] at hlong
  have nonneg : (0 : Int) ≤ 10 ^ 1500 := Int.le_of_lt (Int.pow_pos (by decide))
  generalize (10 : Int) ^ 1500 = d at hlong nonneg
  have chain : ¬Refused [d, d, d] [] := by simpa [Refused] using nonneg
  have hproduct : 0 ≤ d * d * d := Int.mul_nonneg (Int.mul_nonneg nonneg nonneg) nonneg
  have hnames : shownNames id [d, d, d] [] = (Tableau.defaultNames 2).map id := rfl
  have hline : (Bracketing.join (.operand 0) (.operand 1)).written (fun i =>
      ((Tableau.defaultNames 2).map id).getD i "") = "(A1 * A2)" := by decide
  have hanswer := (unstyling_id.answered false chain).longCost
  rw [association, Tableau.cheapest_of_twoOperands, Tableau.cost_of_twoOperands, hnames, hline] at hanswer
  exact ⟨chain, hanswer (not_lt.1 ((writable_iff hproduct).not.1 hlong))⟩

/-- Leave out what stands from an escape character up to the next letter, or up to the next separator. -/
def leaveOut : Bool → List Char → List Char
  | _, [] => []
  | inside, c :: rest =>
    if c = escape then leaveOut true rest
    else if inside = true ∧ c ∉ separators then leaveOut (!c.isAlpha) rest
    else c :: leaveOut false rest

theorem leaveOut_of_plain {chars : List Char} (h : escape ∉ chars) : leaveOut false chars = chars := by
  induction chars with
  | nil => rfl
  | cons c rest ih =>
    obtain ⟨hc, hrest⟩ := not_or.1 (mt List.mem_cons.2 h)
    rw [leaveOut, if_neg (Ne.symm hc), if_neg (by simp), ih hrest]

theorem leaveOut_append {c : Char} (h : c ∈ separators) (inside : Bool) (left right : List Char) :
    leaveOut inside (left ++ c :: right) = leaveOut inside left ++ c :: leaveOut false right := by
  induction left generalizing inside with
  | nil =>
    have hc : c ≠ escape := by
      rintro rfl
      exact absurd h (by decide)
    simp [leaveOut, hc, h]
  | cons c' left ih =>
    rw [List.cons_append, leaveOut, leaveOut]
    split
    · exact ih true
    · split
      · exact ih _
      · rw [ih, List.cons_append]

def withoutStyling (text : String) : String :=
  String.ofList (leaveOut false text.toList)

theorem unstyling_withoutStyling : Unstyling withoutStyling where
  plain text h := by rw [withoutStyling, leaveOut_of_plain h, String.ofList_toList]
  apart left right c h := by
    apply String.toList_inj.1
    have hchars := leaveOut_append h false left.toList right.toList
    simpa [withoutStyling] using hchars

/-- Names in bold: a control sequence at the beginning of the first and one at the end of the last. -/
def boldNames : List String := ["\x1b[1mA", "B\x1b[0m"]

theorem respond_of_boldNames {shown : String → String} (unstyling : Unstyling shown) (first : shown "\x1b[1mA" = "A")
    (second : shown "B\x1b[0m" = "B") :
    respond shown [5, 6, 7] boldNames false = answer (summary "(A * B)" 210 210) := by
  have chain : ¬Refused [5, 6, 7] boldNames := by simp [Refused, boldNames]
  have hnames : shownNames shown [5, 6, 7] boldNames = ["A", "B"] := by
    simp [shownNames, operandNames, boldNames, first, second]
  have hline : (Bracketing.join (.operand 0) (.operand 1)).written (fun i => ["A", "B"].getD i "") = "(A * B)" := by
    decide
  have short : (210 : Int) < 10 ^ Number.maxDigits := lt_pow_maxDigits (by decide)
  have hanswer := (unstyling.answered false chain).withoutTable short rfl
  rwa [association, Tableau.cheapest_of_twoOperands, Tableau.cost_of_twoOperands, hnames, hline] at hanswer

theorem not_reads_boldNames : ¬∃ b : Bracketing, b.Spans 0 1 ∧ Reads "(A * B)" (b.named fun i => boldNames.getD i "") := by
  rintro ⟨b, hb, hreads⟩
  have hwords : ∀ i ∈ (Bracketing.join (.operand 0) (.operand 1)).operands,
      IsWord separators (["A", "B"].getD i "") := by
    decide
  have hshown := (Bracketing.reads_written _ hwords _).1 hreads
  have hatoms := congrArg Skeleton.atoms hshown
  rw [Bracketing.atoms_named, Bracketing.atoms_named, hb.operands_eq] at hatoms
  exact absurd hatoms (by decide)

end Exceptions

end Command
end MatrixChain
