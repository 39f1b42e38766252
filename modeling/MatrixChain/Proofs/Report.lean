import MatrixChain.Proofs.LeftDeepCost
import MatrixChain.Proofs.ShownText

/-!
# How a report ends

A report of what is no chain, or of a chain under too few or too many names, ends in a refusal. Otherwise it has the
association in writing, then the costs, and then the cost table if it is asked for, and it breaks off before the first of
these that has a number too long to be written.
-/

namespace MatrixChain
namespace Command

open Chain InfixToken FullyBracketed Printing

section Runs

variable {t : Tableau} {table : Bool} {leftDeep : Int}

def costLine (cost : Int) : String :=
  "optimal cost: " ++ toString cost

def leftDeepLine (leftDeep : Int) : String :=
  "left-to-right cost: " ++ toString leftDeep

theorem plain_costLine (cost : Int) : Plain (costLine cost) := by
  have hlabel : Plain "optimal cost: " := by simp [Plain, escape]
  exact hlabel.append (plain_int cost)

theorem plain_leftDeepLine (leftDeep : Int) : Plain (leftDeepLine leftDeep) := by
  have hlabel : Plain "left-to-right cost: " := by simp [Plain, escape]
  exact hlabel.append (plain_int leftDeep)

theorem run_costs_of_cost (h : ¬Writable t.cost) (printed : Printed) :
    (costs t table).run.run printed = (.error (.uncaught .tooManyDigits), printed) := by
  rw [costs, (writes_decimal t.cost).eq_error h]
  rfl

section Written

variable (hcost : Writable t.cost) (hleftDeep : leftDeepCost t.dimensions = .ok leftDeep)

include hleftDeep in
theorem writes_leftDeepCost :
    Writes (do decimal (← leftDeepCost t.dimensions)) (Writable leftDeep) (toString leftDeep) := by
  rw [hleftDeep]
  exact writes_decimal leftDeep

include hcost hleftDeep

theorem run_costs_of_leftDeep (h : ¬Writable leftDeep) (printed : Printed) : (costs t table).run.run printed =
    (.error (.uncaught .tooManyDigits), { printed with out := printed.out ++ [costLine t.cost] }) := by
  rw [costs, (writes_decimal t.cost).eq_ok hcost, (writes_leftDeepCost hleftDeep).eq_error h]
  rfl

variable (h : Writable leftDeep)
include h

theorem run_costs_without_table (printed : Printed) : (costs t false).run.run printed =
    (.ok (), { printed with out := printed.out ++ [costLine t.cost] ++ [leftDeepLine leftDeep] }) := by
  rw [costs, (writes_decimal t.cost).eq_ok hcost, (writes_leftDeepCost hleftDeep).eq_ok h]
  rfl

theorem run_costs_with_table (printed : Printed) : (costs t true).run.run printed =
    (attempt (CostTable.text t) >>= echo).run.run { printed with
      out := printed.out ++ [costLine t.cost] ++ [leftDeepLine leftDeep] ++ ["cost table:"] } := by
  rw [costs, (writes_decimal t.cost).eq_ok hcost, (writes_leftDeepCost hleftDeep).eq_ok h]
  rfl

end Written

end Runs

section Names

variable (shown : String → String) (dimensions : List Int) (names : List String)

def operandNames : List String :=
  if names = [] then Tableau.defaultNames (dimensions.length - 1) else names

def shownNames : List String :=
  (operandNames dimensions names).map shown

/-- The cheapest association of operands with these names. -/
def association : String :=
  (Tableau.cheapest dimensions).written fun i => names.getD i ""

theorem namesOf_ofDimensions :
    (Tableau.ofDimensions dimensions).namesOf (if names = [] then none else some names) =
      operandNames dimensions names := by
  by_cases h : names = []
  · simp [operandNames, Tableau.namesOf, h]
  · simp [operandNames, Tableau.namesOf, h]

variable {shown dimensions names}

theorem length_operandNames (named : names = [] ∨ names.length = dimensions.length - 1) :
    (operandNames dimensions names).length = dimensions.length - 1 := by
  by_cases h : names = []
  · rw [operandNames, if_pos h, Tableau.length_defaultNames]
  · rw [operandNames, if_neg h]
    exact named.resolve_left h

theorem mem_defaultName {n : Nat} {name : String} (h : name ∈ Tableau.defaultNames n) :
    name ≠ "" ∧ ∀ c ∈ name.toList, c = 'A' ∨ c.isDigit = true := by
  obtain ⟨i, _, rfl⟩ := List.mem_map.1 h
  have htext : ("A" ++ toString (i + 1)).toList = 'A' :: (i + 1).repr.toList := by simp
  refine ⟨fun hempty => ?_, fun c hc => ?_⟩
  · rw [hempty] at htext
    cases htext
  · rw [htext] at hc
    exact (List.mem_cons.1 hc).imp_right isDigit_of_mem_repr

variable (unstyling : Unstyling shown)
include unstyling

theorem Unstyling.shown_getD (i : Nat) :
    shown ((operandNames dimensions names).getD i "") = (shownNames shown dimensions names).getD i "" := by
  rw [shownNames, List.getD_eq_getElem?_getD, List.getD_eq_getElem?_getD, List.getElem?_map]
  cases (operandNames dimensions names)[i]? with
  | none => exact unstyling.plain "" List.not_mem_nil
  | some name => rfl

theorem Unstyling.shown_association :
    shown (association dimensions (operandNames dimensions names)) =
      association dimensions (shownNames shown dimensions names) := by
  simp only [association, unstyling.shown_written, unstyling.shown_getD]

theorem Unstyling.forall_mem_shownNames {P : String → Prop} (given : ∀ name ∈ names, P (shown name))
    (default : ∀ name : String, name ≠ "" → (∀ c ∈ name.toList, c = 'A' ∨ c.isDigit = true) → P name) :
    ∀ name ∈ shownNames shown dimensions names, P name := by
  intro name hname
  obtain ⟨name, hmem, rfl⟩ := List.mem_map.1 hname
  by_cases hempty : names = []
  · rw [operandNames, if_pos hempty] at hmem
    obtain ⟨hne, hchars⟩ := mem_defaultName hmem
    have hplain : Plain name := fun hescape => absurd (hchars escape hescape) (by decide)
    rw [unstyling.plain name hplain]
    exact default name hne hchars
  · rw [operandNames, if_neg hempty] at hmem
    exact given name hmem

variable (dimensions)

theorem Unstyling.isWord_of_mem_shownNames (words : ∀ name ∈ names, IsWord separators (shown name)) :
    ∀ name ∈ shownNames shown dimensions names, IsWord separators name := by
  refine unstyling.forall_mem_shownNames words fun name hne hchars => ⟨hne, fun c hc hmem => ?_⟩
  have hseparators : ∀ c ∈ separators, ¬(c = 'A' ∨ c.isDigit = true) := by simp [separators]
  exact hseparators c hmem (hchars c hc)

theorem Unstyling.newline_notMem_shownNames (oneLine : ∀ name ∈ names, '\n' ∉ (shown name).toList) :
    ∀ name ∈ shownNames shown dimensions names, '\n' ∉ name.toList := by
  have hdefault : ∀ name : String, name ≠ "" → (∀ c ∈ name.toList, c = 'A' ∨ c.isDigit = true) → '\n' ∉ name.toList :=
    fun name _ hchars hmem => absurd (hchars _ hmem) (by decide)
  exact unstyling.forall_mem_shownNames oneLine hdefault

end Names

section Answers

def summary (line : String) (cost leftDeep : Int) : List String :=
  [line, costLine cost, leftDeepLine leftDeep]

def answer (lines : List String) : Response :=
  ⟨0, unstyled lines, "", none⟩

def refusal (message : String) : Response :=
  ⟨1, "", unstyled [message], none⟩

/-- An answer that ends before a number that cannot be written. -/
def brokenOff (lines : List String) : Response :=
  ⟨1, unstyled lines, "", some .tooManyDigits⟩

variable {shown : String → String} (unstyling : Unstyling shown) {dimensions : List Int} {names : List String}
  {table : Bool}

include unstyling in
theorem Unstyling.respond_of_exit {message : String}
    (h : (report dimensions names table).run.run ⟨[], []⟩ = (.error (.exit 1), ⟨[], [message]⟩))
    (plain : Plain message) : respond shown dimensions names table = refusal message := by
  have hplain : ∀ line ∈ [message], Plain line := by simpa using plain
  rw [respond, h, refusal, ← unstyling.ended_of_plain hplain]
  rfl

include unstyling in
/-- What a report that stops before a number has printed. Only the first line may be styled. -/
theorem Unstyling.respond_of_tooManyDigits {line : String} {lines : List String}
    (h : (report dimensions names table).run.run ⟨[], []⟩ = (.error (.uncaught .tooManyDigits), ⟨line :: lines, []⟩))
    (plain : ∀ line ∈ lines, Plain line) :
    respond shown dimensions names table = brokenOff (shown line :: lines) := by
  rw [respond, h, brokenOff, ← unstyling.ended_cons plain]
  rfl

include unstyling in
theorem Unstyling.respond_of_ok {line : String} {lines : List String}
    (h : (report dimensions names table).run.run ⟨[], []⟩ = (.ok (), ⟨line :: lines, []⟩))
    (plain : ∀ line ∈ lines, Plain line) :
    respond shown dimensions names table = answer (shown line :: lines) := by
  rw [respond, h, answer, ← unstyling.ended_cons plain]
  rfl

section Flawed

variable {flaw : ChainFlaw} (h : flaw? dimensions = some flaw)
include h

theorem solve_of_flaw : Tableau.solve dimensions = .error (broken dimensions flaw) := by
  simp [Tableau.solve, check, h, throw, throwThe, MonadExceptOf.throw, bind, Except.bind]

include unstyling in
theorem Unstyling.respond_of_flaw (writable : ∀ d ∈ dimensions, Writable d) :
    respond shown dimensions names table = refusal (broken dimensions flaw).message := by
  refine unstyling.respond_of_exit ?_ (plain_message (plain_reason h))
  have htext := (BrokenChain.writes_text ⟨dimensions, flaw⟩).eq_ok writable
  rw [report, plan, solve_of_flaw h]
  simp only [broken, htext]
  rfl

theorem respond_of_longFlaw (long : ¬∀ d ∈ dimensions, Writable d) :
    respond shown dimensions names table = brokenOff [] := by
  have htext := (BrokenChain.writes_text ⟨dimensions, flaw⟩).eq_error long
  rw [respond, report, plan, solve_of_flaw h]
  simp only [broken, htext]
  rfl

end Flawed

section Sound

variable (sound : flaw? dimensions = none)
include sound

theorem solve_of_sound : Tableau.solve dimensions = .ok (.ofDimensions dimensions) := by
  obtain ⟨operand, nonneg⟩ := (flaw?_eq_none_iff dimensions).1 sound
  exact Tableau.solve_eq_ok operand nonneg

theorem plan_of_sound : plan dimensions = pure (.ofDimensions dimensions) := by
  rw [plan, solve_of_sound sound]
  rfl

include unstyling in
theorem Unstyling.respond_of_nameCount (given : names ≠ []) (h : names.length ≠ dimensions.length - 1) :
    respond shown dimensions names table =
      refusal (Fault.nameCount names.length (dimensions.length - 1)).message := by
  refine unstyling.respond_of_exit ?_ (plain_nameCount _ _)
  rw [report, plan_of_sound sound, pure_bind, if_pos ⟨given, h⟩]
  rfl

variable (named : names = [] ∨ names.length = dimensions.length - 1)
include named

theorem bracketed_of_sound :
    (Tableau.ofDimensions dimensions).bracketed (if names = [] then none else some names) =
      .ok (association dimensions (operandNames dimensions names)) := by
  have operand := ((flaw?_eq_none_iff dimensions).1 sound).1
  have hpos : 0 < (Tableau.ofDimensions dimensions).length := by
    rw [Tableau.length_ofDimensions]
    omega
  have hcount : ((Tableau.ofDimensions dimensions).namesOf (if names = [] then none else some names)).length =
      (Tableau.ofDimensions dimensions).length := by
    rw [namesOf_ofDimensions, length_operandNames named, Tableau.length_ofDimensions]
  rw [Tableau.bracketed_eq (Tableau.splitsWithin_ofDimensions dimensions) hpos hcount, namesOf_ofDimensions]
  rfl

variable (table) in
/-- A chain with its names has its association printed before the costs. -/
theorem run_report_of_sound : (report dimensions names table).run.run ⟨[], []⟩ =
    (costs (.ofDimensions dimensions) table).run.run
      ⟨[association dimensions (operandNames dimensions names)], []⟩ := by
  have hcount : ¬(names ≠ [] ∧ names.length ≠ (Tableau.ofDimensions dimensions).length) := by
    rintro ⟨given, hne⟩
    exact hne (named.resolve_left given)
  rw [report, plan_of_sound sound, pure_bind, if_neg hcount, bracketed_of_sound sound named]
  rfl

section Costs

variable {leftDeep : Int} (hleftDeep : leftDeepCost (Tableau.ofDimensions dimensions).dimensions = .ok leftDeep)
include unstyling

theorem Unstyling.respond_of_cost (long : ¬Writable (Tableau.ofDimensions dimensions).cost) :
    respond shown dimensions names table = brokenOff [association dimensions (shownNames shown dimensions names)] := by
  have hrun := (run_report_of_sound table sound named).trans (run_costs_of_cost long _)
  rw [← unstyling.shown_association]
  exact unstyling.respond_of_tooManyDigits hrun (List.forall_mem_nil _)

variable (hcost : Writable (Tableau.ofDimensions dimensions).cost)
include hleftDeep hcost

theorem Unstyling.respond_of_leftDeep (long : ¬Writable leftDeep) :
    respond shown dimensions names table =
      brokenOff [association dimensions (shownNames shown dimensions names),
        costLine (Tableau.ofDimensions dimensions).cost] := by
  have hrun := (run_report_of_sound table sound named).trans (run_costs_of_leftDeep hcost hleftDeep long _)
  rw [← unstyling.shown_association]
  exact unstyling.respond_of_tooManyDigits hrun (by simpa using plain_costLine _)

variable (h : Writable leftDeep)
include h

theorem Unstyling.respond_without_table :
    respond shown dimensions names false =
      answer (summary (association dimensions (shownNames shown dimensions names))
        (Tableau.ofDimensions dimensions).cost leftDeep) := by
  have hrun := (run_report_of_sound false sound named).trans (run_costs_without_table hcost hleftDeep h _)
  rw [summary, ← unstyling.shown_association]
  exact unstyling.respond_of_ok hrun (by simpa using ⟨plain_costLine _, plain_leftDeepLine _⟩)

theorem Unstyling.respond_of_entry (long : ¬∀ c ∈ CostTable.entries (.ofDimensions dimensions), Writable c) :
    respond shown dimensions names true =
      brokenOff (summary (association dimensions (shownNames shown dimensions names))
        (Tableau.ofDimensions dimensions).cost leftDeep ++ ["cost table:"]) := by
  have hcosts := run_costs_with_table hcost hleftDeep h
  rw [(CostTable.writes_text _).eq_error long] at hcosts
  have hrun := (run_report_of_sound true sound named).trans (hcosts _)
  have htable : Plain "cost table:" := by simp [Plain, escape]
  rw [summary, ← unstyling.shown_association]
  exact unstyling.respond_of_tooManyDigits hrun (by simpa using ⟨plain_costLine _, plain_leftDeepLine _, htable⟩)

theorem Unstyling.respond_with_table (all : ∀ c ∈ CostTable.entries (.ofDimensions dimensions), Writable c) :
    ∃ text, CostTable.text (.ofDimensions dimensions) = .ok text ∧
      respond shown dimensions names true =
        answer (summary (association dimensions (shownNames shown dimensions names))
          (Tableau.ofDimensions dimensions).cost leftDeep ++ ["cost table:", text]) := by
  have htext := (CostTable.writes_text (.ofDimensions dimensions)).eq_ok all
  have hcosts := run_costs_with_table hcost hleftDeep h
  rw [htext] at hcosts
  have hrun := (run_report_of_sound true sound named).trans (hcosts _)
  have htable : Plain "cost table:" := by simp [Plain, escape]
  refine ⟨_, htext, ?_⟩
  rw [summary, ← unstyling.shown_association]
  exact unstyling.respond_of_ok hrun
    (by simpa using ⟨plain_costLine _, plain_leftDeepLine _, htable, plain_table _⟩)

end Costs

end Sound

end Answers
end Command
end MatrixChain
