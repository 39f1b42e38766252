import MatrixChain.Chain.Association
import MatrixChain.Chain.CostTable
import MatrixChain.Command.Arguments

/-!
# What the command answers

The cheapest association of a chain, its cost, the cost from left to right, and on request the cost table, each line as
soon as it is known. A list that is no chain is reported alone. How a line looks where it is read is a parameter, since
terminals show styled text and files do not.
-/

namespace MatrixChain
namespace Command

structure Printed where
  out : List String
  err : List String

inductive Stop where
  | exit (code : Nat)
  /-- A fault that the command does not catch. -/
  | uncaught (fault : Fault)

abbrev Printing := ExceptT Stop (StateM Printed)

namespace Printing

def echo (line : String) : Printing Unit :=
  modify fun printed => { printed with out := printed.out ++ [line] }

def refuse {β : Type} (line : String) : Printing β := do
  modify fun printed => { printed with err := printed.err ++ [line] }
  throw (.exit 1)

def attempt {β : Type} : Except Fault β → Printing β
  | .ok value => pure value
  | .error fault => throw (.uncaught fault)

end Printing

open Printing

/-- The cheapest association. Of the faults that planning has, a broken chain is reported. -/
def plan (dimensions : List Int) : Printing Tableau :=
  match Tableau.solve dimensions with
  | .error (.brokenChain chain) => do refuse (← attempt chain.text)
  | answer => attempt answer

def costs (t : Tableau) (table : Bool) : Printing Unit := do
  echo ("optimal cost: " ++ (← attempt (decimal t.cost)))
  echo ("left-to-right cost: " ++ (← attempt (do decimal (← Chain.leftDeepCost t.dimensions))))
  if table then
    echo "cost table:"
    echo (← attempt (CostTable.text t))

/-- Print a report. Without names the operands are called `A1`, `A2`, and so on. -/
def report (dimensions : List Int) (names : List String) (table : Bool) : Printing Unit := do
  let t ← plan dimensions
  if names ≠ [] ∧ names.length ≠ t.length then refuse (Fault.nameCount names.length t.length).message
  echo (← attempt (t.bracketed (if names = [] then none else some names)))
  costs t table

/-- An exit code with what goes to standard output and to standard error, and the fault that the command ended in, if
nothing caught it. -/
structure Response where
  code : Nat
  out : String
  err : String
  uncaught : Option Fault

section Shown

variable (shown : String → String)

def ended (lines : List String) : String :=
  String.join (lines.map fun line => shown line ++ "\n")

def respond (dimensions : List Int) (names : List String) (table : Bool) : Response :=
  let (result, printed) := (report dimensions names table).run.run ⟨[], []⟩
  let response (code : Nat) (uncaught : Option Fault) : Response :=
    ⟨code, ended shown printed.out, ended shown printed.err, uncaught⟩
  match result with
  | .ok () => response 0 none
  | .error (.exit code) => response code none
  | .error (.uncaught fault) => response 1 (some fault)

inductive Outcome where
  | misused
  | help
  | responded (response : Response)

def run (words : List String) : Outcome :=
  match Arguments.empty.read words with
  | none => .misused
  | some arguments =>
    if arguments.help then .help
    else
      match arguments.dimensions.mapM fun word => readInteger? word.toList with
      | none => .misused
      | some [] => .misused
      | some dimensions => .responded (respond shown dimensions arguments.names arguments.table)

end Shown

end Command
end MatrixChain
