import MatrixChain.Chain.Tableau
import MatrixChain.Fold

/-!
# Associating operands

`associate` joins one value per operand along the splits of a tableau: the left part, the right part, then the
join. It folds over spans of operands on explicit stacks, so an association may be as deep as its chain is long.
The tables are taken as they are. Their indices may count from the end, and a split that leads outside of a
table or of the operands is a fault when it is reached.
-/

namespace MatrixChain
namespace Chain

/-- The operands `first … last`, under which at most `depth` more splits may lie. -/
structure Span where
  first : Int
  last : Int
  depth : Nat
deriving DecidableEq

namespace Span

def Shallower (s t : Span) : Prop :=
  s.depth < t.depth

theorem acc_shallower (s : Span) : Acc Shallower s :=
  (InvImage.wf depth Nat.lt_wfRel.wf).apply s

end Span
end Chain

namespace Tableau

open Chain

variable {β : Type} {m : Type → Type} [Monad m] [MonadExcept Fault m]

/-- A depth that no way down exceeds unless it comes back to a span: an entry of the split table stands under at
most two first and two last indices, and a chain of `n` operands needs no more than `n` splits. -/
def depth (t : Tableau) : Nat :=
  t.length + 4 * t.splits.foldl (fun entries row => entries + row.size) 0

def parts (t : Tableau) (s : Span) : m { parts : List Span // ∀ o ∈ parts, o.Shallower s } :=
  if s.first = s.last then pure ⟨[], by simp⟩
  else
    match entryAt? t.splits s.first s.last, h : s.depth with
    | none, _ => throw (.indexBeyond .tuple)
    | some _, 0 => throw .endless
    | some split, depth + 1 =>
      pure ⟨[⟨s.first, split, depth⟩, ⟨split + 1, s.last, depth⟩], by simp [Span.Shallower, h]⟩

def joinParts (join : β → β → m β) (operands : Array β) (s : Span) : List β → m β
  | [left, right] => join left right
  | _ =>
    match itemAt? operands s.first with
    | some operand => pure operand
    | none => throw (.indexBeyond .list)

/-- Join the operands in the association of the tableau, `join` once per product. -/
def associate (t : Tableau) (operands : Array β) (join : β → β → m β) : m β :=
  if operands.size + 1 ≠ t.dimensions.length then
    throw (broken t.dimensions (.operandCount operands.size (t.dimensions.length - 1)))
  else
    let whole : Span := ⟨0, operands.size - 1, t.depth⟩
    Fold.fold t.parts (joinParts join operands) whole whole.acc_shallower

def defaultNames (n : Nat) : List String :=
  (List.range n).map fun i => "A" ++ toString (i + 1)

@[simp] theorem length_defaultNames (n : Nat) : (defaultNames n).length = n := by
  simp [defaultNames]

/-- The association in writing, every product in brackets. -/
def bracketed (t : Tableau) (names : Option (List String)) : Except Fault String :=
  t.associate (names.getD (defaultNames t.length)).toArray fun left right =>
    pure ("(" ++ left ++ " * " ++ right ++ ")")

end Tableau
end MatrixChain
