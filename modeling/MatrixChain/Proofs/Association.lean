import MatrixChain.Chain.Association
import MatrixChain.Proofs.Bracketing
import MatrixChain.Proofs.Fold

/-!
# Association along a bracketing

Associating operands by a tableau with sound splits is putting them together along its bracketing: the left part, the
right part, then the join, with the effects in that order.
-/

namespace MatrixChain
namespace Tableau

open Chain

variable {β : Type} {m : Type → Type} [Monad m] [MonadExcept Fault m]

def operandValue (operands : Array β) (i : Nat) : m β :=
  match operands[i]? with
  | some operand => pure operand
  | none => throw (.indexBeyond .list)

theorem operandValue_of_lt {operands : Array β} {i : Nat} (h : i < operands.size) :
    (operandValue operands i : m β) = pure operands[i] := by
  simp [operandValue, h]

theorem parts_self (t : Tableau) (i : Int) (depth : Nat) :
    (t.parts ⟨i, i, depth⟩ : m _) = pure ⟨[], List.forall_mem_nil _⟩ := by
  simp [parts]

theorem shallower_parts (first split last : Int) (depth : Nat) :
    ∀ o ∈ [⟨first, split, depth⟩, ⟨split + 1, last, depth⟩], Span.Shallower o ⟨first, last, depth + 1⟩ := by
  simp [Span.Shallower]

theorem parts_of_entryAt? {t : Tableau} {first last split : Int} (hne : first ≠ last)
    (h : entryAt? t.splits first last = some split) (depth : Nat) :
    (t.parts ⟨first, last, depth + 1⟩ : m _) =
      pure ⟨[⟨first, split, depth⟩, ⟨split + 1, last, depth⟩], shallower_parts first split last depth⟩ := by
  simp only [parts, if_neg hne]
  split
  · rename_i hnone
    exact absurd (h.symm.trans hnone) (Option.some_ne_none split)
  · rename_i hdepth
    exact absurd hdepth (Nat.succ_ne_zero depth)
  · rename_i hsome hdepth
    obtain rfl := Option.some.inj (h.symm.trans hsome)
    obtain rfl := Nat.succ.inj hdepth
    rfl

/-- What `combine` makes of the spans on the way: the value of an operand from no values, and a join from two. Of all
other lists of values nothing is asked. -/
structure Combines (operands : Array β) (joined : β → β → m β) (combine : Span → List β → m β) : Prop where
  operand : ∀ i depth : Nat, combine ⟨i, i, depth⟩ [] = operandValue operands i
  join : ∀ first last depth : Nat, first < last →
    ∀ left right : β, combine ⟨first, last, depth⟩ [left, right] = joined left right

theorem combines_joinParts (operands : Array β) (joined : β → β → m β) :
    Combines operands joined (joinParts joined operands) where
  operand i depth := by
    cases h : operands[i]? with
    | none => simp [joinParts, operandValue, itemAt?_ofNat, h]
    | some operand => simp [joinParts, operandValue, itemAt?_ofNat, h]
  join _ _ _ _ _ _ := rfl

variable [LawfulMonad m] {t : Tableau} {operands : Array β} {joined : β → β → m β}

section Spans

variable {combine : Span → List β → m β} (combines : Combines operands joined combine)
include combines

/-- The recursion over spans, by the number of operands in a span, of which its depth is a bound. -/
theorem fold_span (within : t.SplitsWithin) {first last : Nat} (h : first ≤ last) (hlast : last < t.length)
    {depth : Nat} (hdepth : last - first ≤ depth) :
    Fold.fold t.parts combine ⟨first, last, depth⟩ (Span.acc_shallower _) =
      (t.bracketing first last).assembleM (operandValue operands) joined := by
  induction hlen : last - first using Nat.strongRecOn generalizing first last depth with
  | ind length ih =>
    rw [Fold.fold_eq_mapM t.parts combine Span.acc_shallower]
    rcases Nat.lt_or_eq_of_le h with hlt | rfl
    · obtain ⟨split, hsplit, hle, hgt⟩ := within first last hlt hlast
      obtain ⟨depth, rfl⟩ := Nat.exists_eq_add_one_of_ne_zero (show depth ≠ 0 by omega)
      have hleft := @ih (split - first) (by omega) first split hle (by omega) depth (by omega) rfl
      have hright := @ih (last - (split + 1)) (by omega) (split + 1) last hgt hlast depth (by omega) rfl
      rw [bracketing_of_entryAt? hsplit hle hgt, parts_of_entryAt? (by omega) hsplit]
      push_cast at hright
      simp [Bracketing.assembleM, hleft, hright, combines.join first last _ hlt]
    · rw [bracketing_self, parts_self]
      simp [Bracketing.assembleM, combines.operand]

theorem fold_whole (within : t.SplitsWithin) (operand : 0 < t.length) :
    Fold.fold t.parts combine ⟨0, (t.length - 1 : Nat), t.depth⟩ (Span.acc_shallower _) =
      (t.bracketing 0 (t.length - 1)).assembleM (operandValue operands) joined := by
  have hdepth : t.length - 1 - 0 ≤ t.depth := by
    rw [depth]
    omega
  exact fold_span combines within (Nat.zero_le _) (Nat.sub_one_lt_of_lt operand) hdepth

end Spans

variable (operands joined)

/-- One value for each operand is joined along the bracketing of the whole chain. -/
theorem associate_eq (within : t.SplitsWithin) (size : operands.size = t.length) (operand : 0 < operands.size) :
    t.associate operands joined =
      (t.bracketing 0 (t.length - 1)).assembleM (operandValue operands) joined := by
  have hcount : operands.size + 1 = t.dimensions.length := by
    rw [Tableau.length] at size
    omega
  have hlast : ((operands.size : Int) - 1) = ((t.length - 1 : Nat) : Int) := by omega
  rw [associate, if_neg (by omega)]
  simp only [hlast]
  exact fold_whole (combines_joinParts operands joined) within (size ▸ operand)

end Tableau
end MatrixChain
