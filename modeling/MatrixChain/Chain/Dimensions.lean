import MatrixChain.Fault

/-!
# Boundaries of a chain

Operand `i` of a chain has as many rows as boundary `i` and as many columns as boundary `i + 1`, so a chain
of `n` operands has `n + 1` boundaries.
-/

namespace MatrixChain
namespace Chain

def broken (dimensions : List Int) (flaw : ChainFlaw) : Fault :=
  .brokenChain ⟨dimensions, flaw⟩

/-- What is wrong with a list of boundaries: too few of them, or else its first negative one. -/
def flaw? (dimensions : List Int) : Option ChainFlaw :=
  if dimensions.length < 2 then some .noOperands
  else (dimensions.find? (· < 0)).map .negativeDimension

theorem flaw?_eq_none_iff (dimensions : List Int) :
    flaw? dimensions = none ↔ 2 ≤ dimensions.length ∧ ∀ d ∈ dimensions, 0 ≤ d := by
  unfold flaw?
  split
  · simp; omega
  · simp; omega

def check (dimensions : List Int) : Except Fault Unit :=
  match flaw? dimensions with
  | some flaw => throw (broken dimensions flaw)
  | none => pure ()

theorem check_eq_ok_iff (dimensions : List Int) : check dimensions = .ok () ↔ flaw? dimensions = none := by
  unfold check
  split <;> simp_all [throw, throwThe, MonadExceptOf.throw, pure, Except.pure]

/-- Boundary `i`, and zero where the chain has none. -/
def boundary (dimensions : Array Int) (i : Nat) : Int :=
  dimensions.getD i 0

def joinWork (dimensions : Array Int) (first split last : Nat) : Int :=
  boundary dimensions first * boundary dimensions (split + 1) * boundary dimensions (last + 1)

/-- The cost of the association `(((A1 * A2) * A3) … * An)`. -/
def leftDeepCost (dimensions : List Int) : Except Fault Int := do
  check dimensions
  let boundaries := dimensions.toArray
  pure (total ((List.range (dimensions.length - 2)).map fun k => joinWork boundaries 0 k (k + 1)))

end Chain
end MatrixChain
