/-!
# Integers in writing

Decimal digits behind a sign. Texts are numbers only up to a limit of digits, in writing as in reading.
-/

namespace MatrixChain
namespace Number

/-- The most digits that an integer is written with or read from. -/
def maxDigits : Nat := 4300

def decimal? (n : Int) : Option String :=
  if n.natAbs.repr.length ≤ maxDigits then some (toString n) else none

end Number
end MatrixChain
