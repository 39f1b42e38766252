/-!
# Decimals

A natural number times a power of ten, and the double nearest to it.
-/

namespace MatrixChain
namespace Number

/-- The number `digits * 10 ^ exponent`. -/
structure Decimal where
  digits : Nat
  exponent : Int

namespace Decimal

/-- The nearest double. Beyond all doubles there is infinity, and zero below half of the least one. -/
def toFloat (d : Decimal) : Float :=
  if d.digits = 0 then 0
  else if 400 < d.exponent then 1 / 0
  else if d.exponent + d.digits.log2 < -400 then 0
  else Float.ofScientific d.digits (d.exponent < 0) d.exponent.natAbs

end Decimal
end Number
end MatrixChain
