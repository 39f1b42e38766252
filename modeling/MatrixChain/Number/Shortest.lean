import MatrixChain.Number.Binary
import MatrixChain.Number.Decimal

/-!
# Doubles as decimal text

The fewest digits that read back as the same double, written positionally where the decimal point stands close
to them and with an exponent elsewhere.
-/

namespace MatrixChain
namespace Number

namespace Decimal

def belowPower (num den : Nat) (e : Int) : Bool :=
  if e < 0 then num * Nat.pow 10 e.natAbs < den else num < den * Nat.pow 10 e.natAbs

def leadingExponent (num den : Nat) : Int :=
  let guess := ((Nat.toDigits 10 num).length : Int) - (Nat.toDigits 10 den).length
  if belowPower num den guess then guess - 1 else guess

/-- The neighbours of `num / den` among the decimals with last digit at `e`, the nearer one first. -/
def neighbours (num den : Nat) (e : Int) : List Decimal :=
  let n := if e < 0 then num * Nat.pow 10 e.natAbs else num
  let d := if e < 0 then den else den * Nat.pow 10 e.natAbs
  let below := n / d
  if roundDiv n d = below then [⟨below, e⟩, ⟨below + 1, e⟩] else [⟨below + 1, e⟩, ⟨below, e⟩]

/-- The decimal with the fewest digits that reads back as the positive double `x`, which is `num / den`. -/
def shortest (x : Float) (num den : Nat) : Decimal :=
  let leading := leadingExponent num den
  let grids := (List.range 17).flatMap fun (more : Nat) => neighbours num den (leading - more)
  (grids.find? fun d => d.toFloat == x).getD ⟨0, 0⟩

def withoutTrailingZeros (digits : List Char) : List Char :=
  (digits.reverse.dropWhile (· = '0')).reverse

/-- Positional from `1e-4` up to `1e16`, and then with at least one digit behind the point. -/
def layout (d : Decimal) : List Char :=
  let all := Nat.toDigits 10 d.digits
  let digits := withoutTrailingZeros all
  let point := all.length + d.exponent
  if -4 < point ∧ point ≤ 0 then '0' :: '.' :: List.replicate point.natAbs '0' ++ digits
  else if 0 < point ∧ point ≤ 16 then
    let whole := point.toNat
    digits.take whole ++ List.replicate (whole - digits.length) '0' ++ '.' ::
      (if digits.length ≤ whole then ['0'] else digits.drop whole)
  else
    let power := point - 1
    let powerDigits := Nat.toDigits 10 power.natAbs
    digits.take 1 ++ (if digits.length ≤ 1 then [] else '.' :: digits.drop 1) ++
      'e' :: (if power < 0 then '-' else '+') :: List.replicate (2 - powerDigits.length) '0' ++ powerDigits

end Decimal

def floatText (x : Float) : List Char :=
  match Binary.ofFloat? x with
  | none => if x.isNaN then ['n', 'a', 'n'] else if x < 0 then ['-', 'i', 'n', 'f'] else ['i', 'n', 'f']
  | some b =>
    let size :=
      if b.mantissa = 0 then ['0', '.', '0']
      else if b.exponent < 0 then (Decimal.shortest x.abs b.mantissa (Nat.pow 2 b.exponent.natAbs)).layout
      else (Decimal.shortest x.abs (b.mantissa * Nat.pow 2 b.exponent.natAbs) 1).layout
    if b.negative then '-' :: size else size

end Number
end MatrixChain
