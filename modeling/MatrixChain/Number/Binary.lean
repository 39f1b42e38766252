/-!
# Doubles as binary fractions

A finite double is a natural number times a power of two, with a sign. Rounding to fewer bits, or to a whole
number, is exact arithmetic on that form.
-/

namespace MatrixChain
namespace Number

/-- The number `mantissa * 2 ^ exponent`, negated if `negative`. -/
structure Binary where
  negative : Bool
  mantissa : Nat
  exponent : Int

namespace Binary

def ofFloat? (x : Float) : Option Binary :=
  let bits := x.toBits.toNat
  let negative := bits ≥ Nat.pow 2 63
  let field : Nat := bits / Nat.pow 2 52 % Nat.pow 2 11
  let fraction : Nat := bits % Nat.pow 2 52
  if field = Nat.pow 2 11 - 1 then none
  else if field = 0 then some ⟨negative, fraction, -1074⟩
  else some ⟨negative, Nat.pow 2 52 + fraction, field - 1075⟩

def truncate (b : Binary) : Int :=
  let whole := if b.exponent < 0 then b.mantissa / Nat.pow 2 (-b.exponent).toNat else b.mantissa * Nat.pow 2 b.exponent.toNat
  if b.negative then -whole else whole

end Binary

def roundDiv (n d : Nat) : Nat :=
  let q := n / d
  let r := n % d
  if d < 2 * r ∨ (2 * r = d ∧ q % 2 = 1) then q + 1 else q

/-- Round to eleven significant bits, none of them below `2 ^ -24`; from `2 ^ 16` on there is only infinity. -/
def roundToHalf (x : Float) : Float :=
  match Binary.ofFloat? x with
  | none => x
  | some b =>
    let bits := if b.mantissa = 0 then 0 else b.mantissa.log2 + 1
    let least := max (b.exponent + bits - 11) (-24)
    let shift := (least - b.exponent).toNat
    let rounded := (Float.ofNat (roundDiv b.mantissa (Nat.pow 2 shift))).scaleB (b.exponent + shift)
    let size := if rounded < 65536 then rounded else 1 / 0
    if b.negative then -size else size

def roundToSingle (x : Float) : Float :=
  x.toFloat32.toFloat

end Number
end MatrixChain
