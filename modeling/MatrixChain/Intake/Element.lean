import MatrixChain.Intake.ElementType
import MatrixChain.Number.Reading

/-!
# Elements

A value becomes an element of an array as its element type asks. `store` takes plain values as they are given.
`spread` takes the one value that fills an array: texts and doubles come from an array of their own then, and a
double is cut to the bits of an integer type.
-/

namespace MatrixChain
namespace Intake

inductive Element where
  /-- A real number; of a complex one, the real part. -/
  | number (x : Float)
  | text (s : String)
  | ticks (count : Option Int)
  | object (value : Datum)
deriving Inhabited

namespace Element

open Number Text

def readWhole (source : TextSource) (s : String) : Except Misfit Int :=
  match readWhole? (plainForm s) with
  | none => throw (.notWhole (source.shown s))
  | some (n, digits) => if maxDigits < digits then throw (.tooLong digits) else pure n

def toWhole (source : TextSource) : Datum → Except Misfit Int
  | .bool b => pure (if b then 1 else 0)
  | .int n => pure n
  | .double x =>
    match Binary.ofFloat? x with
    | some b => pure b.truncate
    | none => throw (if x.isNaN then .wholeNan else .wholeInfinity)
  | .text s => readWhole source s
  | .list _ => throw .nested
  | value => throw (.noWhole value.typeName)

def toReal (source : TextSource) : Datum → Except Misfit Float
  | .null => pure (0 / 0)
  | .bool b => pure (if b then 1 else 0)
  | .int n =>
    let x := Float.ofInt n
    if x.isInf then throw .beyondDoubles else pure x
  | .double x => pure x
  | .text s =>
    match readDouble? (plainForm s) with
    | some x => pure x
    | none => throw (.notReal (source.shown s))
  | .list _ => throw .nested
  | value => throw (.noReal value.typeName)

def toComplex (source : TextSource) : Datum → Except Misfit Float
  | .text s =>
    match joined? ' ' (plainForm s) with
    | none => throw (.misjoined (source.shown s))
    | some chars =>
      match readComplex? chars with
      | some x => pure x
      | none => throw .notComplex
  | .list items => throw (.noComplex (Datum.list items).typeName)
  | .record fields => throw (.noComplex (Datum.record fields).typeName)
  | value => toReal source value

/-- A whole number below two to this power passes through a machine word on its way to a type. -/
def wordBits : ElementType → Nat
  | .unsigned bits => if bits < 32 then 63 else 64
  | _ => 63

def leastWhole : ElementType → Int
  | .signed bits => -Int.pow 2 (bits - 1)
  | _ => 0

def wholeBits : ElementType → Nat
  | .signed bits => bits
  | .unsigned bits => bits
  | _ => 64

def fit (type : ElementType) (n : Int) : Except Misfit Int :=
  let least := leastWhole type
  if n < -Int.pow 2 63 ∨ Int.pow 2 (wordBits type) ≤ n then throw .beyondWord
  else if least ≤ n ∧ n < least + Int.pow 2 (wholeBits type) then pure n
  else throw (.beyondType n type.name)

def wrap (type : ElementType) (n : Int) : Int :=
  let least := leastWhole type
  (n - least) % Int.pow 2 (wholeBits type) + least

/-- The whole part of a double as the machine finds it, in a word of so many bits: where it does not fit, there
is the least number. -/
def machineWhole (bits : Nat) (x : Float) : Int :=
  let least : Int := -Int.pow 2 (bits - 1)
  match Binary.ofFloat? x with
  | some b => if least ≤ b.truncate ∧ b.truncate < -least then b.truncate else least
  | none => least

def cut (type : ElementType) (x : Float) : Int :=
  match type with
  | .unsigned 64 =>
    if x < 9223372036854775808 then wrap type (machineWhole 64 x)
    else wrap type (machineWhole 64 (x - 9223372036854775808) + Int.pow 2 63)
  | .signed 64 => machineWhole 64 x
  | .unsigned 32 => wrap type (machineWhole 64 x)
  | type => wrap type (machineWhole 32 x)

def asciiMisfit? (s : String) : Option Misfit :=
  let chars := s.toList
  match chars.dropWhile fun c => c.toNat < 128 with
  | [] => none
  | c :: rest =>
    let first := chars.length - rest.length - 1
    let run := (rest.takeWhile fun c => 128 ≤ c.toNat).length
    some (.notAscii first (first + run) c.toNat)

def checkAscii (s : String) : Except Misfit Unit :=
  match asciiMisfit? s with
  | some misfit => throw misfit
  | none => pure ()

/-- The first characters of a text; those at its end that are zero do not count. -/
def clipped (width : Nat) (s : String) : String :=
  String.ofList (((s.toList.take width).reverse.dropWhile (·.toNat = 0)).reverse)

def countOf (n : Int) : Except Misfit Element :=
  if -Int.pow 2 63 ≤ n ∧ n < Int.pow 2 63 then pure (ticks (some n)) else throw .beyondTicks

def readCount? (s : String) : Option (Option Int) :=
  let chars := s.toList
  if chars.isEmpty || chars.map Char.toLower = ['n', 'a', 't'] then some none
  else
    let (negative, digits) := splitSign (chars.dropWhile Instant.isSpace)
    if digits.isEmpty || !digits.all isDigit then none
    else
      let n := Int.ofNat (ofDigits digits)
      some (some (if negative then max (-n) (-Int.pow 2 63) else min n (Int.pow 2 63 - 1)))

def storeDate (unit : TimeUnit) : Datum → Except Misfit Element
  | .text s => do pure (ticks ((← Instant.read s).map (·.ticks unit)))
  | .int n => countOf n
  | .bool b => pure (ticks (some (if b then 1 else 0)))
  | .null => pure (ticks none)
  | _ => throw .noDate

def storeDuration : Datum → Except Misfit Element
  | .text s =>
    match readCount? s with
    | some count => pure (ticks count)
    | none => throw .noDuration
  | .int n => countOf n
  | .bool b => pure (ticks (some (if b then 1 else 0)))
  | .null => pure (ticks none)
  | _ => throw .noDuration

def store (type : ElementType) (value : Datum) : Except Misfit Element :=
  match type with
  | .bool => pure (number (if value.isTruthy then 1 else 0))
  | .signed _ | .unsigned _ => do pure (number (Float.ofInt (← fit type (← toWhole .plain value))))
  | .half => do pure (number (roundToHalf (← toReal .plain value)))
  | .single => do pure (number (roundToSingle (← toReal .plain value)))
  | .double => do pure (number (← toReal .plain value))
  | .complex 64 => do pure (number (roundToSingle (← toComplex .plain value)))
  | .complex _ => do pure (number (← toComplex .plain value))
  | .object => pure (object value)
  | .text width => pure (text (clipped width value.asText))
  | .bytes width => do
    checkAscii value.asText
    pure (text (clipped width value.asText))
  | .date unit => storeDate unit value
  | .duration _ => storeDuration value

def cutCount (x : Float) : Element :=
  ticks (if x.isNaN then none else some (machineWhole 64 x))

def spreadText (type : ElementType) (s : String) : Except Misfit Element :=
  match type with
  | .bool => pure (number (if s.isEmpty then 0 else 1))
  | .signed _ | .unsigned _ => do pure (number (Float.ofInt (← fit type (← toWhole .textArray (.text s)))))
  | .half => do pure (number (roundToHalf (← toReal .textArray (.text s))))
  | .single => do pure (number (roundToSingle (← toReal .textArray (.text s))))
  | .double => do pure (number (← toReal .textArray (.text s)))
  | .complex _ => do pure (number (← toComplex .textArray (.text s)))
  | .date unit => do
    checkAscii s
    storeDate unit (.text s)
  | .duration _ => do countOf (← toWhole .textArray (.text s))
  | type => store type (.text s)

def spread (type : ElementType) : Datum → Except Misfit Element
  | .text s => spreadText type (clipped s.length s)
  | .double x =>
    match type with
    | .signed _ | .unsigned _ => pure (number (Float.ofInt (cut type x)))
    | .date _ | .duration _ => pure (cutCount x)
    | type => store type (.double x)
  | .int n =>
    match type with
    | .date _ => if n < Int.pow 2 63 then countOf n else if n < Int.pow 2 64 then countOf (n - Int.pow 2 64) else throw .beyondTicks
    | type => store type (.int n)
  | value => store type value

/-- An element of a type as a double, which is not a number for a missing count and for the least one. -/
def real (type : ElementType) : Element → Except Misfit Float
  | number x => pure x
  | text s =>
    match type with
    | .bytes _ => toReal .byteArray (.text s)
    | _ => toReal .textArray (.text s)
  | ticks (some count) => pure (if count = -Int.pow 2 63 then 0 / 0 else Float.ofInt count)
  | ticks none => pure (0 / 0)
  | object value => toReal .plain value

end Element
end Intake
end MatrixChain
