import MatrixChain.Number.Decimal
import MatrixChain.Text.Digit

/-!
# Numbers read from text

Whole numbers, numbers with a point and an exponent, and complex numbers. Single underscores may stand between
digits. The readers work on plain forms, which have spaces for all blanks and no digits but `0 … 9`.
-/

namespace MatrixChain
namespace Number

open Text

def ofDigits (digits : List Char) : Nat :=
  digits.foldl (fun n c => n * 10 + digit c) 0

/-- The text without underscores, if each of them stands between two digits. -/
def joined? : (before : Char) → List Char → Option (List Char)
  | before, '_' :: c :: rest =>
    if isDigit before && isDigit c then (joined? c rest).map (c :: ·) else none
  | _, ['_'] => none
  | _, c :: rest => (joined? c rest).map (c :: ·)
  | _, [] => some []

def splitSign : List Char → Bool × List Char
  | '+' :: rest => (false, rest)
  | '-' :: rest => (true, rest)
  | rest => (false, rest)

def readWhole? (s : List Char) : Option (Int × Nat) := do
  let (negative, size) := splitSign s
  let digits ← joined? ' ' size
  if digits.isEmpty || !digits.all isDigit then none
  else
    let n := Int.ofNat (ofDigits digits)
    some (if negative then -n else n, digits.length)

def splitExponent : List Char → Int × List Char
  | e :: rest =>
    if e = 'e' ∨ e = 'E' then
      let (negative, size) := splitSign rest
      let digits := size.takeWhile isDigit
      if digits.isEmpty then (0, e :: rest)
      else
        let n := Int.ofNat (ofDigits digits)
        (if negative then -n else n, size.dropWhile isDigit)
    else (0, e :: rest)
  | [] => (0, [])

/-- The text behind `word`, which is in small letters, where the text begins with it in letters of any size. -/
def after? : (word : List Char) → List Char → Option (List Char)
  | [], rest => some rest
  | w :: word, c :: rest => if c.toLower = w then after? word rest else none
  | _, [] => none

def splitName (s : List Char) : Option (Float × List Char) :=
  match after? ['i', 'n', 'f'] s, after? ['n', 'a', 'n'] s with
  | some rest, _ => some (1 / 0, (after? ['i', 'n', 'i', 't', 'y'] rest).getD rest)
  | none, some rest => some (0 / 0, rest)
  | none, none => none

def splitUnsigned (s : List Char) : Option (Float × List Char) :=
  let whole := s.takeWhile isDigit
  let rest := s.dropWhile isDigit
  let (fraction, rest) := match rest with
    | '.' :: rest => (rest.takeWhile isDigit, rest.dropWhile isDigit)
    | rest => ([], rest)
  if whole.isEmpty && fraction.isEmpty then splitName s
  else
    let (exponent, rest) := splitExponent rest
    some ((Decimal.mk (ofDigits (whole ++ fraction)) (exponent - fraction.length)).toFloat, rest)

def splitDouble (s : List Char) : Option (Float × List Char) := do
  let (negative, size) := splitSign s
  let (x, rest) ← splitUnsigned size
  some (if negative then -x else x, rest)

def readDouble? (s : List Char) : Option Float := do
  match ← splitDouble (← joined? ' ' s) with
  | (x, []) => some x
  | _ => none

def isUnitMark (c : Char) : Bool :=
  c = 'j' || c = 'J'

/-- A coefficient of the imaginary unit, which may be a sign alone, with the mark of the unit. -/
def splitImaginary (s : List Char) : Option (List Char) :=
  let rest := match splitDouble s with
    | some (_, rest) => rest
    | none => (splitSign s).2
  match rest with
  | mark :: rest => if isUnitMark mark then some rest else none
  | [] => none

def splitComplex (s : List Char) : Option (Float × List Char) :=
  match splitDouble s with
  | none => (splitImaginary s).map fun rest => (0, rest)
  | some (_, mark :: rest) =>
    if isUnitMark mark then some (0, rest)
    else if mark = '+' ∨ mark = '-' then do
      let (x, rest) ← splitDouble s
      some (x, ← splitImaginary rest)
    else splitDouble s
  | some (x, []) => some (x, [])

def withoutSpaces (s : List Char) : List Char :=
  s.dropWhile isBlank

def readComplex? (s : List Char) : Option Float := do
  match s with
  | '(' :: inner =>
    let (x, rest) ← splitComplex (withoutSpaces inner)
    match withoutSpaces rest with
    | [')'] => some x
    | _ => none
  | s =>
    match ← splitComplex s with
    | (x, []) => some x
    | _ => none

end Number
end MatrixChain
