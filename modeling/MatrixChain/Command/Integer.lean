import MatrixChain.Number.Reading

/-!
# Integers on the command line

Decimal digits with single underscores between them, behind a sign and before a fraction that is zero, with
blanks around. Zeros and underscores in front of the first other digit do not count, and a minus sign may stand
behind them.
-/

namespace MatrixChain
namespace Command

open Text

/-- Digits, at most four thousand three hundred with the sign, and no zero in front. -/
def maxLength : Nat := 4300

def readCanonical? (s : List Char) : Option Int :=
  let (negative, digits) := match s with
    | '-' :: digits => (true, digits)
    | digits => (false, digits)
  let hasLeadingZero := digits.head? = some '0' && digits.length ≠ 1
  if digits.isEmpty || !digits.all isDigit || hasLeadingZero || maxLength < s.length then none
  else
    let n := Int.ofNat (Number.ofDigits digits)
    some (if negative then -n else n)

def withoutFraction (s : List Char) : List Char :=
  match s.dropWhile (· ≠ '.') with
  | '.' :: zeros => if !zeros.isEmpty && zeros.all (· = '0') then s.takeWhile (· ≠ '.') else s
  | _ => s

def mayBegin (c : Char) : Bool :=
  ('1' ≤ c && c ≤ '9') || c = '-'

/-- From the first character that counts; of zeros and underscores alone, the last one. -/
def withoutZeros? : List Char → Option (List Char)
  | '0' :: rest =>
    match rest.dropWhile fun c => c = '0' || c = '_' with
    | [] => some [rest.getLast?.getD '0']
    | c :: counted => if mayBegin c then some (c :: counted) else none
  | c :: rest => if mayBegin c then some (c :: rest) else none
  | [] => none

def hasDoubleUnderscore : List Char → Bool
  | '_' :: '_' :: _ => true
  | _ :: rest => hasDoubleUnderscore rest
  | [] => false

def joined? (s : List Char) : Option (List Char) :=
  if s.head? = some '_' || s.getLast? = some '_' || hasDoubleUnderscore s then none
  else some (s.filter (· ≠ '_'))

def counted? (s : List Char) : Option (List Char) := do
  joined? (← withoutZeros? s)

def readInteger? (s : List Char) : Option Int := do
  match withoutFraction (trimmed s) with
  | '+' :: '-' :: _ => none
  | '+' :: rest => readCanonical? (← counted? rest)
  | '-' :: rest => readCanonical? ('-' :: (← counted? rest))
  | rest => readCanonical? (← counted? rest)

end Command
end MatrixChain
