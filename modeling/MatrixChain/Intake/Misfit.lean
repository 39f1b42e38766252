import MatrixChain.Number.Binary
import MatrixChain.Number.Writing
import MatrixChain.Text.Quoted
import MatrixChain.Text.Sequence

/-!
# Misfits

Why data does not make an array, or does not fit the element type that it was meant for.
-/

namespace MatrixChain
namespace Intake

inductive TextSource where
  | plain
  | textArray
  | byteArray
deriving DecidableEq

def TextSource.shown (source : TextSource) (s : String) : String :=
  match source with
  | plain => Text.quoted s
  | textArray => "np.str_(" ++ Text.quoted s ++ ")"
  | byteArray => "np.bytes_(b" ++ Text.quoted s ++ ")"

inductive Misfit where
  | noSuchType (name : String)
  /-- Nested data that is rectangular only down to the given shape. -/
  | ragged (shape : List Nat)
  | tooDeep (limit : Nat)
  | tooManySides (given : Nat)
  | negativeSide
  | sideBeyond
  /-- More bytes than a machine word can count. -/
  | tooBig
  | noRoom (bytes : Nat) (shape : List Nat) (type : String)
  | noBroadcast (source target : List Nat)
  | nested
  | notWhole (shown : String)
  | tooLong (digits : Nat)
  | noWhole (type : String)
  | wholeNan
  | wholeInfinity
  | beyondWord
  | beyondType (value : Int) (type : String)
  | notReal (shown : String)
  | noReal (type : String)
  | beyondDoubles
  | notComplex
  | misjoined (shown : String)
  | noComplex (type : String)
  /-- The first run of characters outside of ASCII, and the code of its first one. -/
  | notAscii (first last code : Nat)
  | noDate
  | noDuration
  | beyondTicks
  | unreadableDate (text : String) (position : Nat)
  | dateOutside (field text : String)
  | noSum (type : String)
  | noTextSum (width : Nat)
deriving DecidableEq

namespace Misfit

def maxDimensions : Nat := 64

def sides : List Nat → String
  | [side] => "(" ++ toString side ++ ",)"
  | shape => "(" ++ ",".intercalate (shape.map toString) ++ ")"

/-- A multiple of a hundredth of a unit, to three digits, or to whole units from a hundred on. -/
def threeDigits (n unit : Nat) : String :=
  let hundredths := Number.roundDiv (n * 100) unit
  let tenths := Number.roundDiv (n * 10) unit
  let fraction (digits : Nat) (r : Nat) : String :=
    toString (r / Nat.pow 10 digits) ++ "." ++ String.ofList ((Nat.toDigits 10 (Nat.pow 10 digits + r % Nat.pow 10 digits)).drop 1)
  if hundredths < 1000 then fraction 2 hundredths
  else if tenths < 1000 then fraction 1 tenths
  else toString (Number.roundDiv n unit) ++ "."

def byteText (bytes : Nat) : String :=
  let step := bytes.log2 / 10
  let step := if Number.roundDiv bytes (Nat.pow 1024 step) = 1024 then step + 1 else step
  threeDigits bytes (Nat.pow 1024 step) ++ " " ++ (["bytes", "KiB", "MiB", "GiB", "TiB", "PiB", "EiB"].getD step "EiB")

def notAsciiText (first last code : Nat) : String :=
  let place :=
    if first = last then
      "character " ++ Text.quoteAround (String.ofList (Text.escapeCode code)) ++ " in position " ++ toString first
    else "characters in position " ++ toString first ++ "-" ++ toString last
  "'ascii' codec can't encode " ++ place ++ ": ordinal not in range(128)"

def message : Misfit → String
  | noSuchType name => "data type " ++ Text.quoted name ++ " not understood"
  | ragged shape =>
    "setting an array element with a sequence. The requested array has an inhomogeneous shape after " ++
      toString shape.length ++ " dimensions. The detected shape was " ++
      Text.tuple (shape.map toString) ++ " + inhomogeneous part."
  | tooDeep limit =>
    "setting an array element with a sequence. The requested array would exceed the maximum number of dimension of " ++
      toString limit ++ "."
  | tooManySides given =>
    "maximum supported dimension for an ndarray is currently " ++ toString maxDimensions ++ ", found " ++
      toString given
  | negativeSide => "negative dimensions are not allowed"
  | sideBeyond => "Maximum allowed dimension exceeded"
  | tooBig => "array is too big; \x60arr.size * arr.dtype.itemsize\x60 is larger than the maximum possible size."
  | noRoom bytes shape type =>
    "Unable to allocate " ++ byteText bytes ++ " for an array with shape " ++ Text.tuple (shape.map toString) ++
      " and data type " ++ type
  | noBroadcast source target =>
    "could not broadcast input array from shape " ++ sides source ++ " into shape " ++ sides target
  | nested => "setting an array element with a sequence."
  | notWhole shown => "invalid literal for int() with base 10: " ++ String.ofList (shown.toList.take 200)
  | tooLong digits =>
    "Exceeds the limit (" ++ toString Number.maxDigits ++ " digits) for integer string conversion: value has " ++
      toString digits ++ " digits; use sys.set_int_max_str_digits() to increase the limit"
  | noWhole type =>
    "int() argument must be a string, a bytes-like object or a real number, not " ++ Text.quoteAround type
  | wholeNan => "cannot convert float NaN to integer"
  | wholeInfinity => "cannot convert float infinity to integer"
  | beyondWord => "Python int too large to convert to C long"
  | beyondType value type => "Python integer " ++ toString value ++ " out of bounds for " ++ type
  | notReal shown => "could not convert string to float: " ++ shown
  | noReal type => "float() argument must be a string or a real number, not " ++ Text.quoteAround type
  | beyondDoubles => "int too large to convert to float"
  | notComplex => "complex() arg is a malformed string"
  | misjoined shown => "could not convert string to complex: " ++ shown
  | noComplex type => "must be real number, not " ++ type
  | notAscii first last code => notAsciiText first last code
  | noDate => "Could not convert object to NumPy datetime"
  | noDuration => "Could not convert object to NumPy timedelta"
  | beyondTicks => "int too big to convert"
  | unreadableDate text position =>
    "Error parsing datetime string \"" ++ text ++ "\" at position " ++ toString position
  | dateOutside field text => field ++ " out of range in datetime string \"" ++ text ++ "\""
  | noSum type => "unsupported operand type(s) for +: 'int' and " ++ Text.quoteAround type
  | noTextSum width =>
    "ufunc 'add' did not contain a loop with signature matching types (dtype('int64'), dtype('<U" ++
      toString width ++ "')) -> None"

end Misfit
end Intake
end MatrixChain
