/-!
# Blanks and digits of all scripts

Numbers in text may stand between blanks and may be written in any script that has decimal digits. `plainForm`
rewrites them to spaces and to the digits `0 … 9`, so that readers of numbers need to know nothing else.
-/

namespace MatrixChain
namespace Text

def isBlank (c : Char) : Bool :=
  let n := c.toNat
  (9 ≤ n && n ≤ 13) || n = 0x20 || n = 0x85 || n = 0xA0 || n = 0x1680 || (0x2000 ≤ n && n ≤ 0x200A) ||
    n = 0x2028 || n = 0x2029 || n = 0x202F || n = 0x205F || n = 0x3000

def trimmed (s : List Char) : List Char :=
  (((s.dropWhile isBlank).reverse).dropWhile isBlank).reverse

def isDigit (c : Char) : Bool :=
  '0' ≤ c && c ≤ '9'

def digit (c : Char) : Nat :=
  c.toNat - '0'.toNat

/-- The code points of the zeros of all scripts, ascending; the other nine digits follow each of them. -/
def zeros : Array Nat := #[
  48, 1632, 1776, 1984, 2406, 2534, 2662, 2790, 2918, 3046, 3174, 3302, 3430, 3558, 3664, 3792, 3872, 4160, 4240,
  6112, 6160, 6470, 6608, 6784, 6800, 6992, 7088, 7232, 7248, 42528, 43216, 43264, 43472, 43504, 43600, 44016,
  65296, 66720, 68912, 69734, 69872, 69942, 70096, 70384, 70736, 70864, 71248, 71360, 71472, 71904, 72016, 72784,
  73040, 73120, 92768, 92864, 93008, 120782, 120792, 120802, 120812, 120822, 123200, 123632, 125264, 130032]

def digitValue? (c : Char) : Option Nat :=
  (zeros.find? fun least => least ≤ c.toNat && c.toNat < least + 10).map (c.toNat - ·)

/-- A character as readers of numbers see it; what is neither a blank nor a digit becomes a question mark. -/
def plainChar (c : Char) : Char :=
  if c.toNat < 128 then c
  else if isBlank c then ' '
  else match digitValue? c with
    | some value => Nat.digitChar value
    | none => '?'

def plainForm (s : String) : List Char :=
  trimmed (s.toList.map plainChar)

end Text
end MatrixChain
