import MatrixChain.Intake.Datum
import MatrixChain.Intake.Instant

/-!
# Element types

What the elements of an array are, by name, and the type that holds given values: the least one above the types
of the single values, taken in their order.
-/

namespace MatrixChain
namespace Intake

inductive ElementType where
  | bool
  | signed (bits : Nat)
  | unsigned (bits : Nat)
  | half
  | single
  | double
  | complex (bits : Nat)
  | object
  /-- Texts of so many characters at most, where none is asked for, of as many as needed. -/
  | text (width : Nat)
  | bytes (width : Nat)
  | date (unit : TimeUnit)
  | duration (unit : TimeUnit)
deriving DecidableEq

namespace TimeUnit

def all : List TimeUnit :=
  [year, month, week, day, hour, minute, second] ++ [1, 2, 3, 4, 5, 6].map fraction

def name : TimeUnit → String
  | year => "Y"
  | month => "M"
  | week => "W"
  | day => "D"
  | hour => "h"
  | minute => "m"
  | second => "s"
  | fraction power =>
    match power with
    | 1 => "ms"
    | 2 => "us"
    | 3 => "ns"
    | 4 => "ps"
    | 5 => "fs"
    | _ => "as"

end TimeUnit

namespace ElementType

def name : ElementType → String
  | bool => "bool"
  | signed bits => "int" ++ toString bits
  | unsigned bits => "uint" ++ toString bits
  | half => "float16"
  | single => "float32"
  | double => "float64"
  | complex bits => "complex" ++ toString bits
  | object => "object"
  | text width => "<U" ++ toString width
  | bytes width => "|S" ++ toString width
  | date unit => "datetime64[" ++ unit.name ++ "]"
  | duration unit => "timedelta64[" ++ unit.name ++ "]"

def bytesEach : ElementType → Nat
  | bool => 1
  | signed bits => bits / 8
  | unsigned bits => bits / 8
  | half => 2
  | single => 4
  | complex bits => bits / 8
  | text width => 4 * width
  | bytes width => width
  | _ => 8

def scalarName : ElementType → String
  | text _ => "str_"
  | bytes _ => "bytes_"
  | date _ => "datetime64"
  | duration _ => "timedelta64"
  | type => type.name

def isReal : ElementType → Bool
  | bool | signed _ | unsigned _ | half | single | double => true
  | _ => false

def sized : List ElementType :=
  [bool, half, single, double, object] ++ [8, 16, 32, 64].map signed ++ [8, 16, 32, 64].map unsigned ++
    [64, 128].map complex ++ TimeUnit.all.map date ++ TimeUnit.all.map duration

def words : List (String × ElementType) :=
  [("int", signed 64), ("uint", unsigned 64), ("float", double), ("complex", complex 128), ("str", text 0),
    ("bytes", bytes 0), ("half", half), ("single", single), ("double", double), ("bool_", bool), ("int_", signed 64),
    ("str_", text 0), ("bytes_", bytes 0), ("object_", object), ("byte", signed 8), ("ubyte", unsigned 8),
    ("short", signed 16), ("ushort", unsigned 16), ("intc", signed 32), ("uintc", unsigned 32), ("long", signed 64),
    ("ulong", unsigned 64), ("longlong", signed 64), ("ulonglong", unsigned 64), ("intp", signed 64),
    ("uintp", unsigned 64), ("csingle", complex 64), ("cdouble", complex 128)]

/-- Letters for types, and letters for kinds of types with a count of bytes. -/
def codes : List (String × ElementType) :=
  [("?", bool), ("b", signed 8), ("B", unsigned 8), ("h", signed 16), ("H", unsigned 16), ("i", signed 32),
    ("I", unsigned 32), ("l", signed 64), ("L", unsigned 64), ("q", signed 64), ("Q", unsigned 64), ("e", half),
    ("f", single), ("d", double), ("F", complex 64), ("D", complex 128), ("O", object), ("b1", bool), ("f2", half),
    ("f4", single), ("f8", double), ("c8", complex 64), ("c16", complex 128)] ++
    [1, 2, 4, 8].flatMap (fun size =>
      [("i" ++ toString size, signed (8 * size)), ("u" ++ toString size, unsigned (8 * size))]) ++
    TimeUnit.all.flatMap fun unit => [("M8[" ++ unit.name ++ "]", date unit), ("m8[" ++ unit.name ++ "]", duration unit)]

def countAfter? (letter : Char) (name : String) : Option Nat :=
  match name.toList with
  | c :: digits =>
    if c = letter && digits.all Text.isDigit then some (digits.foldl (fun n c => n * 10 + Text.digit c) 0) else none
  | [] => none

def withoutOrder (code : String) : String :=
  match code.toList with
  | mark :: rest => if mark = '<' ∨ mark = '=' ∨ mark = '|' then String.ofList rest else code
  | [] => code

def ofCode? (code : String) : Option ElementType :=
  match codes.lookup code, countAfter? 'U' code, countAfter? 'S' code with
  | some type, _, _ => some type
  | none, some width, _ => some (text width)
  | none, none, some width => some (bytes width)
  | none, none, none => none

def ofName? (name : String) : Option ElementType :=
  match sized.find? (·.name == name), words.lookup name with
  | some type, _ => some type
  | none, some type => some type
  | none, none => ofCode? (withoutOrder name)

def longest (lengths : List Nat) : Nat :=
  lengths.foldl max 1

/-- A type of texts of no stated width becomes as wide as the longest of these values. -/
def widened (values : List Datum) : ElementType → ElementType
  | text 0 => text (longest (values.map fun value => value.asText.length))
  | bytes 0 => bytes (longest (values.map fun value => value.asText.length))
  | type => type

def ofValue : Datum → ElementType
  | .bool _ => bool
  | .int n =>
    if -Int.pow 2 63 ≤ n ∧ n < Int.pow 2 63 then signed 64
    else if 0 ≤ n ∧ n < Int.pow 2 64 then unsigned 64
    else object
  | .double _ => double
  | .text s => text (max 1 s.length)
  | _ => object

def room : ElementType → Nat
  | bool => 5
  | signed _ => 21
  | unsigned _ => 20
  | text width => width
  | _ => 32

def join : ElementType → ElementType → ElementType
  | object, _ => object
  | _, object => object
  | text width, other => text (max width other.room)
  | other, text width => text (max other.room width)
  | bool, other => other
  | other, bool => other
  | signed _, signed _ => signed 64
  | unsigned _, unsigned _ => unsigned 64
  | _, _ => double

def infer : List Datum → ElementType
  | [] => double
  | value :: values => values.foldl (fun type value => join type (ofValue value)) (ofValue value)

end ElementType
end Intake
end MatrixChain
