import MatrixChain.Intake.Misfit
import MatrixChain.Number.Shortest

/-!
# Nested data

Plain values, lists and records of them, as a matrix may be given. Lists make the dimensions of an array. Its
shape goes as deep as all lists of a depth agree, and no deeper than arrays may go.
-/

namespace MatrixChain
namespace Intake

inductive Datum where
  | null
  | bool (b : Bool)
  | int (n : Int)
  | double (x : Float)
  | text (s : String)
  | list (items : List Datum)
  | record (fields : List (String × Datum))
deriving Inhabited

namespace Datum

def typeName : Datum → String
  | null => "NoneType"
  | bool _ => "bool"
  | int _ => "int"
  | double _ => "float"
  | text _ => "str"
  | list _ => "list"
  | record _ => "dict"

mutual

def literal : Datum → String
  | null => "None"
  | bool b => if b then "True" else "False"
  | int n => toString n
  | double x => String.ofList (Number.floatText x)
  | text s => Text.quoted s
  | list items => Text.bracketed (literals items)
  | record fields => "\x7b" ++ ", ".intercalate (fieldLiterals fields) ++ "\x7d"

def literals : List Datum → List String
  | [] => []
  | item :: items => item.literal :: literals items

def fieldLiterals : List (String × Datum) → List String
  | [] => []
  | (name, value) :: fields => (Text.quoted name ++ ": " ++ value.literal) :: fieldLiterals fields

end

def asText : Datum → String
  | text s => s
  | d => d.literal

def isTruthy : Datum → Bool
  | null => false
  | bool b => b
  | int n => n != 0
  | double x => !(x == 0)
  | text s => !s.isEmpty
  | list items => !items.isEmpty
  | record fields => !fields.isEmpty

def asNumber? : Datum → Option (Int ⊕ Float)
  | bool b => some (.inl (if b then 1 else 0))
  | int n => some (.inl n)
  | double x => some (.inr x)
  | _ => none

def isWhole (x : Float) (n : Int) : Bool :=
  match Number.Binary.ofFloat? x with
  | some b => b.truncate == n && x == Float.ofInt n
  | none => false

mutual

/-- Equality of values: numbers of all types compare, and records regardless of the order of their fields. -/
def same : Datum → Datum → Bool
  | null, null => true
  | text s, text s' => s == s'
  | list items, list items' => allSame items items'
  | record fields, record fields' => fields.length == fields'.length && eachSame fields fields'
  | a, b =>
    match a.asNumber?, b.asNumber? with
    | some (.inl n), some (.inl n') => n == n'
    | some (.inl n), some (.inr x) => isWhole x n
    | some (.inr x), some (.inl n) => isWhole x n
    | some (.inr x), some (.inr x') => x == x'
    | _, _ => false

def allSame : List Datum → List Datum → Bool
  | [], [] => true
  | item :: items, item' :: items' => item.same item' && allSame items items'
  | _, _ => false

def eachSame : List (String × Datum) → List (String × Datum) → Bool
  | [], _ => true
  | (name, value) :: fields, others =>
    (match others.lookup name with
      | some other => value.same other
      | none => false) && eachSame fields others

end

def commonPrefix : List Nat → List Nat → List Nat
  | a :: as, b :: bs => if a = b then a :: commonPrefix as bs else []
  | _, _ => []

def commonShape : List (List Nat) → List Nat
  | [] => []
  | [shape] => shape
  | shape :: shapes => commonPrefix shape (commonShape shapes)

mutual

/-- The sides on which the lists of each depth agree, outermost first, for so many dimensions at most. -/
def shapeTo : Datum → Nat → List Nat
  | list items, limit + 1 => items.length :: commonShape (shapesTo items limit)
  | _, _ => []

def shapesTo : List Datum → Nat → List (List Nat)
  | [], _ => []
  | item :: items, limit => item.shapeTo limit :: shapesTo items limit

end

def allEqual (shapes : List (List Nat)) : Bool :=
  shapes.all fun shape => shape == shapes.headD []

mutual

def isRectangularTo : Datum → Nat → Bool
  | list items, limit + 1 => areRectangularTo items limit && allEqual (shapesTo items limit)
  | list _, 0 => false
  | _, _ => true

def areRectangularTo : List Datum → Nat → Bool
  | [], _ => true
  | item :: items, limit => item.isRectangularTo limit && areRectangularTo items limit

end

mutual

def elementsOnto : Datum → Nat → List Datum → List Datum
  | list items, depth + 1, rest => allElementsOnto items depth rest
  | d, _, rest => d :: rest

def allElementsOnto : List Datum → Nat → List Datum → List Datum
  | [], _, rest => rest
  | item :: items, depth, rest => item.elementsOnto depth (allElementsOnto items depth rest)

end

def elements (d : Datum) (dimensions : Nat) : List Datum :=
  d.elementsOnto dimensions []

end Datum
end Intake
end MatrixChain
