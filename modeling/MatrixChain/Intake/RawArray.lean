import MatrixChain.Fault
import MatrixChain.Intake.Element
import MatrixChain.Place

/-!
# Arrays of any dimension

What a leaf can be made from. Only two-dimensional arrays of real numbers pass, and dimensions are looked at first.
-/

namespace MatrixChain
namespace Intake

structure RawArray where
  shape : List Nat
  type : ElementType
  elements : Array Element

namespace RawArray

def refuse {β : Type} (cause : Misfit) : Except Fault β :=
  throw (.misfit cause)

def fitted {β : Type} : Except Misfit β → Except Fault β
  | .ok result => pure result
  | .error cause => refuse cause

def count (shape : List Nat) : Nat :=
  shape.foldl (· * ·) 1

def namedType (typeName : Option String) : Except Fault (Option ElementType) :=
  match typeName with
  | none => pure none
  | some name =>
    match ElementType.ofName? name with
    | some type => pure (some type)
    | none => refuse (.noSuchType name)

/-- The shape of nested data in at most `limit` dimensions. Lists that are not rectangular make an array of objects
only. -/
def shapeOf (datum : Datum) (limit : Nat) (type : Option ElementType) : Except Fault (List Nat) :=
  let shape := datum.shapeTo limit
  if datum.isRectangularTo limit || type = some .object then pure shape
  else refuse (if shape.length = limit then .tooDeep limit else .ragged shape)

def ofNested (datum : Datum) (limit : Nat) (given : Option ElementType) : Except Fault RawArray := do
  let shape ← shapeOf datum limit given
  let values := datum.elements shape.length
  let type := (given.map (·.widened values)).getD (.infer values)
  pure ⟨shape, type, (← fitted (values.mapM (Element.store type))).toArray⟩

def ofDatum (datum : Datum) (typeName : Option String) : Except Fault RawArray := do
  ofNested datum Misfit.maxDimensions (← namedType typeName)

/-- From so many bytes on there is no memory for an array. -/
def memory : Nat := Nat.pow 2 36

/-- The bytes of an array as far as its sides are not zero, if a machine word can count them. -/
def bytesOf? (type : ElementType) (shape : List Nat) : Option Nat :=
  let bytes := (shape.filter (· ≠ 0)).foldl (· * ·) type.bytesEach
  if bytes < Nat.pow 2 63 then some bytes else none

def checkRoom (type : ElementType) (shape : List Nat) : Except Fault Unit :=
  match bytesOf? type shape with
  | none => refuse .tooBig
  | some bytes => if memory ≤ bytes && count shape ≠ 0 then refuse (.noRoom bytes shape type.name) else pure ()

def sides (shape : List Int) : Except Fault (List Nat) :=
  if Misfit.maxDimensions < shape.length then refuse (.tooManySides shape.length)
  else if shape.any fun side => side < -Int.pow 2 63 || Int.pow 2 63 ≤ side then refuse .sideBeyond
  else if shape.any (· < 0) then refuse .negativeSide
  else pure (shape.map Int.toNat)

/-- Where an array of the inner sides `source` is read for place `k` of an array with the sides `target`: it repeats
over the outer sides, and along sides of one. Both lists begin with the innermost side. -/
def sourcePlace : (source target : List Nat) → Nat → Nat
  | side :: source, side' :: target, k =>
    (if side = 1 then 0 else k % side') + side * sourcePlace source target (k / side')
  | _, _, _ => 0

def spreads : (source target : List Nat) → Bool
  | side :: source, side' :: target => (side = 1 || side = side') && spreads source target
  | [], _ => true
  | _, [] => false

/-- An integer from a list has the bits of its type already. -/
def bitsOf (type : ElementType) (isListed : Bool) : Datum → Datum
  | .int n =>
    match type with
    | .signed _ | .unsigned _ => .int (if isListed then Element.wrap type n else n)
    | _ => .int n
  | value => value

def isForemost (type : ElementType) : Datum → Bool
  | .int _ =>
    match type with
    | .date _ => false
    | _ => true
  | _ => false

def sourcePlaces (source target : List Nat) : Except Fault (Array Nat) :=
  let inner := source.reverse
  let outer := target.reverse
  if spreads inner outer then pure (Array.ofFn fun k : Fin (count target) => sourcePlace inner outer k.val)
  else refuse (.noBroadcast source target)

def fill (value : Datum) (shape : List Int) (typeName : Option String) : Except Fault RawArray := do
  let limit := Misfit.maxDimensions
  let type ← match ← namedType typeName with
    | some type => pure (type.widened [])
    | none => pure (.infer (value.elements (← shapeOf value limit none).length))
  let target ← sides shape
  checkRoom type target
  let source ← shapeOf value limit none
  let places ← sourcePlaces source target
  if places.isEmpty && !isForemost type value then pure ⟨target, type, #[]⟩
  else
    let spread (d : Datum) := Element.spread type (bitsOf type (!source.isEmpty) d)
    let values := (← fitted ((value.elements source.length).mapM spread)).toArray
    pure ⟨target, type, places.map fun place => values.getD place default⟩

def eye (n : Int) : Except Fault RawArray := do
  let shape ← sides [n, n]
  checkRoom .double shape
  let side := n.toNat
  pure ⟨shape, .double, Array.ofFn fun k : Fin (count shape) =>
    .number (if k.val / side = k.val % side then 1 else 0)⟩

/-- `start`, `start + 1`, … row by row. Whole numbers wrap around in a word of 64 bits. -/
def iota (rows cols : Nat) (start : Datum) : Except Fault RawArray := do
  checkRoom (.signed 64) [rows * cols]
  let make (type : ElementType) (element : Nat → Element) : RawArray :=
    ⟨[rows, cols], type, Array.ofFn fun k : Fin (rows * cols) => element k.val⟩
  match start with
  | .bool b => pure (make (.signed 64) fun k => .number (Float.ofNat (k + (if b then 1 else 0))))
  | .int s =>
    let s ← fitted (Element.fit (.signed 64) s)
    pure (make (.signed 64) fun k => .number (Float.ofInt (Element.wrap (.signed 64) (s + k))))
  | .double x => pure (make .double fun k => .number (Float.ofNat k + x))
  | .text s => refuse (.noTextSum (max 1 s.length))
  | .list _ => refuse .nested
  | start => if rows * cols = 0 then pure (make .object fun _ => default) else refuse (.noSum start.typeName)

def toMatrix (a : RawArray) : Except Fault (DenseMatrix Float) := do
  match a.shape with
  | [rows, cols] =>
    if a.type.isReal then
      checkRoom .double a.shape
      let values := (← fitted (a.elements.toList.mapM (Element.real a.type))).toArray
      pure (.ofFn rows cols fun i j => values.getD (i.val * cols + j.val) 0)
    else throw (.unsupported (.elements a.type.name))
  | shape => throw (.unsupported (.array shape.length))

/-- The matrix that stands in for the one of a leaf: the type may be any, if all elements convert to doubles. -/
def toDoubles (a : RawArray) : Except Fault (DenseMatrix Float) := do
  let values := (← fitted (a.elements.toList.mapM (Element.real a.type))).toArray
  match a.shape with
  | [rows, cols] => pure (.ofFn rows cols fun i j => values.getD (i.val * cols + j.val) 0)
  | _ => throw (.indexBeyond .tuple)

def placeOn (axis size : Nat) (index : Int) : Except Fault Nat :=
  match place? size index with
  | some place => pure place
  | none => throw (.indexOutside index axis size)

def written (type : ElementType) (inner : List Nat) (value : Datum) : Except Fault (Array Element) := do
  match inner with
  | [] => pure #[← fitted (Element.store type value)]
  | inner =>
    let source ← ofNested value inner.length (some type)
    pure ((← sourcePlaces source.shape inner).map fun place => source.elements.getD place default)

def poke (a : RawArray) (row col : Int) (value : Datum) : Except Fault RawArray := do
  match a.shape with
  | rows :: cols :: inner =>
    let first := (← placeOn 0 rows row) * cols + (← placeOn 1 cols col)
    let block ← written a.type inner value
    pure { a with
      elements := (List.range block.size).foldl (fun elements k =>
        elements.setIfInBounds (first * block.size + k) (block.getD k default)) a.elements }
  | shape => throw (.tooManyIndices shape.length 2)

end RawArray
end Intake
end MatrixChain
