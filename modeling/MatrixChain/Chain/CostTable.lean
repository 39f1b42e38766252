import MatrixChain.Chain.Tableau

/-!
# The printed cost table

One line per first operand and one column per last operand. All cells are as wide as the widest cost and right
aligned; those below the diagonal are blank. A cost that is too long to be written leaves no table.
-/

namespace MatrixChain
namespace CostTable

def digits (cost : Int) : Except Fault (List Char) :=
  String.toList <$> decimal cost

def entries (t : Tableau) : List Int :=
  t.costs.toList.flatMap Array.toList

/-- The width of the widest cost, above or below the diagonal. -/
def width (t : Tableau) : Except Fault Nat := do
  let widths ← (entries t).mapM fun cost => List.length <$> digits cost
  pure (widths.foldl max 0)

def rightAligned (width : Nat) (text : List Char) : List Char :=
  List.replicate (width - text.length) ' ' ++ text

def cell (width first last : Nat) (cost : Int) : Except Fault (List Char) :=
  if first ≤ last then rightAligned width <$> digits cost else pure (List.replicate width ' ')

def withoutTrailingBlanks (text : List Char) : List Char :=
  (text.reverse.dropWhile (· = ' ')).reverse

def line (width first : Nat) (row : Array Int) : Except Fault (List Char) := do
  let cells ← row.toList.zipIdx.mapM fun (cost, last) => cell width first last cost
  pure (withoutTrailingBlanks ([' ', ' '].intercalate cells))

def lines (t : Tableau) : Except Fault (List String) := do
  let width ← width t
  t.costs.toList.zipIdx.mapM fun (row, first) => String.ofList <$> line width first row

def text (t : Tableau) : Except Fault String := do
  pure ("\n".intercalate (← lines t))

end CostTable
end MatrixChain
