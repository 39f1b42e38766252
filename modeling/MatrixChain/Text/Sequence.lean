/-!
# Sequences as text

Lists stand in brackets and tuples in parentheses; a tuple of one item ends in a comma.
-/

namespace MatrixChain
namespace Text

def bracketed (items : List String) : String :=
  "[" ++ ", ".intercalate items ++ "]"

def tuple : List String → String
  | [item] => "(" ++ item ++ ",)"
  | items => "(" ++ ", ".intercalate items ++ ")"

end Text
end MatrixChain
