import MatrixChain.Text.Printable

/-!
# Quoted text

A text between single quotes, or between double ones where it holds a single and no double quote.
Backslashes, the surrounding quote and characters that do not print are escaped.
-/

namespace MatrixChain
namespace Text

def hexDigits (width n : Nat) : List Char :=
  let digits := Nat.toDigits 16 n
  List.replicate (width - digits.length) '0' ++ digits

/-- A code point behind a backslash: two, four or eight digits, as few as hold it. -/
def escapeCode (n : Nat) : List Char :=
  if n < 0x100 then '\\' :: 'x' :: hexDigits 2 n
  else if n < 0x10000 then '\\' :: 'u' :: hexDigits 4 n
  else '\\' :: 'U' :: hexDigits 8 n

def escapeChar (quote c : Char) : List Char :=
  if c = quote ∨ c = '\\' then ['\\', c]
  else if c = '\t' then ['\\', 't']
  else if c = '\n' then ['\\', 'n']
  else if c = '\r' then ['\\', 'r']
  else if isPrintable c then [c]
  else escapeCode c.toNat

def singleQuote : Char := '\x27'

def doubleQuote : Char := '\x22'

def quoteFor (s : List Char) : Char :=
  if singleQuote ∈ s ∧ doubleQuote ∉ s then doubleQuote else singleQuote

def quoteAround (s : String) : String :=
  String.ofList (singleQuote :: s.toList ++ [singleQuote])

def quoted (s : String) : String :=
  let quote := quoteFor s.toList
  String.ofList (quote :: s.toList.flatMap (escapeChar quote) ++ [quote])

end Text
end MatrixChain
