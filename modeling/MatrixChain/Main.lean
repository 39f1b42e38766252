import MatrixChain.Command.Response

/-!
# The command

Plan the cheapest order of a chain of matrix products. Its lines are shown as they are.
-/

namespace MatrixChain
namespace Command

def usage : String :=
  "usage: matrixchain [--name NAME]... [--table] [--verbose] [--help] DIMENSION..."

end Command
end MatrixChain

def main (words : List String) : IO UInt32 := do
  match MatrixChain.Command.run id words with
  | .misused =>
    IO.eprintln MatrixChain.Command.usage
    pure 2
  | .help =>
    IO.println MatrixChain.Command.usage
    pure 0
  | .responded response =>
    IO.print response.out
    IO.eprint response.err
    if let some fault := response.uncaught then IO.eprintln fault.message
    pure response.code.toUInt32
