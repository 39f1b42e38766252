import MatrixChain.Command.Integer

/-!
# Arguments of the command

Words are dimensions or options until a `--`, and dimensions after it.
-/

namespace MatrixChain
namespace Command

structure Arguments where
  dimensions : List String
  names : List String
  table : Bool
  verbose : Bool
  help : Bool
deriving DecidableEq

namespace Arguments

def empty : Arguments :=
  ⟨[], [], false, false, false⟩

def withDimensions (a : Arguments) (dimensions : List String) : Arguments :=
  { a with dimensions := a.dimensions ++ dimensions }

def withName (a : Arguments) (name : String) : Arguments :=
  { a with names := a.names ++ [name] }

/-- One-letter flags in one word. With `n` the rest of the word is a name, or else the next word is one. -/
def readFlags (a : Arguments) : List Char → List String → Option (Arguments × List String)
  | [], rest => some (a, rest)
  | 'v' :: flags, rest => readFlags { a with verbose := true } flags rest
  | ['n'], name :: rest => some (a.withName name, rest)
  | ['n'], [] => none
  | 'n' :: name, rest => some (a.withName (String.ofList name), rest)
  | _ :: _, _ => none

inductive LongOption where
  | name
  | table
  | verbose
  | help
deriving DecidableEq

def LongOption.ofName? (name : String) : Option LongOption :=
  if name = "name" then some .name
  else if name = "table" then some .table
  else if name = "verbose" then some .verbose
  else if name = "help" then some .help
  else none

/-- Add a long option with the value that its word gives, or with the next word. Flags take no value. -/
def readLongOption (a : Arguments) :
    LongOption → (value : Option String) → List String → Option (Arguments × List String)
  | .name, some value, rest => some (a.withName value, rest)
  | .name, none, value :: rest => some (a.withName value, rest)
  | .table, none, rest => some ({ a with table := true }, rest)
  | .verbose, none, rest => some ({ a with verbose := true }, rest)
  | .help, none, rest => some ({ a with help := true }, rest)
  | _, _, _ => none

def readLong (a : Arguments) (word : List Char) (rest : List String) : Option (Arguments × List String) := do
  let option ← LongOption.ofName? (String.ofList (word.takeWhile (· ≠ '=')))
  let value := match word.dropWhile (· ≠ '=') with
    | [] => none
    | _ :: value => some (String.ofList value)
  a.readLongOption option value rest

def readWord (a : Arguments) (word : String) (rest : List String) : Option (Arguments × List String) :=
  match word.toList with
  | ['-', '-'] => some (a.withDimensions rest, [])
  | '-' :: '-' :: option => a.readLong option rest
  | '-' :: flag :: flags => a.readFlags (flag :: flags) rest
  | _ => some (a.withDimensions [word], rest)

theorem readFlags_length {a b : Arguments} {flags : List Char} {rest left : List String}
    (h : a.readFlags flags rest = some (b, left)) : left.length ≤ rest.length := by
  fun_induction readFlags a flags rest with
  | case2 _ _ _ ih => exact ih h
  | _ => simp only [Option.some.injEq, Prod.mk.injEq, reduceCtorEq] at h <;> simp [← h.2]

theorem readLongOption_length {a b : Arguments} {option : LongOption} {value : Option String}
    {rest left : List String} (h : a.readLongOption option value rest = some (b, left)) :
    left.length ≤ rest.length := by
  unfold readLongOption at h
  split at h <;> simp only [Option.some.injEq, Prod.mk.injEq, reduceCtorEq] at h <;> simp [← h.2]

theorem readLong_length {a b : Arguments} {word : List Char} {rest left : List String}
    (h : a.readLong word rest = some (b, left)) : left.length ≤ rest.length := by
  simp only [readLong, Option.bind_eq_bind, Option.bind_eq_some_iff] at h
  obtain ⟨option, _, h⟩ := h
  exact readLongOption_length h

theorem readWord_length {a b : Arguments} {word : String} {rest left : List String}
    (h : a.readWord word rest = some (b, left)) : left.length ≤ rest.length := by
  unfold readWord at h
  split at h
  · simp only [Option.some.injEq, Prod.mk.injEq] at h; simp [← h.2]
  · exact readLong_length h
  · exact readFlags_length h
  · simp only [Option.some.injEq, Prod.mk.injEq] at h; simp [← h.2]

def read (a : Arguments) (words : List String) : Option Arguments :=
  match words with
  | [] => some a
  | word :: rest =>
    match _h : a.readWord word rest with
    | some (next, left) => read next left
    | none => none
termination_by words.length
decreasing_by exact Nat.lt_succ_of_le (readWord_length ‹_›)

end Arguments
end Command
end MatrixChain
