import Lumen.Command.Options

/-! The arguments of the command line, for a shell that has no parser of its own.

Options and the one operand come in any order. An option takes the next argument or what
follows an equals sign as its value, is given once at most, and a pair of hyphens makes
all that follows operands. What cannot be understood is a usage error. -/
namespace Lumen.Command

def Emit.ofWord? : String → Option Emit
  | "value" => some .value
  | "ast" => some .tree
  | "tokens" => some .tokens
  | _ => none

/-- The largest number that an option takes, the largest of 64 bits. -/
def maxNumber : Nat := 18446744073709551615

/-- A number in decimal digits, which a plus sign may precede. -/
def number? (word : String) : Option Nat :=
  let digits := match word.toList with
    | '+' :: rest => rest
    | all => all
  if digits ≠ [] ∧ digits.all (·.isDigit) then
    let n := digits.foldl (fun n c => 10 * n + (c.toNat - '0'.toNat)) 0
    if n ≤ maxNumber then some n else none
  else none

/-- What has been given so far. -/
structure Arguments where
  input : Option String := none
  emit : Option Emit := none
  maxDepth : Option Nat := none
  maxIterations : Option Nat := none

namespace Arguments

/-- Sets an option that has not been set before. -/
def setOption (a : Arguments) (name value : String) : Option Arguments :=
  match name with
  | "emit" => do
    guard a.emit.isNone
    return { a with emit := some (← Emit.ofWord? value) }
  | "max-depth" => do
    guard a.maxDepth.isNone
    return { a with maxDepth := some (← number? value) }
  | "max-iterations" => do
    guard a.maxIterations.isNone
    return { a with maxIterations := some (← number? value) }
  | _ => none

/-- Sets the operand, which may not be empty. -/
def setInput (a : Arguments) (path : String) : Option Arguments := do
  guard (a.input.isNone ∧ path ≠ "")
  return { a with input := some path }

/-- An argument is a long option, a cluster of short ones, or an operand. -/
inductive Shape where
  | endOfOptions
  | long (name : String) (value : Option String)
  | short (letters : List Char)
  | operand

/-- A lone hyphen is an operand. -/
def shape (argument : String) : Shape :=
  match argument.toList with
  | ['-', '-'] => .endOfOptions
  | '-' :: '-' :: rest =>
    let name := String.ofList (rest.takeWhile (· ≠ '='))
    match rest.dropWhile (· ≠ '=') with
    | [] => .long name none
    | _ :: value => .long name (some (String.ofList value))
  | '-' :: c :: rest => .short (c :: rest)
  | _ => .operand

/-- Adds what some arguments say. -/
def add (a : Arguments) : List String → Option Arguments
  | [] => some a
  | argument :: rest =>
    match shape argument with
    | .endOfOptions => rest.foldlM setInput a
    | .operand => do add (← a.setInput argument) rest
    | .short letters => if letters.all (· == 'v') then add a rest else none
    | .long name (some value) => do add (← a.setOption name value) rest
    | .long name none =>
      if name = "verbose" then add a rest
      else
        match rest with
        | [] => none
        | value :: rest =>
          match shape value with
          | .operand => do add (← a.setOption name value) rest
          | _ => none

def options (a : Arguments) : Options where
  input := a.input
  emit := a.emit.getD .value
  maxDepth := a.maxDepth
  maxIterations := a.maxIterations

end Arguments

/-- The options that the arguments give, unless they are a usage error. -/
def Options.parse (arguments : List String) : Option Options := do
  return (← Arguments.add {} arguments).options

end Lumen.Command
