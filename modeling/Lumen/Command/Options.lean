import Lumen.Eval.Machine

/-! What the command line asks for. -/
namespace Lumen.Command

/-- What to show of a program. -/
inductive Emit where
  | value
  | tree
  | tokens
  deriving DecidableEq, Repr

structure Options where
  /-- A file or a directory; standard input without one. -/
  input : Option String := none
  emit : Emit := .value
  maxDepth : Option Nat := none
  maxIterations : Option Nat := none
  deriving DecidableEq, Repr

/-- Limits that are not given are the usual ones. -/
def Options.limits (o : Options) : Limits where
  maxDepth := o.maxDepth.getD ({} : Limits).maxDepth
  maxIterations := o.maxIterations.getD ({} : Limits).maxIterations

end Lumen.Command
