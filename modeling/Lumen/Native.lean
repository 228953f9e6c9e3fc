import Lumen.Error
import Lumen.Store

/-! Functions that the host provides.

A native sees its arguments by name and then follows a routine: it writes lines, keeps
values for later calls, asks the interpreter to call a closure or to execute a program,
looks at the answer, and finishes with a value or an error. -/
namespace Lumen

/-- Where a line of output goes. -/
inductive Channel where
  | standard
  | diagnostic
  deriving DecidableEq, Repr

/-- A line of output. -/
structure Line where
  channel : Channel
  text : String
  deriving DecidableEq, Repr

/-- What an interpreter can be asked to do. -/
inductive Request where
  /-- To call a closure. Messages about the arguments name it by `label`. -/
  | call (closure : Closure) (arguments : List Value) (position : Position) (label : String)
  /-- To execute a program from the start. -/
  | execute (program : Block)

inductive Routine where
  | finish (result : Except Error Value)
  | write (line : Line) (next : Routine)
  /-- Replaces the values that the natives keep, and goes on with those that they kept. -/
  | keep (update : List Value → List Value) (next : List Value → Routine)
  | request (r : Request) (next : Except Error Value → Routine)

structure Native where
  name : String
  parameters : List String
  /-- What to do in a scope where names have the values that `lookup` gives. -/
  body : (lookup : String → Option Value) → Routine

/-- The call of a closure by the host. -/
def Closure.request (c : Closure) (arguments : List Value) (position : Position) : Request :=
  .call c arguments position c.function.label

namespace Routine

def answer (v : Value) : Routine := finish (.ok v)

def fail (e : Error) : Routine := finish (.error e)

/-- Does what is asked and finishes with the answer. -/
def forward (r : Request) : Routine := request r finish

end Routine

end Lumen
