import Lumen.Eval.Machine

/-! The evaluator.

Statements and expressions are evaluated by recursion on the tree. What leaves the tree,
the call of a closure, is a request to the interpreter; so is what a native asks for.
`serve` answers requests and is given room for so many nested ones: the depth limit
keeps the calls of a program within bounds, and room only runs out for natives that
execute programs inside programs without end. -/
namespace Lumen
open Eval

/-! ### Trees -/

section Trees
variable (limits : Limits) (serve : Request → Eval Value)

mutual

def Statement.exec : Statement → Eval Value
  | .bind binding name value position => do
    bindName binding name (← value.exec) position
  | .condition branches none _ => do
    return (← execBranches branches).getD .null
  | .condition branches (some otherwise) _ => do
    match ← execBranches branches with
    | some v => pure v
    | none => otherwise.exec
  | .loop guard body position =>
    repeatWhile (do truth guard.position (← guard.exec))
      (inChild limits position body.exec) position limits.maxIterations .null
  | .breakOut none position => throw (.breakOut .null position)
  | .breakOut (some value) position => do
    throw (.breakOut (← value.exec) position)
  | .expression e => e.eval

def Expression.eval : Expression → Eval Value
  | .binary operator left right position =>
    combine operator left.eval right.eval left.position right.position position
  | .negate operand position => do
    ofExcept ((← operand.eval).negate position)
  | .constant value _ => pure value.value
  | .reference name position => lookup name position
  | .block b => b.eval
  | .lambda f => close (.lambda f)
  | .call callee arguments position => do
    match ← callee.eval with
    | .closure c =>
      let given ← evalArguments arguments
      serve (.call c given position callee.calleeLabel)
    | v => fail position (.notCallable v.tag)

/-- The value of the last statement, or null without any. -/
def Block.eval : Block → Eval Value
  | ⟨statements, position⟩ => inChild limits position (execAll .null statements)

def execAll (last : Value) : List Statement → Eval Value
  | [] => pure last
  | s :: rest => do
    execAll (← s.exec) rest

/-- The value of the first branch whose guard holds. -/
def execBranches : List Branch → Eval (Option Value)
  | [] => pure none
  | ⟨guard, body⟩ :: rest => do
    if ← truth guard.position (← guard.exec) then
      return some (← body.exec)
    else
      execBranches rest

def evalArguments : List Expression → Eval (List Value)
  | [] => pure []
  | e :: rest => do
    let v ← e.eval
    return v :: (← evalArguments rest)

end

end Trees

/-! ### Requests -/

/-- What the interpreter is set up with. -/
structure Host where
  natives : List Native
  limits : Limits := {}

/-- Follows a native's routine. What a native asks for comes back to it, an error too. -/
def Routine.run (serve : Request → Eval Value) : Routine → Eval Value
  | finish result => ofExcept result
  | write line next => do
    modify fun m => { m with output := m.output.push line }
    next.run serve
  | keep update next => do
    (next (← exchange update)).run serve
  | request r next => fun m =>
    match serve r m with
    | .ok v m => (next (.ok v)).run serve m
    | .error (.error e) m => (next (.error e)).run serve m
    | .error u m => .error u m

namespace Host

/-- What a native does in the current scope. -/
def routine (host : Host) (native : NativeRef) (lookup : String → Option Value) : Routine :=
  match native.slot.bind (host.natives[·]?) with
  | some n => n.body lookup
  | none => .answer .null

/-- Runs a function in the current scope, which binds its parameters. -/
def body (host : Host) (serve : Request → Eval Value) (position : Position) :
    Function → Eval Value
  | .lambda f => boundary (f.body.exec host.limits serve)
  | .native n => locatedAt position do
    let id ← current
    (host.routine n ((← get).store.lookup id)).run serve

/-- Calls a closure: its scope is inside the scope that the closure captured. -/
def call (host : Host) (serve : Request → Eval Value) (c : Closure) (arguments : List Value)
    (position : Position) (label : String) : Eval Value := do
  if c.parameters.length ≠ arguments.length then
    fail position (.arity label c.parameters.length arguments.length)
  else
    within host.limits c.captured (.ofArguments c.parameters arguments) position
      (host.body serve position c.function)

/-- Executes a program on a machine that is reset before and after. -/
def execute (host : Host) (serve : Request → Eval Value) (program : Block) : Eval Value :=
  fun m =>
    match boundary (program.eval host.limits serve) (m.reset host.natives) with
    | .ok v m => .ok v (m.reset host.natives)
    | .error u m => .error u (m.reset host.natives)

/-- Answers a request with room for `room` nested ones, itself included. -/
def serve (host : Host) : (room : Nat) → Request → Eval Value
  | 0, _ => throw .exhausted
  | room + 1, .call c arguments position label =>
    host.call (host.serve room) c arguments position label
  | room + 1, .execute program => host.execute (host.serve room) program

/-- Room for programs inside programs. -/
def spareRoom : Nat := 10000

/-- Room for as many calls as can be active, and some to spare. -/
def room (host : Host) : Nat := host.limits.maxDepth + spareRoom

end Host

end Lumen
