import Lumen.Native
import Lumen.Value.Operation

/-! The machine that programs run on.

A machine has a store of scopes, a stack of the scopes that are active, the output so
far, and what the natives keep from one call to another. The scope on top of the stack is
the *current* one: names are declared there and looked up from there. A block, an
iteration of a loop and a call each enter a scope of their own and leave it again, however
they end; the depth of the stack is limited. -/
namespace Lumen

structure Limits where
  /-- How many scopes may be active at a time. -/
  maxDepth : Nat := 128
  /-- How many iterations one execution of a loop may start. -/
  maxIterations : Nat := 100000
  deriving DecidableEq, Repr

structure Machine where
  store : Store
  /-- The active scopes, the current one first. -/
  stack : List ScopeId
  /-- The number of the next closure. -/
  nextClosure : Nat
  /-- The lines written so far. -/
  output : Array Line
  /-- The values that the natives keep. A program cannot see them. -/
  kept : List Value

/-- Why an evaluation ends without a value. -/
inductive Unwind where
  /-- A break on its way to the loop that it leaves, with its value and its place. -/
  | breakOut (value : Value) (position : Position)
  | error (e : Error)
  /-- No room for another nested request. -/
  | exhausted

abbrev Eval := EStateM Unwind Machine

namespace Machine

def empty : Machine := ⟨.empty, [], 0, #[], []⟩

/-- Makes a closure that captures the scope `captured`. -/
def close (function : Function) (captured : ScopeId) (m : Machine) : Closure × Machine :=
  (⟨m.nextClosure, function, captured⟩, { m with nextClosure := m.nextClosure + 1 })

/-- Makes a closure that captures an empty scope of its own. -/
def closeAlone (function : Function) (m : Machine) : Closure × Machine :=
  let (captured, store) := m.store.root
  { m with store }.close function captured

/-- Binds every native in the scope `root`, those in front first. -/
def install (root : ScopeId) (slot : Nat) : List Native → Machine → Machine
  | [], m => m
  | native :: rest, m =>
    let (c, m) := m.closeAlone (.native ⟨some slot, native.name, native.parameters⟩)
    install root (slot + 1) rest
      { m with store := m.store.declare root native.name (.closure c) }

/-- Starts afresh: the only active scope is a new root that binds the natives. -/
def reset (natives : List Native) (m : Machine) : Machine :=
  let (root, store) := m.store.root
  install root 0 natives { m with store, stack := [root] }

/-- Leaves the current scope. -/
def leave (m : Machine) : Machine := { m with stack := m.stack.tail }

end Machine

namespace Eval

/-- Fails unless a computation of values has a result. -/
def ofExcept {α : Type} : Except Error α → Eval α
  | .ok a => pure a
  | .error e => throw (.error e)

def fail {α : Type} (position : Position) (cause : RuntimeCause) : Eval α :=
  throw (.error (.runtime position cause))

/-- The truth of a value that stands at `position`. -/
def truth (position : Position) (v : Value) : Eval Bool := ofExcept (v.toBoolean position)

/-! ### Names -/

/-- The current scope. With no scope active it is a new one that nobody else sees. -/
def current : Eval ScopeId := fun m =>
  match m.stack with
  | id :: _ => .ok id m
  | [] =>
    let (id, store) := m.store.root
    .ok id { m with store }

def lookup (name : String) (position : Position) : Eval Value := do
  let id ← current
  match (← get).store.lookup id name with
  | some v => pure v
  | none => fail position (.undefined name)

/-- Binds a name as its binding says, and gives the value that the name has then. -/
def bindName (binding : Binding) (name : String) (v : Value) (position : Position) :
    Eval Value := do
  let id ← current
  match binding with
  | .declare =>
    modify fun m => { m with store := m.store.declare id name v }
    pure v
  | .assign => change (Store.assign id name v)
  | .nullAssign => change (Store.nullAssign id name v)
where
  change (update : Store → Option Value × Store) : Eval Value := do
    let result ← modifyGet fun m =>
      let (result, store) := update m.store
      (result, { m with store })
    match result with
    | some v => pure v
    | none => fail position (.undefined name)

/-- The closure of a function over the current scope. -/
def close (function : Function) : Eval Value := do
  let captured ← current
  modifyGet fun m =>
    let (c, m) := m.close function captured
    (.closure c, m)

/-- Replaces the values that the natives keep, and gives those that they kept. -/
def exchange (update : List Value → List Value) : Eval (List Value) :=
  modifyGet fun m => (m.kept, { m with kept := update m.kept })

/-! ### Scopes -/

/-- Runs `body` in a new scope inside `parent` and leaves that scope however it ends. -/
def within {α : Type} (limits : Limits) (parent : ScopeId) (bindings : Bindings)
    (position : Position) (body : Eval α) : Eval α := fun m =>
  if limits.maxDepth ≤ m.stack.length then
    .error (.error (.runtime position .recursionLimit)) m
  else
    let (id, store) := m.store.add ⟨bindings, some parent⟩
    match body { m with store, stack := id :: m.stack } with
    | .ok a m => .ok a m.leave
    | .error u m => .error u m.leave

/-- Runs `body` in a new scope inside the current one. -/
def inChild {α : Type} (limits : Limits) (position : Position) (body : Eval α) : Eval α := do
  within limits (← current) [] position body

/-! ### Operators, loops and boundaries -/

/-- Applies an operator to two computations, of which a lazy operator may leave out the
second. -/
def combine (operator : Operator) (left right : Eval Value)
    (leftAt rightAt position : Position) : Eval Value := do
  let l ← left
  match operator with
  | .or => if ← truth leftAt l then return .boolean true else rightTruth
  | .and => if ← truth leftAt l then rightTruth else return .boolean false
  | .nullCoalescing => if l.isNull then right else return l
  | _ => ofExcept (Value.binary operator l (← right) position)
where
  rightTruth : Eval Value := do
    return .boolean (← truth rightAt (← right))

/-- Starts up to `limit` iterations of a loop, as long as the guard holds. A break in the
guard or in the body ends the loop with the value of the break. -/
def repeatWhile (guard : Eval Bool) (body : Eval Value) (position : Position) :
    (limit : Nat) → (last : Value) → Eval Value
  | limit, last => fun m =>
    match guard m with
    | .error (.breakOut v _) m => .ok v m
    | .error u m => .error u m
    | .ok false m => .ok last m
    | .ok true m =>
      match limit with
      | 0 => .error (.error (.runtime position .loopLimit)) m
      | limit + 1 =>
        match body m with
        | .ok v m => repeatWhile guard body position limit v m
        | .error (.breakOut v _) m => .ok v m
        | .error u m => .error u m

/-- The end of a function or of a program, which no break may cross. -/
def boundary (body : Eval Value) : Eval Value := fun m =>
  match body m with
  | .error (.breakOut _ position) m => .error (.error (.runtime position .strayBreak)) m
  | result => result

/-- Gives an error without a place the place of the call that it came from. -/
def locatedAt (position : Position) (body : Eval Value) : Eval Value := fun m =>
  match body m with
  | .error (.error e) m => .error (.error (e.locatedAt position)) m
  | result => result

end Eval

end Lumen
