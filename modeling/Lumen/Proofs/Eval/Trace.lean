import Lumen.Eval

/-! The evaluator with every machine that it passes through.

A traced computation gives, beside its result, the machines at all the points of the
evaluation: before and after every single step, and after every scope that is entered
or left and every reset. The traced evaluator is built from the same trees as the
evaluator itself; `Lockstep` shows that forgetting the machines gives the evaluator
back (`Task.trace_erase`), so a fact about the machines of a trace is a fact about the
evaluation at all times. -/
namespace EStateM.Result
variable {ε σ α : Type}

/-- The state that a computation leaves, however it ends. -/
def state : Result ε σ α → σ
  | ok _ s => s
  | error _ s => s

@[simp] theorem state_ok (a : α) (s : σ) : (ok a s : Result ε σ α).state = s := rfl

@[simp] theorem state_error (e : ε) (s : σ) : (error e s : Result ε σ α).state = s := rfl

/-- The same end with another state. -/
def withState (s : σ) : Result ε σ α → Result ε σ α
  | ok a _ => ok a s
  | error e _ => error e s

@[simp] theorem state_withState (s : σ) (r : Result ε σ α) : (r.withState s).state = s := by
  cases r <;> rfl

end EStateM.Result

namespace Lumen
open Eval

/-- How an evaluation ends, and the machine that it leaves. -/
abbrev Eval.Result (α : Type) := EStateM.Result Unwind Machine α

/-! ### The constructions of the evaluator

All but scopes and resets go on where one computation ends, however it ends. -/

/-- Goes on where `c` ends, however it ends. -/
def Eval.follow {α β : Type} (c : Eval α) (next : Result α → Eval β) : Eval β := fun m =>
  next (c m) (c m).state

theorem Eval.bind_eq_follow {α β : Type} (c : Eval α) (f : α → Eval β) :
    c >>= f = c.follow fun
      | .ok a _ => f a
      | .error u _ => throw u := by
  funext m
  simp only [bind, EStateM.bind, follow]
  cases c m <;> rfl

/-- What comes after the body of a loop that may start `limit` more iterations. -/
def Eval.nextTurn (guard : Eval Bool) (body : Eval Value) (position : Position) (limit : Nat) :
    Result Value → Eval Value
  | .ok v _ => repeatWhile guard body position limit v
  | .error (.breakOut v _) _ => pure v
  | .error u _ => throw u

theorem Eval.repeatWhile_eq_follow (guard : Eval Bool) (body : Eval Value) (position : Position)
    (limit : Nat) (last : Value) :
    repeatWhile guard body position limit last = guard.follow fun
      | .error (.breakOut v _) _ => pure v
      | .error u _ => throw u
      | .ok false _ => pure last
      | .ok true _ =>
        match limit with
        | 0 => fail position .loopLimit
        | limit + 1 => body.follow (nextTurn guard body position limit) := by
  funext m
  rw [repeatWhile]
  simp only [follow]
  rcases guard m with ⟨_ | _, m'⟩ | ⟨_ | _ | _, m'⟩
  case ok.true =>
    cases limit with
    | zero => rfl
    | succ limit =>
      simp only [EStateM.Result.state_ok, follow]
      rcases body m' with ⟨v, m''⟩ | ⟨_ | _ | _, m''⟩ <;> rfl
  all_goals rfl

theorem Eval.boundary_eq_follow (body : Eval Value) :
    boundary body = body.follow fun
      | .ok v _ => pure v
      | .error (.breakOut _ position) _ => fail position .strayBreak
      | .error u _ => throw u := by
  funext m
  simp only [boundary, follow]
  rcases body m with ⟨v, m'⟩ | ⟨_ | _ | _, m'⟩ <;> rfl

theorem Eval.locatedAt_eq_follow (position : Position) (body : Eval Value) :
    locatedAt position body = body.follow fun
      | .ok v _ => pure v
      | .error (.error e) _ => throw (.error (e.locatedAt position))
      | .error u _ => throw u := by
  funext m
  simp only [locatedAt, follow]
  rcases body m with ⟨v, m'⟩ | ⟨_ | _ | _, m'⟩ <;> rfl

/-- Hands the answer to a request over to what asked for it. -/
def Eval.answer (asked : Eval Value) (next : Except Error Value → Eval Value) : Eval Value :=
  asked.follow fun
    | .ok v _ => next (.ok v)
    | .error (.error e) _ => next (.error e)
    | .error u _ => throw u

theorem Routine.run_request (serve : Request → Eval Value) (r : Request)
    (next : Except Error Value → Routine) :
    (request r next).run serve = Eval.answer (serve r) fun a => (next a).run serve := by
  funext m
  simp only [Routine.run, Eval.answer, follow]
  rcases serve r m with ⟨v, m'⟩ | ⟨_ | _ | _, m'⟩ <;> rfl

/-- The machine in a new scope inside `parent`. -/
def Machine.enter (parent : ScopeId) (bindings : Bindings) (m : Machine) : Machine :=
  { m with
    store := (m.store.add ⟨bindings, some parent⟩).2
    stack := (m.store.add ⟨bindings, some parent⟩).1 :: m.stack }

@[simp] theorem Machine.length_enter (parent : ScopeId) (bindings : Bindings) (m : Machine) :
    (m.enter parent bindings).stack.length = m.stack.length + 1 := rfl

@[simp] theorem Machine.tail_enter (parent : ScopeId) (bindings : Bindings) (m : Machine) :
    (m.enter parent bindings).stack.tail = m.stack := rfl

@[simp] theorem Machine.stack_leave (m : Machine) : m.leave.stack = m.stack.tail := rfl

section Scopes
variable {α : Type} {limits : Limits} {parent : ScopeId} {bindings : Bindings}
  {position : Position} {body : Eval α} {m : Machine}

theorem Eval.within_of_full (h : limits.maxDepth ≤ m.stack.length) :
    within limits parent bindings position body m =
      .error (.error (.runtime position .recursionLimit)) m := by
  simp only [within, h, if_true]

theorem Eval.within_of_room (h : ¬limits.maxDepth ≤ m.stack.length) :
    within limits parent bindings position body m =
      (body (m.enter parent bindings)).withState (body (m.enter parent bindings)).state.leave := by
  simp only [within, h, if_false]
  unfold Machine.enter
  cases body _ <;> rfl

end Scopes

/-- The machine with one more native bound in the scope `root`. -/
def Machine.installOne (root : ScopeId) (slot : Nat) (native : Native) (m : Machine) : Machine :=
  { m with
    store := m.store.root.2.declare root native.name (.closure
      ⟨m.nextClosure, .native ⟨some slot, native.name, native.parameters⟩, m.store.root.1⟩)
    nextClosure := m.nextClosure + 1 }

theorem Machine.install_cons (root : ScopeId) (slot : Nat) (native : Native) (rest : List Native)
    (m : Machine) :
    m.install root slot (native :: rest) =
      (m.installOne root slot native).install root (slot + 1) rest := rfl

/-- To install natives does not enter a scope, write or keep anything. -/
theorem Machine.install_frame (root : ScopeId) (slot : Nat) (natives : List Native) (m : Machine) :
    (m.install root slot natives).stack = m.stack ∧
      (m.install root slot natives).output = m.output ∧
      (m.install root slot natives).kept = m.kept := by
  induction natives generalizing slot m with
  | nil => exact ⟨rfl, rfl, rfl⟩
  | cons native rest ih => exact ih (slot + 1) _

/-- A reset leaves one scope active. -/
theorem Machine.length_reset_stack (natives : List Native) (m : Machine) :
    (m.reset natives).stack.length = 1 := by
  rw [reset, (install_frame _ _ _ _).1]
  rfl

theorem Machine.reset_output (natives : List Native) (m : Machine) :
    (m.reset natives).output = m.output := by
  rw [reset, (install_frame _ _ _ _).2.1]

/-- What natives keep outlasts a program. -/
theorem Machine.reset_kept (natives : List Native) (m : Machine) :
    (m.reset natives).kept = m.kept := by
  rw [reset, (install_frame _ _ _ _).2.2]

/-- Runs `body` on a machine that is reset before and after. -/
def Eval.afresh (natives : List Native) (body : Eval Value) : Eval Value := fun m =>
  (body (m.reset natives)).withState ((body (m.reset natives)).state.reset natives)

theorem Host.execute_eq (host : Host) (serve : Request → Eval Value) (program : Block) :
    host.execute serve program =
      afresh host.natives (boundary (program.eval host.limits serve)) := by
  funext m
  unfold Host.execute afresh
  cases boundary (program.eval host.limits serve) (m.reset host.natives) <;> rfl

/-- The names that a native sees, with their values. -/
def Eval.surroundings : Eval (String → Option Value) := do
  let id ← current
  return (← get).store.lookup id

theorem Host.body_native (host : Host) (serve : Request → Eval Value) (position : Position)
    (n : NativeRef) : host.body serve position (.native n) =
      locatedAt position (surroundings >>= fun lookup => (host.routine n lookup).run serve) := by
  simp only [Host.body, surroundings, bind_assoc, pure_bind]

/-- A computation with the machines that it passes through, in order. -/
def Traced (α : Type) := Machine → Result α × List Machine

namespace Traced
variable {α β : Type}

/-- The computation without its trace. -/
def erase (t : Traced α) : Eval α := fun m => (t m).1

/-- A computation that changes the machine at once, if at all. -/
def step (c : Eval α) : Traced α := fun m => (c m, [m, (c m).state])

/-- Goes on where `t` ends, however it ends. -/
def follow (t : Traced α) (next : Result α → Traced β) : Traced β := fun m =>
  let (r, passed) := t m
  let (r', passed') := next r r.state
  (r', passed ++ passed')

instance : Monad Traced where
  pure a := step (pure a)
  bind t f := t.follow fun
    | .ok a _ => f a
    | .error u _ => step (throw u)

/-! ### Scopes, loops and boundaries -/

def within (limits : Limits) (parent : ScopeId) (bindings : Bindings) (position : Position)
    (body : Traced α) : Traced α := fun m =>
  if limits.maxDepth ≤ m.stack.length then
    step (fail position .recursionLimit) m
  else
    ((step (modify (·.enter parent bindings))).follow fun _ =>
      body.follow fun r => step fun m => r.withState m.leave) m

def inChild (limits : Limits) (position : Position) (body : Traced α) : Traced α := do
  within limits (← step current) [] position body

def repeatWhile (guard : Traced Bool) (body : Traced Value) (position : Position) :
    (limit : Nat) → (last : Value) → Traced Value
  | limit, last => guard.follow fun
    | .error (.breakOut v _) _ => pure v
    | .error u _ => step (throw u)
    | .ok false _ => pure last
    | .ok true _ =>
      match limit with
      | 0 => step (fail position .loopLimit)
      | limit + 1 => body.follow fun
        | .ok v _ => repeatWhile guard body position limit v
        | .error (.breakOut v _) _ => pure v
        | .error u _ => step (throw u)

def boundary (body : Traced Value) : Traced Value := body.follow fun
  | .ok v _ => pure v
  | .error (.breakOut _ position) _ => step (fail position .strayBreak)
  | .error u _ => step (throw u)

def locatedAt (position : Position) (body : Traced Value) : Traced Value := body.follow fun
  | .ok v _ => pure v
  | .error (.error e) _ => step (throw (.error (e.locatedAt position)))
  | .error u _ => step (throw u)

def afresh (natives : List Native) (body : Traced Value) : Traced Value :=
  (step (modify (·.reset natives))).follow fun _ =>
    body.follow fun r => step fun m => r.withState (m.reset natives)

def answer (asked : Traced Value) (next : Except Error Value → Traced Value) : Traced Value :=
  asked.follow fun
    | .ok v _ => next (.ok v)
    | .error (.error e) _ => next (.error e)
    | .error u _ => step (throw u)

def combine (operator : Operator) (left right : Traced Value)
    (leftAt rightAt position : Position) : Traced Value := do
  let l ← left
  match operator with
  | .or => if ← step (truth leftAt l) then return .boolean true else rightTruth
  | .and => if ← step (truth leftAt l) then rightTruth else return .boolean false
  | .nullCoalescing => if l.isNull then right else return l
  | _ => step (ofExcept (Value.binary operator l (← right) position))
where
  rightTruth : Traced Value := do
    return .boolean (← step (truth rightAt (← right)))

/-! ### Forgetting the trace -/

theorem erase_follow (t : Traced α) (next : Result α → Traced β) :
    (t.follow next).erase = t.erase.follow fun r => (next r).erase := rfl

theorem erase_bind (t : Traced α) (f : α → Traced β) :
    (t >>= f).erase = t.erase >>= fun a => (f a).erase := by
  show (t.follow _).erase = _
  rw [erase_follow, bind_eq_follow]
  congr 1
  funext r
  cases r <;> rfl

theorem erase_within (limits : Limits) (parent : ScopeId) (bindings : Bindings)
    (position : Position) (body : Traced α) :
    (within limits parent bindings position body).erase =
      Eval.within limits parent bindings position body.erase := by
  funext m
  by_cases h : limits.maxDepth ≤ m.stack.length
  · simp only [erase, within, h, if_true, Eval.within_of_full h]
    rfl
  · simp only [erase, within, h, if_false, Eval.within_of_room h]
    rfl

/-- The machines passed in a new scope: those of entering, of the body and of leaving. -/
theorem within_passed {limits : Limits} {m : Machine} (h : ¬limits.maxDepth ≤ m.stack.length)
    (parent : ScopeId) (bindings : Bindings) (position : Position) (body : Traced α) :
    (within limits parent bindings position body m).2 =
      m :: m.enter parent bindings :: ((body (m.enter parent bindings)).2 ++
        [(body.erase (m.enter parent bindings)).state,
          (body.erase (m.enter parent bindings)).state.leave]) := by
  simp only [within, h, if_false, follow, step, EStateM.Result.state_withState]
  rfl

theorem afresh_passed (natives : List Native) (body : Traced Value) (m : Machine) :
    (body.afresh natives m).2 =
      m :: m.reset natives :: ((body (m.reset natives)).2 ++
        [(body.erase (m.reset natives)).state,
          (body.erase (m.reset natives)).state.reset natives]) := by
  simp only [afresh, follow, step, EStateM.Result.state_withState]
  rfl

theorem erase_repeatWhile (guard : Traced Bool) (body : Traced Value) (position : Position)
    (limit : Nat) (last : Value) :
    (repeatWhile guard body position limit last).erase =
      Eval.repeatWhile guard.erase body.erase position limit last := by
  induction limit generalizing last with
  | zero =>
    rw [repeatWhile, erase_follow, repeatWhile_eq_follow]
    congr 1
    funext r
    rcases r with ⟨_ | _, m⟩ | ⟨_ | _ | _, m⟩ <;> rfl
  | succ limit ih =>
    rw [repeatWhile, erase_follow, repeatWhile_eq_follow]
    congr 1
    funext r
    rcases r with ⟨_ | _, m⟩ | ⟨_ | _ | _, m⟩
    case ok.true =>
      rw [erase_follow]
      congr 1
      funext r
      rcases r with ⟨v, m⟩ | ⟨_ | _ | _, m⟩
      · exact ih v
      all_goals rfl
    all_goals rfl

theorem erase_boundary (body : Traced Value) :
    body.boundary.erase = Eval.boundary body.erase := by
  rw [boundary, erase_follow, boundary_eq_follow]
  congr 1
  funext r
  rcases r with ⟨v, m⟩ | ⟨_ | _ | _, m⟩ <;> rfl

theorem erase_locatedAt (position : Position) (body : Traced Value) :
    (body.locatedAt position).erase = Eval.locatedAt position body.erase := by
  rw [locatedAt, erase_follow, locatedAt_eq_follow]
  congr 1
  funext r
  rcases r with ⟨v, m⟩ | ⟨_ | _ | _, m⟩ <;> rfl

theorem erase_afresh (natives : List Native) (body : Traced Value) :
    (body.afresh natives).erase = Eval.afresh natives body.erase := rfl

theorem erase_answer (asked : Traced Value) (next : Except Error Value → Traced Value) :
    (asked.answer next).erase = Eval.answer asked.erase fun a => (next a).erase := by
  rw [answer, erase_follow, Eval.answer]
  congr 1
  funext r
  rcases r with ⟨v, m⟩ | ⟨_ | _ | _, m⟩ <;> rfl

end Traced

/-! ### Trees -/

section Trees
variable (limits : Limits) (serve : Request → Traced Value)

mutual

def Statement.trace : Statement → Traced Value
  | .bind binding name value position => do
    .step (bindName binding name (← value.trace) position)
  | .condition branches none _ => do
    return (← traceBranches branches).getD .null
  | .condition branches (some otherwise) _ => do
    match ← traceBranches branches with
    | some v => pure v
    | none => otherwise.trace
  | .loop guard body position =>
    .repeatWhile (do .step (truth guard.position (← guard.trace)))
      (.inChild limits position body.trace) position limits.maxIterations .null
  | .breakOut none position => .step (throw (.breakOut .null position))
  | .breakOut (some value) position => do
    .step (throw (.breakOut (← value.trace) position))
  | .expression e => e.trace

def Expression.trace : Expression → Traced Value
  | .binary operator left right position =>
    .combine operator left.trace right.trace left.position right.position position
  | .negate operand position => do
    .step (ofExcept ((← operand.trace).negate position))
  | .constant value _ => pure value.value
  | .reference name position => .step (lookup name position)
  | .block b => b.trace
  | .lambda f => .step (close (.lambda f))
  | .call callee arguments position => do
    match ← callee.trace with
    | .closure c =>
      let given ← traceArguments arguments
      serve (.call c given position callee.calleeLabel)
    | v => .step (fail position (.notCallable v.tag))

def Block.trace : Block → Traced Value
  | ⟨statements, position⟩ => .inChild limits position (traceAll .null statements)

def traceAll (last : Value) : List Statement → Traced Value
  | [] => pure last
  | s :: rest => do
    traceAll (← s.trace) rest

def traceBranches : List Branch → Traced (Option Value)
  | [] => pure none
  | ⟨guard, body⟩ :: rest => do
    if ← .step (truth guard.position (← guard.trace)) then
      return some (← body.trace)
    else
      traceBranches rest

def traceArguments : List Expression → Traced (List Value)
  | [] => pure []
  | e :: rest => do
    let v ← e.trace
    return v :: (← traceArguments rest)

end

end Trees

/-! ### Requests -/

def Routine.trace (serve : Request → Traced Value) : Routine → Traced Value
  | finish result => .step (ofExcept result)
  | write line next => do
    .step (modify fun m => { m with output := m.output.push line })
    next.trace serve
  | keep update next => do
    (next (← .step (exchange update))).trace serve
  | request r next => (serve r).answer fun a => (next a).trace serve

namespace Host

def bodyTrace (host : Host) (serve : Request → Traced Value) (position : Position) :
    Function → Traced Value
  | .lambda f => .boundary (f.body.trace host.limits serve)
  | .native n => .locatedAt position do
    (host.routine n (← .step surroundings)).trace serve

def callTrace (host : Host) (serve : Request → Traced Value) (c : Closure)
    (arguments : List Value) (position : Position) (label : String) : Traced Value :=
  if c.parameters.length ≠ arguments.length then
    .step (fail position (.arity label c.parameters.length arguments.length))
  else
    .within host.limits c.captured (.ofArguments c.parameters arguments) position
      (host.bodyTrace serve position c.function)

def executeTrace (host : Host) (serve : Request → Traced Value) (program : Block) :
    Traced Value :=
  .afresh host.natives (.boundary (program.trace host.limits serve))

def serveTrace (host : Host) : (room : Nat) → Request → Traced Value
  | 0, _ => .step (throw .exhausted)
  | room + 1, .call c arguments position label =>
    host.callTrace (host.serveTrace room) c arguments position label
  | room + 1, .execute program => host.executeTrace (host.serveTrace room) program

end Host

/-! ### All that can be evaluated -/

/-- What an interpreter is set to work on. -/
inductive Task where
  | statement (s : Statement)
  | expression (e : Expression)
  | block (b : Block)
  | request (r : Request)

namespace Task

/-- Does a task with room for `room` nested requests. -/
def run (host : Host) (room : Nat) : Task → Eval Value
  | statement s => s.exec host.limits (host.serve room)
  | expression e => e.eval host.limits (host.serve room)
  | block b => b.eval host.limits (host.serve room)
  | request r => host.serve room r

def trace (host : Host) (room : Nat) : Task → Traced Value
  | statement s => s.trace host.limits (host.serveTrace room)
  | expression e => e.trace host.limits (host.serveTrace room)
  | block b => b.trace host.limits (host.serveTrace room)
  | request r => host.serveTrace room r

end Task

end Lumen
