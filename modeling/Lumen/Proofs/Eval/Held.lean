import Lumen.Proofs.Eval.Lockstep

/-! The evaluator with all that it holds.

Between its steps an evaluation holds values that no scope binds: a callee and the arguments that
are already there while the others are evaluated, a left operand, what a break is on its way out
with, what natives call with. A watched computation gives, beside its result, the *scenes* that it
passes: the machine at all the points of the evaluation, and at each of them the values held there.
What a computation hands over is held from then on until that which goes on with it has ended.

As the traced evaluator, the watched one is built from the same trees as the evaluator itself. The
machines of its scenes are those of the trace, so it does what the evaluator does
(`Host.serveWatch_retraces`). -/
namespace Lumen
open Eval

/-- A machine in the middle of an evaluation, and the values that are held there. -/
structure Scene where
  machine : Machine
  held : List Value

/-! ### What is handed over -/

/-- The values in what a computation gives. -/
class Handed (α : Type) where
  values : α → List Value

instance : Handed Value := ⟨fun v => [v]⟩
instance : Handed (List Value) := ⟨id⟩
instance : Handed (Option Value) := ⟨Option.toList⟩
instance : Handed Bool := ⟨fun _ => []⟩
instance : Handed Unit := ⟨fun _ => []⟩
instance : Handed ScopeId := ⟨fun _ => []⟩
instance : Handed (String → Option Value) := ⟨fun _ => []⟩

/-- The values that an evaluation ends with, be it in a break. -/
def Eval.handed {α : Type} [Handed α] : Result α → List Value
  | .ok a _ => Handed.values a
  | .error (.breakOut v _) _ => [v]
  | .error _ _ => []

/-- What a request is about. -/
def Request.values : Request → List Value
  | call c arguments _ _ => .closure c :: arguments
  | execute _ => []

/-! ### Watched computations -/

/-- A computation with the scenes that it passes through, in order, where some values are held from
before. -/
def Watched (α : Type) := List Value → Machine → Result α × List Scene

namespace Watched
variable {α β : Type} [Handed α] [Handed β]

/-- A computation that changes the machine at once, if at all. -/
def step (c : Eval α) : Watched α := fun held m =>
  (c m, [⟨m, held⟩, ⟨(c m).state, handed (c m) ++ held⟩])

/-- Goes on where `t` ends, however it ends, and holds what it ends with. -/
def follow (t : Watched α) (next : Result α → Watched β) : Watched β := fun held m =>
  let (r, passed) := t held m
  let (r', passed') := next r (handed r ++ held) r.state
  (r', passed ++ passed')

def bind (t : Watched α) (next : α → Watched β) : Watched β := t.follow fun
  | .ok a _ => next a
  | .error u _ => step (throw u)

/-- Holds some more values. -/
def holding (vs : List Value) (t : Watched α) : Watched α := fun held => t (vs ++ held)

/-! ### Scopes, loops and boundaries -/

def within (limits : Limits) (parent : ScopeId) (bindings : Bindings) (position : Position)
    (body : Watched α) : Watched α := fun held m =>
  if limits.maxDepth ≤ m.stack.length then
    step (fail position .recursionLimit) held m
  else
    ((step (modify (·.enter parent bindings))).follow fun _ =>
      body.follow fun r => step fun m => r.withState m.leave) held m

def inChild (limits : Limits) (position : Position) (body : Watched α) : Watched α :=
  (step current).bind fun parent => within limits parent [] position body

def repeatWhile (guard : Watched Bool) (body : Watched Value) (position : Position) :
    (limit : Nat) → (last : Value) → Watched Value
  | limit, last => guard.follow fun
    | .error (.breakOut v _) _ => step (pure v)
    | .error u _ => step (throw u)
    | .ok false _ => step (pure last)
    | .ok true _ =>
      match limit with
      | 0 => step (fail position .loopLimit)
      | limit + 1 => body.follow fun
        | .ok v _ => repeatWhile guard body position limit v
        | .error (.breakOut v _) _ => step (pure v)
        | .error u _ => step (throw u)

def boundary (body : Watched Value) : Watched Value := body.follow fun
  | .ok v _ => step (pure v)
  | .error (.breakOut _ position) _ => step (fail position .strayBreak)
  | .error u _ => step (throw u)

def locatedAt (position : Position) (body : Watched Value) : Watched Value := body.follow fun
  | .ok v _ => step (pure v)
  | .error (.error e) _ => step (throw (.error (e.locatedAt position)))
  | .error u _ => step (throw u)

def afresh (natives : List Native) (body : Watched Value) : Watched Value :=
  (step (modify (·.reset natives))).follow fun _ =>
    body.follow fun r => step fun m => r.withState (m.reset natives)

def answer (asked : Watched Value) (next : Except Error Value → Watched Value) : Watched Value :=
  asked.follow fun
    | .ok v _ => next (.ok v)
    | .error (.error e) _ => next (.error e)
    | .error u _ => step (throw u)

def combine (operator : Operator) (left right : Watched Value)
    (leftAt rightAt position : Position) : Watched Value :=
  left.bind fun l =>
    match operator with
    | .or => (step (truth leftAt l)).bind fun b =>
      if b then step (pure (.boolean true)) else rightTruth
    | .and => (step (truth leftAt l)).bind fun b =>
      if b then rightTruth else step (pure (.boolean false))
    | .nullCoalescing => if l.isNull then right else step (pure l)
    | _ => right.bind fun r => step (ofExcept (Value.binary operator l r position))
where
  rightTruth : Watched Value :=
    right.bind fun r => (step (truth rightAt r)).bind fun b => step (pure (.boolean b))

end Watched

/-! ### Trees -/

section Trees
variable (limits : Limits) (serve : Request → Watched Value)
open Watched (step)

mutual

def Statement.watch : Statement → Watched Value
  | .bind binding name value position =>
    value.watch.bind fun v => step (bindName binding name v position)
  | .condition branches none _ =>
    (watchBranches branches).bind fun found => step (pure (found.getD .null))
  | .condition branches (some otherwise) _ =>
    (watchBranches branches).bind fun
      | some v => step (pure v)
      | none => otherwise.watch
  | .loop guard body position =>
    .repeatWhile (guard.watch.bind fun v => step (truth guard.position v))
      (.inChild limits position body.watch) position limits.maxIterations .null
  | .breakOut none position => step (throw (.breakOut .null position))
  | .breakOut (some value) position =>
    value.watch.bind fun v => step (throw (.breakOut v position))
  | .expression e => e.watch

def Expression.watch : Expression → Watched Value
  | .binary operator left right position =>
    .combine operator left.watch right.watch left.position right.position position
  | .negate operand position =>
    operand.watch.bind fun v => step (ofExcept (v.negate position))
  | .constant value _ => step (pure value.value)
  | .reference name position => step (lookup name position)
  | .block b => b.watch
  | .lambda f => step (close (.lambda f))
  | .call callee arguments position =>
    callee.watch.bind fun
      | .closure c => (watchArguments arguments).bind fun given =>
        serve (.call c given position callee.calleeLabel)
      | v => step (fail position (.notCallable v.tag))

def Block.watch : Block → Watched Value
  | ⟨statements, position⟩ => .inChild limits position (watchAll .null statements)

def watchAll (last : Value) : List Statement → Watched Value
  | [] => step (pure last)
  | s :: rest => s.watch.bind fun v => watchAll v rest

def watchBranches : List Branch → Watched (Option Value)
  | [] => step (pure none)
  | ⟨guard, body⟩ :: rest =>
    guard.watch.bind fun v => (step (truth guard.position v)).bind fun b =>
      if b then body.watch.bind fun v => step (pure (some v)) else watchBranches rest

def watchArguments : List Expression → Watched (List Value)
  | [] => step (pure [])
  | e :: rest => e.watch.bind fun v =>
    (watchArguments rest).bind fun vs => step (pure (v :: vs))

end

end Trees

/-! ### Requests -/

def Routine.watch (serve : Request → Watched Value) : Routine → Watched Value
  | finish result => .step (ofExcept result)
  | write line next =>
    (Watched.step (modify fun m => { m with output := m.output.push line })).bind fun _ =>
      next.watch serve
  | keep update next => (Watched.step (exchange update)).bind fun kept => (next kept).watch serve
  | request r next => (serve r).answer fun a => (next a).watch serve

namespace Host

def bodyWatch (host : Host) (serve : Request → Watched Value) (position : Position) :
    Function → Watched Value
  | .lambda f => .boundary (f.body.watch host.limits serve)
  | .native n => .locatedAt position ((Watched.step surroundings).bind fun lookup =>
    (host.routine n lookup).watch serve)

def callWatch (host : Host) (serve : Request → Watched Value) (c : Closure)
    (arguments : List Value) (position : Position) (label : String) : Watched Value :=
  if c.parameters.length ≠ arguments.length then
    .step (fail position (.arity label c.parameters.length arguments.length))
  else
    .within host.limits c.captured (.ofArguments c.parameters arguments) position
      (host.bodyWatch serve position c.function)

def executeWatch (host : Host) (serve : Request → Watched Value) (program : Block) :
    Watched Value :=
  .afresh host.natives (.boundary (program.watch host.limits serve))

/-- Answers a request and holds on the way what it is about. -/
def serveWatch (host : Host) : (room : Nat) → Request → Watched Value
  | 0, r => .holding r.values (.step (throw .exhausted))
  | room + 1, .call c arguments position label => .holding (.closure c :: arguments)
    (host.callWatch (host.serveWatch room) c arguments position label)
  | room + 1, .execute program => host.executeWatch (host.serveWatch room) program

end Host

/-! ### Forgetting what is held -/

namespace Watched
variable {α β : Type} [Handed α]

/-- The scenes without what is held. -/
def machines (t : Watched α) (held : List Value) : Traced α := fun m =>
  ((t held m).1, (t held m).2.map Scene.machine)

theorem machines_follow (t : Watched α) (next : Result α → Watched β) (held : List Value) :
    (t.follow next).machines held =
      (t.machines held).follow fun r => (next r).machines (handed r ++ held) := by
  funext m
  simp only [machines, follow, Traced.follow, List.map_append]

/-- Without what is held, the watched computation is the traced one. -/
def Retraces (t : Watched α) (t' : Traced α) : Prop := ∀ held, t.machines held = t'

namespace Retraces
variable {t : Watched α} {t' : Traced α}

theorem step (c : Eval α) : (Watched.step c).Retraces (.step c) := fun _ => rfl

theorem pure (a : α) : (Watched.step (Pure.pure a)).Retraces (Pure.pure a) := step _

theorem follow (h : t.Retraces t') {next : Result α → Watched β} {next' : Result α → Traced β}
    (hnext : ∀ r, (next r).Retraces (next' r)) :
    (t.follow next).Retraces (t'.follow next') := by
  intro held
  rw [machines_follow, h held]
  exact congrArg t'.follow (funext fun r => hnext r _)

theorem bind [Handed β] (h : t.Retraces t') {g : α → Watched β} {g' : α → Traced β}
    (hg : ∀ a, (g a).Retraces (g' a)) : (t.bind g).Retraces (t' >>= g') :=
  h.follow fun r => by
    cases r with
    | ok a m => exact hg a
    | error u m => exact step _

theorem within (limits : Limits) (parent : ScopeId) (bindings : Bindings) (position : Position)
    (h : t.Retraces t') : (t.within limits parent bindings position).Retraces
      (t'.within limits parent bindings position) := by
  intro held
  funext m
  unfold machines Watched.within Traced.within
  split
  · rfl
  · exact congrFun ((step _).follow (fun _ => h.follow fun _ => step _) held) m

theorem inChild (limits : Limits) (position : Position) (h : t.Retraces t') :
    (t.inChild limits position).Retraces (t'.inChild limits position) :=
  (step current).bind fun parent => h.within limits parent [] position

theorem repeatWhile {guard : Watched Bool} {guard' : Traced Bool} {body : Watched Value}
    {body' : Traced Value} (position : Position) (limit : Nat) (last : Value)
    (hguard : guard.Retraces guard') (hbody : body.Retraces body') :
    (Watched.repeatWhile guard body position limit last).Retraces
      (Traced.repeatWhile guard' body' position limit last) := by
  induction limit generalizing last with
  | zero =>
    rw [Watched.repeatWhile, Traced.repeatWhile]
    refine hguard.follow fun r => ?_
    rcases r with ⟨_ | _, m⟩ | ⟨_ | _ | _, m⟩ <;> exact step _
  | succ limit ih =>
    rw [Watched.repeatWhile, Traced.repeatWhile]
    refine hguard.follow fun r => ?_
    rcases r with ⟨_ | _, m⟩ | ⟨_ | _ | _, m⟩
    case ok.true =>
      refine hbody.follow fun r => ?_
      rcases r with ⟨v, m⟩ | ⟨_ | _ | _, m⟩
      · exact ih v
      all_goals exact step _
    all_goals exact step _

theorem boundary {t : Watched Value} {t' : Traced Value} (h : t.Retraces t') :
    t.boundary.Retraces t'.boundary :=
  h.follow fun r => by rcases r with ⟨v, m⟩ | ⟨_ | _ | _, m⟩ <;> exact step _

theorem locatedAt {t : Watched Value} {t' : Traced Value} (position : Position)
    (h : t.Retraces t') : (t.locatedAt position).Retraces (t'.locatedAt position) :=
  h.follow fun r => by rcases r with ⟨v, m⟩ | ⟨_ | _ | _, m⟩ <;> exact step _

theorem afresh {t : Watched Value} {t' : Traced Value} (natives : List Native)
    (h : t.Retraces t') : (t.afresh natives).Retraces (t'.afresh natives) :=
  (step _).follow fun _ => h.follow fun _ => step _

theorem answer {t : Watched Value} {t' : Traced Value} (h : t.Retraces t')
    {next : Except Error Value → Watched Value} {next' : Except Error Value → Traced Value}
    (hnext : ∀ a, (next a).Retraces (next' a)) : (t.answer next).Retraces (t'.answer next') :=
  h.follow fun r => by
    rcases r with ⟨v, m⟩ | ⟨_ | e | _, m⟩
    · exact hnext (.ok v)
    · exact step _
    · exact hnext (.error e)
    · exact step _

theorem combine (operator : Operator) {left right : Watched Value} {left' right' : Traced Value}
    (leftAt rightAt position : Position) (hleft : left.Retraces left')
    (hright : right.Retraces right') :
    (Watched.combine operator left right leftAt rightAt position).Retraces
      (Traced.combine operator left' right' leftAt rightAt position) := by
  have htruth : (Watched.combine.rightTruth right rightAt).Retraces
      (Traced.combine.rightTruth right' rightAt) :=
    hright.bind fun v => (step (truth rightAt v)).bind fun b => pure _
  refine hleft.bind fun l => ?_
  cases operator with
  | or =>
    refine (step (truth leftAt l)).bind fun b => ?_
    cases b
    · exact htruth
    · exact pure _
  | and =>
    refine (step (truth leftAt l)).bind fun b => ?_
    cases b
    · exact pure _
    · exact htruth
  | nullCoalescing =>
    cases l.isNull
    · exact pure l
    · exact hright
  | _ => exact hright.bind fun r => step _

end Retraces

end Watched

section Trees
variable {limits : Limits} {serve : Request → Watched Value} {serve' : Request → Traced Value}

mutual

theorem retraces_statement (hserve : ∀ r, (serve r).Retraces (serve' r)) :
    (s : Statement) → (s.watch limits serve).Retraces (s.trace limits serve')
  | .bind binding name value position => by
    simp only [Statement.watch, Statement.trace]
    exact (retraces_statement hserve value).bind fun v => .step _
  | .condition bs none _ => by
    simp only [Statement.watch, Statement.trace]
    exact (retraces_branches hserve bs).bind fun found => .pure _
  | .condition bs (some otherwise) _ => by
    simp only [Statement.watch, Statement.trace]
    refine (retraces_branches hserve bs).bind fun found => ?_
    cases found with
    | none => exact retraces_statement hserve otherwise
    | some v => exact .pure v
  | .loop guard body position => by
    simp only [Statement.watch, Statement.trace]
    exact .repeatWhile position _ .null
      ((retraces_statement hserve guard).bind fun v => .step _)
      (.inChild limits position (retraces_statement hserve body))
  | .breakOut none position => by
    simp only [Statement.watch, Statement.trace]
    exact .step _
  | .breakOut (some value) position => by
    simp only [Statement.watch, Statement.trace]
    exact (retraces_statement hserve value).bind fun v => .step _
  | .expression e => by
    simp only [Statement.watch, Statement.trace]
    exact retraces_expression hserve e

theorem retraces_expression (hserve : ∀ r, (serve r).Retraces (serve' r)) :
    (e : Expression) → (e.watch limits serve).Retraces (e.trace limits serve')
  | .binary operator left right position => by
    simp only [Expression.watch, Expression.trace]
    exact .combine operator _ _ position (retraces_expression hserve left)
      (retraces_expression hserve right)
  | .negate operand position => by
    simp only [Expression.watch, Expression.trace]
    exact (retraces_expression hserve operand).bind fun v => .step _
  | .constant value _ => by
    simp only [Expression.watch, Expression.trace]
    exact .pure value.value
  | .reference name position => by
    simp only [Expression.watch, Expression.trace]
    exact .step _
  | .block b => by
    simp only [Expression.watch, Expression.trace]
    exact retraces_block hserve b
  | .lambda f => by
    simp only [Expression.watch, Expression.trace]
    exact .step _
  | .call callee arguments position => by
    simp only [Expression.watch, Expression.trace]
    refine (retraces_expression hserve callee).bind fun v => ?_
    cases v with
    | closure c => exact (retraces_arguments hserve arguments).bind fun given => hserve _
    | _ => exact .step _

theorem retraces_block (hserve : ∀ r, (serve r).Retraces (serve' r)) :
    (b : Block) → (b.watch limits serve).Retraces (b.trace limits serve')
  | ⟨ss, position⟩ => by
    simp only [Block.watch, Block.trace]
    exact .inChild limits position (retraces_statements hserve .null ss)

theorem retraces_statements (hserve : ∀ r, (serve r).Retraces (serve' r)) (last : Value) :
    (ss : List Statement) →
    (watchAll limits serve last ss).Retraces (traceAll limits serve' last ss)
  | [] => by
    simp only [watchAll, traceAll]
    exact .pure last
  | s :: rest => by
    simp only [watchAll, traceAll]
    exact (retraces_statement hserve s).bind fun v => retraces_statements hserve v rest

theorem retraces_branches (hserve : ∀ r, (serve r).Retraces (serve' r)) :
    (bs : List Branch) → (watchBranches limits serve bs).Retraces (traceBranches limits serve' bs)
  | [] => by
    simp only [watchBranches, traceBranches]
    exact .pure none
  | ⟨guard, body⟩ :: rest => by
    simp only [watchBranches, traceBranches]
    refine (retraces_statement hserve guard).bind fun v =>
      (Watched.Retraces.step _).bind fun b => ?_
    cases b
    · exact retraces_branches hserve rest
    · exact (retraces_statement hserve body).bind fun v => .pure _

theorem retraces_arguments (hserve : ∀ r, (serve r).Retraces (serve' r)) :
    (es : List Expression) →
    (watchArguments limits serve es).Retraces (traceArguments limits serve' es)
  | [] => by
    simp only [watchArguments, traceArguments]
    exact .pure []
  | e :: rest => by
    simp only [watchArguments, traceArguments]
    exact (retraces_expression hserve e).bind fun v =>
      (retraces_arguments hserve rest).bind fun vs => .pure _

end

theorem retraces_routine (hserve : ∀ r, (serve r).Retraces (serve' r)) (routine : Routine) :
    (routine.watch serve).Retraces (routine.trace serve') := by
  induction routine with
  | finish result => exact .step _
  | write line next ih => exact (Watched.Retraces.step _).bind fun _ => ih
  | keep update next ih => exact (Watched.Retraces.step _).bind ih
  | request r next ih => exact (hserve r).answer ih

theorem retraces_body (host : Host) (hserve : ∀ r, (serve r).Retraces (serve' r))
    (position : Position) (f : Function) :
    (host.bodyWatch serve position f).Retraces (host.bodyTrace serve' position f) := by
  cases f with
  | lambda f => exact (retraces_statement hserve f.body).boundary
  | native n =>
    exact .locatedAt position
      ((Watched.Retraces.step _).bind fun lookup => retraces_routine hserve _)

theorem retraces_call (host : Host) (hserve : ∀ r, (serve r).Retraces (serve' r)) (c : Closure)
    (arguments : List Value) (position : Position) (label : String) :
    (host.callWatch serve c arguments position label).Retraces
      (host.callTrace serve' c arguments position label) := by
  unfold Host.callWatch Host.callTrace
  split
  · exact .step _
  · exact (retraces_body host hserve position c.function).within _ _ _ position

end Trees

/-- **The machines of the scenes are those of the trace.** -/
theorem Host.serveWatch_retraces (host : Host) (room : Nat) (r : Request) :
    (host.serveWatch room r).Retraces (host.serveTrace room r) := by
  induction room generalizing r with
  | zero => exact fun held => Watched.Retraces.step _ (r.values ++ held)
  | succ room ih =>
    cases r with
    | call c arguments position label =>
      exact fun held => retraces_call host ih c arguments position label _
    | execute program => exact (retraces_block ih program).boundary.afresh host.natives

/-- A watched request is answered as it is without the scenes. -/
theorem Host.serveWatch_answer (host : Host) (room : Nat) (r : Request) (held : List Value)
    (m : Machine) : (host.serveWatch room r held m).1 = host.serve room r m := by
  have htrace := congrFun (host.serveWatch_retraces room r held) m
  have herase := congrFun ((Task.request r).trace_erase host room) m
  exact (congrArg Prod.fst htrace).trans herase

theorem Host.machines_serveWatch (host : Host) (room : Nat) (r : Request) (held : List Value)
    (m : Machine) : (host.serveWatch room r held m).2.map Scene.machine =
      ((Task.request r).trace host room m).2 :=
  congrArg Prod.snd (congrFun (host.serveWatch_retraces room r held) m)

end Lumen
