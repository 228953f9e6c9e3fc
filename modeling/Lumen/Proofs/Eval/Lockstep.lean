import Lumen.Proofs.Eval.Natives
import Lumen.Proofs.Eval.Trace

/-! Two evaluations in lockstep.

Facts about evaluations are relations between a computation and a traced one that all
constructions of the evaluator keep: single steps, one computation after another, scopes,
loops, calls, and what natives ask for. A relation of that kind is a `Lockstep`, and it
relates whatever is evaluated one way to the same evaluated the other way, even under
other limits: every tree (`Lockstep.statement`), every call (`Lockstep.call`) and every
task (`Lockstep.task`). This is the only induction over trees that such facts need. What
an evaluation keeps at all times is a relation that looks at the traced side alone, and
that a trace is the trace of the evaluation itself (`Task.trace_erase`) is one too. -/
namespace Lumen
open Eval

/-! ### Relations that the evaluator keeps -/

/-- The single steps that evaluations are made of. -/
inductive Eval.Primitive : {α : Type} → Eval α → Prop
  | pure {α : Type} (a : α) : Primitive (Pure.pure a)
  | raise {α : Type} (e : Error) : Primitive (throw (.error e) : Eval α)
  | breakOut {α : Type} (v : Value) (position : Position) :
    Primitive (throw (.breakOut v position) : Eval α)
  | current : Primitive current
  | surroundings : Primitive surroundings
  | lookup (name : String) (position : Position) : Primitive (lookup name position)
  | bindName (binding : Binding) (name : String) (v : Value) (position : Position) :
    Primitive (bindName binding name v position)
  | close (f : Function) : Primitive (close f)
  | exchange (update : List Value → List Value) : Primitive (exchange update)

/-- The evaluation ends: it has not run out of room. -/
def Eval.Ends {α : Type} : Result α → Prop
  | .error .exhausted _ => False
  | _ => True

theorem Eval.ends_withState {α : Type} {r : Result α} (h : Ends r) (m : Machine) :
    Ends (r.withState m) := by
  rcases r with ⟨a, m'⟩ | ⟨_ | _ | _, m'⟩
  · trivial
  · trivial
  · trivial
  · exact h

/-- A computation that leaves the stack and the output alone and ends. -/
def Eval.Plain {α : Type} (c : Eval α) : Prop :=
  ∀ m, (c m).state.stack = m.stack ∧ (c m).state.output = m.output ∧ Ends (c m)

namespace Eval.Plain
variable {α β : Type}

theorem pure (a : α) : Plain (Pure.pure a) := fun _ => ⟨rfl, rfl, trivial⟩

theorem raise (e : Error) : Plain (throw (.error e) : Eval α) := fun _ => ⟨rfl, rfl, trivial⟩

theorem follow {c : Eval α} {next : Result α → Eval β} (hc : Plain c)
    (hnext : ∀ r, Ends r → Plain (next r)) : Plain (c.follow next) := by
  intro m
  obtain ⟨hs, ho, he⟩ := hc m
  obtain ⟨hs', ho', he'⟩ := hnext (c m) he (c m).state
  exact ⟨hs'.trans hs, ho'.trans ho, he'⟩

/-- Whatever stops an evaluation for good, but for want of room. -/
theorem unwind {u : Unwind} {m : Machine} (h : Ends (.error u m : Result α)) :
    Plain (throw u : Eval β) := by
  intro m'
  cases u with
  | exhausted => exact h.elim
  | _ => exact ⟨rfl, rfl, trivial⟩

theorem bind {c : Eval α} {f : α → Eval β} (hc : Plain c) (hf : ∀ a, Plain (f a)) :
    Plain (c >>= f) := by
  rw [bind_eq_follow]
  refine hc.follow fun r hr => ?_
  cases r with
  | ok a m => exact hf a
  | error u m => exact unwind hr

theorem current : Plain current := by
  intro m
  unfold Eval.current
  split <;> exact ⟨rfl, rfl, trivial⟩

theorem get : Plain (MonadState.get : Eval Machine) := fun _ => ⟨rfl, rfl, trivial⟩

/-- Whatever is done to the store alone. -/
theorem updateStore (f : Machine → α × Store) :
    Plain (modifyGet fun m => ((f m).1, { m with store := (f m).2 }) : Eval α) :=
  fun _ => ⟨rfl, rfl, trivial⟩

end Eval.Plain

namespace Eval.Primitive

theorem ofExcept {α : Type} (r : Except Error α) : Primitive (Eval.ofExcept r) := by
  cases r with
  | ok a => exact pure a
  | error e => exact raise e

theorem fail {α : Type} (position : Position) (cause : RuntimeCause) :
    Primitive (Eval.fail position cause : Eval α) := raise _

theorem truth (position : Position) (v : Value) : Primitive (Eval.truth position v) := ofExcept _

theorem plain {α : Type} {c : Eval α} (h : Primitive c) : Plain c := by
  cases h with
  | pure a => exact .pure a
  | raise e => exact .raise e
  | breakOut v position => exact fun _ => ⟨rfl, rfl, trivial⟩
  | current => exact .current
  | surroundings => exact .bind .current fun id => .bind .get fun m => .pure _
  | lookup name position =>
    refine .bind .current fun id => .bind .get fun m => ?_
    cases m.store.lookup id name with
    | none => exact .raise _
    | some v => exact .pure v
  | bindName binding name v position =>
    refine .bind .current fun id => ?_
    have hchange : ∀ update, Plain (Eval.bindName.change name position update) := by
      intro update
      refine .bind (.updateStore fun m => update m.store) fun result => ?_
      cases result with
      | none => exact .raise _
      | some v => exact .pure v
    cases binding with
    | declare =>
      exact .bind (.updateStore fun m => ((), m.store.declare id name v)) fun _ => .pure v
    | assign => exact hchange _
    | nullAssign => exact hchange _
  | close f =>
    exact .bind .current fun captured _ => ⟨rfl, rfl, trivial⟩
  | exchange update => exact fun _ => ⟨rfl, rfl, trivial⟩

end Eval.Primitive

/-- A relation that the constructions of the evaluator keep, where natives make no
requests but those in `Asked`. `R d` is about computations that run with `d` scopes
active. -/
structure Lockstep (limits limits' : Limits) (Asked : Request → Prop)
    (R : Nat → {α : Type} → Eval α → Traced α → Prop) : Prop where
  step {d : Nat} {α : Type} {c : Eval α} : Primitive c → R d c (.step c)
  bind {d : Nat} {α β : Type} {c : Eval α} {t : Traced α} {f : α → Eval β}
    {g : α → Traced β} : R d c t → (∀ a, R d (f a) (g a)) → R d (c >>= f) (t >>= g)
  within {d : Nat} {α : Type} {c : Eval α} {t : Traced α} (parent : ScopeId)
    (bindings : Bindings) (position : Position) : R (d + 1) c t →
    R d (Eval.within limits parent bindings position c) (.within limits' parent bindings position t)
  repeatWhile {d : Nat} {guard : Eval Bool} {guard' : Traced Bool} {body : Eval Value}
    {body' : Traced Value} (position : Position) (last : Value) : R d guard guard' →
    R d body body' → R d (Eval.repeatWhile guard body position limits.maxIterations last)
      (.repeatWhile guard' body' position limits'.maxIterations last)
  boundary {d : Nat} {c : Eval Value} {t : Traced Value} :
    R d c t → R d (Eval.boundary c) t.boundary
  locatedAt {d : Nat} {c : Eval Value} {t : Traced Value} (position : Position) :
    R d c t → R d (Eval.locatedAt position c) (t.locatedAt position)
  write {d : Nat} (line : Line) :
    R d (modify fun m => { m with output := m.output.push line })
      (.step (modify fun m => { m with output := m.output.push line }))
  answer {d : Nat} {c : Eval Value} {t : Traced Value} {f : Except Error Value → Eval Value}
    {g : Except Error Value → Traced Value} {r : Request} : Asked r → R d c t →
    (∀ a, R d (f a) (g a)) → R d (Eval.answer c f) (t.answer g)
  afresh {d : Nat} {c : Eval Value} {t : Traced Value} {program : Block}
    (natives : List Native) : Asked (.execute program) → R 1 c t →
    R d (Eval.afresh natives c) (t.afresh natives)

namespace Lockstep
variable {limits limits' : Limits} {Asked : Request → Prop}
  {R : Nat → {α : Type} → Eval α → Traced α → Prop} (h : Lockstep limits limits' Asked R)
include h

theorem pure {d : Nat} {α : Type} (a : α) : R d (Pure.pure a) (Pure.pure a) := h.step (.pure a)

theorem inChild {d : Nat} {α : Type} {c : Eval α} {t : Traced α} (position : Position)
    (hc : R (d + 1) c t) : R d (Eval.inChild limits position c) (.inChild limits' position t) :=
  h.bind (h.step .current) fun id => h.within id [] position hc

theorem combine {d : Nat} {left right : Eval Value} {left' right' : Traced Value}
    (operator : Operator) (leftAt rightAt position : Position) (hl : R d left left')
    (hr : R d right right') : R d (Eval.combine operator left right leftAt rightAt position)
      (.combine operator left' right' leftAt rightAt position) := by
  have hright : R d (Eval.combine.rightTruth right rightAt)
      (Traced.combine.rightTruth right' rightAt) :=
    h.bind hr fun v => h.bind (h.step (.truth rightAt v)) fun _ => h.pure _
  refine h.bind hl fun l => ?_
  have htruth := h.step (d := d) (.truth leftAt l)
  cases operator with
  | or =>
    refine h.bind htruth fun b => ?_
    cases b
    · exact hright
    · exact h.pure _
  | and =>
    refine h.bind htruth fun b => ?_
    cases b
    · exact h.pure _
    · exact hright
  | nullCoalescing =>
    cases l.isNull
    · exact h.pure l
    · exact hr
  | _ => exact h.bind hr fun r => h.step (.ofExcept _)

section Trees
variable {serve : Request → Eval Value} {serve' : Request → Traced Value}

mutual

/-- **Related computations serve related trees**: whatever the constructions of the
evaluator keep relates the two evaluations of a tree as soon as it relates the answers
to requests. -/
theorem statement (hserve : ∀ d r, r.IsCall → R d (serve r) (serve' r)) (d : Nat) :
    (s : Statement) → R d (s.exec limits serve) (s.trace limits' serve')
  | .bind binding name value position => by
    simp only [Statement.exec, Statement.trace]
    exact h.bind (statement hserve d value) fun v => h.step (.bindName binding name v position)
  | .condition bs none _ => by
    simp only [Statement.exec, Statement.trace]
    exact h.bind (branches hserve d bs) fun v => h.pure _
  | .condition bs (some otherwise) _ => by
    simp only [Statement.exec, Statement.trace]
    refine h.bind (branches hserve d bs) fun v => ?_
    cases v with
    | none => exact statement hserve d otherwise
    | some v => exact h.pure v
  | .loop guard body position => by
    simp only [Statement.exec, Statement.trace]
    exact h.repeatWhile position .null
      (h.bind (statement hserve d guard) fun v => h.step (.truth guard.position v))
      (h.inChild position (statement hserve (d + 1) body))
  | .breakOut none position => by
    simp only [Statement.exec, Statement.trace]
    exact h.step (.breakOut .null position)
  | .breakOut (some value) position => by
    simp only [Statement.exec, Statement.trace]
    exact h.bind (statement hserve d value) fun v => h.step (.breakOut v position)
  | .expression e => by
    simp only [Statement.exec, Statement.trace]
    exact expression hserve d e

theorem expression (hserve : ∀ d r, r.IsCall → R d (serve r) (serve' r)) (d : Nat) :
    (e : Expression) → R d (e.eval limits serve) (e.trace limits' serve')
  | .binary operator left right position => by
    simp only [Expression.eval, Expression.trace]
    exact h.combine operator _ _ position (expression hserve d left) (expression hserve d right)
  | .negate operand position => by
    simp only [Expression.eval, Expression.trace]
    exact h.bind (expression hserve d operand) fun v => h.step (.ofExcept _)
  | .constant value _ => by
    simp only [Expression.eval, Expression.trace]
    exact h.pure value.value
  | .reference name position => by
    simp only [Expression.eval, Expression.trace]
    exact h.step (.lookup name position)
  | .block b => by
    simp only [Expression.eval, Expression.trace]
    exact block hserve d b
  | .lambda f => by
    simp only [Expression.eval, Expression.trace]
    exact h.step (.close (.lambda f))
  | .call callee given position => by
    simp only [Expression.eval, Expression.trace]
    refine h.bind (expression hserve d callee) fun v => ?_
    cases v with
    | closure c => exact h.bind (arguments hserve d given) fun vs => hserve d _ trivial
    | _ => exact h.step (.fail position _)

theorem block (hserve : ∀ d r, r.IsCall → R d (serve r) (serve' r)) (d : Nat) :
    (b : Block) → R d (b.eval limits serve) (b.trace limits' serve')
  | ⟨ss, position⟩ => by
    simp only [Block.eval, Block.trace]
    exact h.inChild position (statements hserve (d + 1) .null ss)

theorem statements (hserve : ∀ d r, r.IsCall → R d (serve r) (serve' r)) (d : Nat) (last : Value) :
    (ss : List Statement) → R d (execAll limits serve last ss) (traceAll limits' serve' last ss)
  | [] => by
    simp only [execAll, traceAll]
    exact h.pure last
  | s :: rest => by
    simp only [execAll, traceAll]
    exact h.bind (statement hserve d s) fun v => statements hserve d v rest

theorem branches (hserve : ∀ d r, r.IsCall → R d (serve r) (serve' r)) (d : Nat) :
    (bs : List Branch) → R d (execBranches limits serve bs) (traceBranches limits' serve' bs)
  | [] => by
    simp only [execBranches, traceBranches]
    exact h.pure none
  | ⟨guard, body⟩ :: rest => by
    simp only [execBranches, traceBranches]
    refine h.bind (statement hserve d guard) fun v =>
      h.bind (h.step (.truth guard.position v)) fun b => ?_
    cases b
    · exact branches hserve d rest
    · exact h.bind (statement hserve d body) fun v => h.pure _

theorem arguments (hserve : ∀ d r, r.IsCall → R d (serve r) (serve' r)) (d : Nat) :
    (es : List Expression) → R d (evalArguments limits serve es) (traceArguments limits' serve' es)
  | [] => by
    simp only [evalArguments, traceArguments]
    exact h.pure []
  | e :: rest => by
    simp only [evalArguments, traceArguments]
    exact h.bind (expression hserve d e) fun v => h.bind (arguments hserve d rest) fun vs => h.pure _

end

end Trees

/-! ### Calls and tasks -/

theorem routine {serve : Request → Eval Value} {serve' : Request → Traced Value}
    (hserve : ∀ d r, Asked r → R d (serve r) (serve' r)) (d : Nat) (routine : Routine)
    (hasks : routine.Asks Asked) : R d (routine.run serve) (routine.trace serve') := by
  induction routine with
  | finish result => exact h.step (.ofExcept result)
  | write line next ih => exact h.bind (h.write line) fun _ => ih hasks
  | keep update next ih => exact h.bind (h.step (.exchange update)) fun kept => ih kept (hasks kept)
  | request r next ih =>
    rw [Routine.run_request]
    exact h.answer hasks.1 (hserve d r hasks.1) fun a => ih a (hasks.2 a)

/-- What a function does is related if the answers to the requests inside it are. -/
theorem function {natives : List Native} {serve : Request → Eval Value}
    {serve' : Request → Traced Value}
    (hserve : ∀ d r, r.IsCall ∨ Asked r → R d (serve r) (serve' r))
    (hasks : Host.Asks ⟨natives, limits⟩ Asked) (d : Nat) (position : Position) (f : Function) :
    R d (Host.body ⟨natives, limits⟩ serve position f)
      (Host.bodyTrace ⟨natives, limits'⟩ serve' position f) := by
  cases f with
  | lambda f => exact h.boundary (h.statement (fun d r hr => hserve d r (.inl hr)) d f.body)
  | native n =>
    rw [Host.body_native]
    exact h.locatedAt position (h.bind (h.step .surroundings) fun lookup =>
      h.routine (fun d r hr => hserve d r (.inr hr)) d _ (hasks.routine n lookup))

theorem call {natives : List Native} {serve : Request → Eval Value}
    {serve' : Request → Traced Value}
    (hserve : ∀ d r, r.IsCall ∨ Asked r → R d (serve r) (serve' r))
    (hasks : Host.Asks ⟨natives, limits⟩ Asked) (d : Nat) (c : Closure)
    (arguments : List Value) (position : Position) (label : String) :
    R d (Host.call ⟨natives, limits⟩ serve c arguments position label)
      (Host.callTrace ⟨natives, limits'⟩ serve' c arguments position label) := by
  unfold Host.call Host.callTrace
  split
  · exact h.step (.fail position _)
  · exact h.within _ _ position (h.function hserve hasks (d + 1) position c.function)

theorem serve {natives : List Native} (hasks : Host.Asks ⟨natives, limits⟩ Asked)
    (hout : ∀ d, R d (throw .exhausted : Eval Value) (.step (throw .exhausted))) (room d : Nat)
    (r : Request) (hr : r.IsCall ∨ Asked r) :
    R d (Host.serve ⟨natives, limits⟩ room r) (Host.serveTrace ⟨natives, limits'⟩ room r) := by
  induction room generalizing d r with
  | zero => exact hout d
  | succ room ih =>
    cases r with
    | call c arguments position label => exact h.call ih hasks d c arguments position label
    | execute program =>
      have hprogram := h.boundary (h.block (fun d r hr => ih d r (.inl hr)) 1 program)
      rw [Host.serve, Host.execute_eq]
      exact h.afresh natives (hr.resolve_left id) hprogram

/-- **What every construction of the evaluator keeps, every evaluation keeps.** -/
theorem task {natives : List Native} (hasks : Host.Asks ⟨natives, limits⟩ Asked)
    (hout : ∀ d, R d (throw .exhausted : Eval Value) (.step (throw .exhausted))) (room d : Nat)
    (t : Task) (ht : ∀ r, t = .request r → r.IsCall ∨ Asked r) :
    R d (t.run ⟨natives, limits⟩ room) (t.trace ⟨natives, limits'⟩ room) := by
  have hcalls := fun d r hr => h.serve hasks hout room d r (.inl hr)
  cases t with
  | statement s => exact h.statement hcalls d s
  | expression e => exact h.expression hcalls d e
  | block b => exact h.block hcalls d b
  | request r => exact h.serve hasks hout room d r (ht r rfl)

end Lockstep

/-! ### Forgetting the trace of an evaluation -/

/-- That a traced computation, once its trace is forgotten, is the computation itself is
kept by every construction. -/
theorem lockstep_erase (limits : Limits) :
    Lockstep limits limits (fun _ => True) fun _ _ c t => t.erase = c where
  step _ := rfl
  bind hc hf := by
    rw [Traced.erase_bind, hc, funext hf]
  within parent bindings position hc := by
    rw [Traced.erase_within, hc]
  repeatWhile position last hg hb := by
    rw [Traced.erase_repeatWhile, hg, hb]
  boundary hc := by
    rw [Traced.erase_boundary, hc]
  locatedAt position hc := by
    rw [Traced.erase_locatedAt, hc]
  write line := rfl
  answer _ hc hf := by
    rw [Traced.erase_answer, hc, funext hf]
  afresh natives _ hc := by
    rw [Traced.erase_afresh, hc]

/-- **A trace is the trace of the evaluation itself.** -/
theorem Task.trace_erase (host : Host) (room : Nat) (t : Task) :
    (t.trace host room).erase = t.run host room :=
  (lockstep_erase host.limits).task host.asks_all (fun _ => rfl) room 0 t fun _ _ => .inr trivial

end Lumen
