import Lumen.Proofs.Eval.Limits
import Lumen.Proofs.Eval.Stack

/-! Natives that execute programs.

To execute a program replaces the whole stack by a new root, before the program and once more
behind it. A native that does so in the middle of a call has the scopes of its callers replaced,
and its own with them; the call then leaves the one scope that it finds. Whatever an evaluation
does, it gives its stack back or leaves at most one scope on it (`stackRule_reset`), so behind such
a call no scope is active, and none of the names that the caller sees is found any more
(`call_after_reentry`). -/
namespace Lumen
open Eval

/-- Whether a native that follows its routine executes a program on its way. -/
inductive Routine.Reenters (serve : Request → Eval Value) : Routine → Machine → Prop
  | execute (program : Block) (next : Except Error Value → Routine) (m : Machine) :
    Reenters serve (.request (.execute program) next) m
  | write {line : Line} {next : Routine} {m : Machine} :
    Reenters serve next { m with output := m.output.push line } → Reenters serve (.write line next) m
  | keep {update : List Value → List Value} {next : List Value → Routine} {m : Machine} :
    Reenters serve (next m.kept) { m with kept := update m.kept } →
    Reenters serve (.keep update next) m
  | answered {r : Request} {next : Except Error Value → Routine} {v : Value} {m m' : Machine} :
    serve r m = .ok v m' → Reenters serve (next (.ok v)) m' → Reenters serve (.request r next) m
  | failed {r : Request} {next : Except Error Value → Routine} {e : Error} {m m' : Machine} :
    serve r m = .error (.error e) m' → Reenters serve (next (.error e)) m' →
    Reenters serve (.request r next) m

/-! ### What is left of a stack -/

/-- Any natives: a stack is given back, or at most one scope is left on it. -/
theorem stackRule_reset (limits : Limits) :
    StackRule limits (fun _ => True) fun m m' => m'.stack = m.stack ∨ m'.stack.length ≤ 1 where
  same _ h := .inl h
  trans h h' := by
    obtain h' | h' := h'
    · rw [h']
      exact h
    · exact .inr h'
  inside _ _ := trivial
  enter _ _ _ _ := trivial
  leave parent bindings _ h := by
    rw [Machine.stack_leave, List.length_tail]
    obtain h | h := h
    · rw [h, Machine.tail_enter]
      exact .inl rfl
    · exact .inr (Nat.le_trans (Nat.sub_le _ _) h)

/-- To answer a request gives the stack back or leaves at most one scope on it. -/
theorem Host.stack_serve (host : Host) (room : Nat) (r : Request) (m : Machine) :
    (host.serve room r m).state.stack = m.stack ∨
      (host.serve room r m).state.stack.length ≤ 1 := by
  have h := stackRule_reset host.limits
  have hreset : ∀ (natives : List Native) (m : Machine), (m.reset natives).stack.length ≤ 1 :=
    fun natives m => Nat.le_of_eq (m.length_reset_stack natives)
  have hlockstep : Lockstep host.limits host.limits (fun _ => True) _ :=
    h.lockstep fun _ _ natives m _ => ⟨trivial, fun m' => .inr (hreset natives m')⟩
  have hkeeps := hlockstep.task host.asks_all (fun _ => h.untouched fun _ => rfl) room 0 (.request r)
    fun _ _ => .inr trivial
  have hkept := (hkeeps m trivial).1
  rw [Task.trace_erase] at hkept
  exact hkept

/-- To execute a program leaves one scope, if there is room for it. -/
theorem Host.stack_execute (host : Host) (room : Nat) (program : Block) (m : Machine) :
    (host.serve (room + 1) (.execute program) m).state.stack.length = 1 := by
  rw [Host.serve, Host.execute_eq, Eval.afresh, EStateM.Result.state_withState,
    Machine.length_reset_stack]

/-! ### Routines -/

section Routines
variable {host : Host} {room : Nat} {routine : Routine} {v : Value} {m m' : Machine}

/-- A native that finishes after a request goes on with the machine that the request leaves. -/
theorem Routine.run_after_request {serve : Request → Eval Value} {r : Request}
    {next : Except Error Value → Routine} (h : (request r next).run serve m = .ok v m') :
    ∃ answer, (next answer).run serve (serve r m).state = .ok v m' := by
  simp only [Routine.run] at h
  split at h
  · next w m₁ hr => exact ⟨.ok w, by rw [hr]; exact h⟩
  · next e m₁ hr => exact ⟨.error e, by rw [hr]; exact h⟩
  · cases h

/-- Where at most one scope is active, a native that finishes leaves it at that. -/
theorem Routine.stack_run (h : routine.run (host.serve room) m = .ok v m')
    (hm : m.stack.length ≤ 1) : m'.stack.length ≤ 1 := by
  induction routine generalizing m with
  | finish result =>
    cases result with
    | ok a => cases h; exact hm
    | error e => cases h
  | write line next ih => exact ih h hm
  | keep update next ih => exact ih m.kept h hm
  | request r next ih =>
    obtain ⟨answer, hnext⟩ := Routine.run_after_request h
    apply ih answer hnext
    obtain hsame | hone := host.stack_serve room r m
    · rw [hsame]
      exact hm
    · exact hone

/-- A native that executes a program on its way has at most one scope active when it finishes. -/
theorem Routine.Reenters.stack_run (hreenters : routine.Reenters (host.serve room) m)
    (h : routine.run (host.serve room) m = .ok v m') : m'.stack.length ≤ 1 := by
  induction hreenters with
  | execute program next m =>
    cases room with
    | zero => cases h
    | succ room =>
      obtain ⟨answer, hnext⟩ := Routine.run_after_request h
      exact Routine.stack_run hnext (Nat.le_of_eq (host.stack_execute room program m))
  | write _ ih => exact ih h
  | keep _ ih => exact ih h
  | answered hr _ ih =>
    simp only [Routine.run, hr] at h
    exact ih h
  | failed hr _ ih =>
    simp only [Routine.run, hr] at h
    exact ih h

end Routines

/-! ### Calls -/

/-- With no scope active, no name is found. -/
theorem Eval.lookup_of_no_scope {m : Machine} (h : m.stack = []) (name : String)
    (position : Position) : lookup name position m =
      .error (.error (.runtime position (.undefined name))) { m with store := m.store.root.2 } := by
  have hcurrent : current m = .ok m.store.root.1 { m with store := m.store.root.2 } := by
    simp only [current, h]
  have hnone : m.store.root.2.lookup m.store.root.1 name = none := by
    rw [Store.lookup]
    simp [Store.root, Store.add, Bindings.find?]
  have hget : ∀ m : Machine, (get : Eval Machine) m = .ok m m := fun _ => rfl
  simp only [lookup, bind, EStateM.bind, hcurrent, hget, hnone]
  rfl

/-- The value that a name has as seen from the current scope. -/
def Machine.sees (m : Machine) (name : String) : Option Value :=
  m.stack.head?.bind (m.store.lookup · name)

/-- The machine in the scope of a call. -/
def Machine.called (c : Closure) (arguments : List Value) (m : Machine) : Machine :=
  m.enter c.captured (.ofArguments c.parameters arguments)

section Calls
variable {host : Host} {room : Nat} {c : Closure} {n : NativeRef} {arguments : List Value}
  {position : Position} {label : String} {m m' : Machine} {v : Value}

/-- A call of a native that gives a value: the routine has run in a scope of its own, and the call
leaves whatever scope the routine has left on top. -/
theorem Host.call_native (hn : c.function = .native n)
    (h : host.serve (room + 1) (.call c arguments position label) m = .ok v m') :
    ∃ m₁, (host.routine n (m.called c arguments).sees).run (host.serve room)
        (m.called c arguments) = .ok v m₁ ∧ m' = m₁.leave := by
  rw [Host.serve, Host.call] at h
  split at h
  · cases h
  by_cases hfull : host.limits.maxDepth ≤ m.stack.length
  · rw [within_of_full hfull] at h
    cases h
  rw [within_of_room hfull, hn] at h
  have hbody : host.body (host.serve room) position (.native n) (m.called c arguments) =
      locatedAt position ((host.routine n (m.called c arguments).sees).run (host.serve room))
        (m.called c arguments) := rfl
  unfold Machine.called at hbody ⊢
  rw [hbody] at h
  unfold locatedAt at h
  generalize (host.routine n _).run (host.serve room) _ = r at h ⊢
  rcases r with ⟨w, m₁⟩ | ⟨_ | _ | _, m₁⟩
  · cases h
    exact ⟨m₁, rfl, rfl⟩
  all_goals cases h

/-- **A native that executes a program loses its callers.** Let a native execute a program while it
is called, and let the call give a value. Then no scope is active behind the call, whatever scopes
were active before it, and no name is found any more. -/
theorem call_after_reentry (hn : c.function = .native n)
    (hreenters : (host.routine n (m.called c arguments).sees).Reenters (host.serve room)
      (m.called c arguments))
    (h : host.serve (room + 1) (.call c arguments position label) m = .ok v m') :
    m'.stack = [] ∧ ∀ name p, m'.sees name = none ∧
      ∃ m'', lookup name p m' = .error (.error (.runtime p (.undefined name))) m'' := by
  obtain ⟨m₁, hrun, rfl⟩ := Host.call_native hn h
  have hlength := hreenters.stack_run hrun
  have hnone : m₁.leave.stack = [] := by
    rw [Machine.stack_leave, ← List.length_eq_zero_iff, List.length_tail]
    omega
  refine ⟨hnone, fun name p => ⟨?_, _, lookup_of_no_scope hnone name p⟩⟩
  rw [Machine.sees, hnone]
  rfl

end Calls

/-- Whether an evaluation has a value. -/
def Eval.Result.isOk {α : Type} : Result α → Bool
  | .ok _ _ => true
  | .error _ _ => false

/-- A host whose only native executes programs. -/
def evaluatingHost : Host := ⟨[Native.eval], {}⟩

/-- A caller that sees a name, calls the native and does not see the name any more. -/
theorem call_after_reentry_eval :
    let caller := (Machine.empty.reset evaluatingHost.natives)
    let m := { caller with store := caller.store.declare 0 "x" (.integer 1) }
    let eval : Closure := ⟨0, .native ⟨some 0, "eval", ["source"]⟩, 1⟩
    (m.sees "x").isSome ∧ ∃ v m',
      evaluatingHost.serve 2 (.call eval [.text "2;"] ⟨1, 8⟩ "eval") m = .ok v m' ∧
        m'.stack = [] ∧ m'.sees "x" = none := by
  intro caller m eval
  have hvisible : (m.sees "x").isSome := by decide +kernel
  have hsource : (Native.argument (m.called eval [.text "2;"]).sees "source").display = "2;" := by
    decide +kernel
  have hreenters : (evaluatingHost.routine ⟨some 0, "eval", ["source"]⟩
      (m.called eval [.text "2;"]).sees).Reenters (evaluatingHost.serve 1)
        (m.called eval [.text "2;"]) := by
    show (Native.eval.body (m.called eval [.text "2;"]).sees).Reenters _ _
    simp only [Native.eval, hsource]
    have hparse : (parse "2;").isOk := by decide +kernel
    cases hprogram : parse "2;" with
    | ok program => exact .execute program _ _
    | error e =>
      rw [hprogram] at hparse
      cases hparse
  have hends : Result.isOk (evaluatingHost.serve 2 (.call eval [.text "2;"] ⟨1, 8⟩ "eval") m) := by
    decide +kernel
  cases hcall : evaluatingHost.serve 2 (.call eval [.text "2;"] ⟨1, 8⟩ "eval") m with
  | ok v m' =>
    obtain ⟨hstack, hnames⟩ := call_after_reentry rfl hreenters hcall
    exact ⟨hvisible, v, m', rfl, hstack, (hnames "x" ⟨1, 21⟩).1⟩
  | error u m' =>
    rw [hcall] at hends
    cases hends

/-- A program that loses its variable behind the call, though the call itself goes well. -/
theorem reentry_loses_variable :
    (run ⟨Native.workbench, {}⟩ "x = 1; eval(\"2;\");").1.error? = none ∧
      (run ⟨Native.workbench, {}⟩ "x = 1; eval(\"2;\") + x;").1.error? =
        some (.runtime ⟨1, 21⟩ (.undefined "x")) := by
  decide +kernel

end Lumen
