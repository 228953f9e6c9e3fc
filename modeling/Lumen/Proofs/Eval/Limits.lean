import Lumen.Native.Console
import Lumen.Proofs.Eval.Termination

/-! Limits only guard.

With the natives of the command line, which ask for nothing, raising the limits changes
no run that did not hit one: it ends in the same way after the same output. A run that
did hit a limit has written the beginning of what the larger limits let it write
(`run_of_larger_limits`).

The two runs go through the same machines until the tighter one meets a limit. From there
on its error can only travel outward: breaks are told apart from errors, a call may give
an error a place but not another cause, and no native catches it. The other run goes on,
and output only grows. -/
namespace Lumen
open Eval

def RuntimeCause.IsLimit (cause : RuntimeCause) : Prop :=
  cause = .recursionLimit ∨ cause = .loopLimit

/-- The error of a limit, wherever it is raised. -/
def Error.IsLimit (e : Error) : Prop :=
  ∃ position cause, e = .runtime position cause ∧ cause.IsLimit

/-- A result that is the error of a limit. -/
def Limited {α : Type} (r : Result α) : Prop := ∃ e m, r = .error (.error e) m ∧ e.IsLimit

theorem Error.IsLimit.locatedAt {e : Error} (h : e.IsLimit) (position : Position) :
    (e.locatedAt position).IsLimit := by
  obtain ⟨place, cause, rfl, hcause⟩ := h
  exact ⟨_, cause, rfl, hcause⟩

theorem Limited.withState {α : Type} {r : Result α} (h : Limited r) (m : Machine) :
    Limited (r.withState m) := by
  obtain ⟨e, m', rfl, he⟩ := h
  exact ⟨e, m, rfl, he⟩

/-- `c` is `c'` behind tighter guards: it does the same or stops at a limit, with no more
written than `c'` writes. -/
def Guards {α : Type} (c c' : Eval α) : Prop :=
  ∀ m, m.output.toList <+: (c' m).state.output.toList ∧
    (c' m = c m ∨ Limited (c m) ∧ (c m).state.output.toList <+: (c' m).state.output.toList)

namespace Guards
variable {α β : Type}

/-- A computation guards itself if it only adds to the output. -/
theorem same {c : Eval α} (h : ∀ m, m.output.toList <+: (c m).state.output.toList) :
    Guards c c := fun m => ⟨h m, .inl rfl⟩

theorem plain {c : Eval α} (h : Plain c) : Guards c c :=
  same fun m => by
    have houtput := (h m).2.1
    simp [houtput]

/-- What follows lets the error of a limit through, though it may place it. -/
theorem follow {c c' : Eval α} {next next' : Result α → Eval β} (h : Guards c c')
    (hnext : ∀ r, Guards (next r) (next' r))
    (hstop : ∀ e m, e.IsLimit → ∃ e', e'.IsLimit ∧ next (.error (.error e) m) = throw (.error e')) :
    Guards (c.follow next) (c'.follow next') := by
  intro m
  obtain ⟨hgrow, hsame⟩ := h m
  obtain ⟨hgrow', _⟩ := hnext (c' m) (c' m).state
  refine ⟨hgrow.trans hgrow', ?_⟩
  rcases hsame with heq | ⟨⟨e, m', hstopped, he⟩, hprefix⟩
  · have hrest := (hnext (c m) (c m).state).2
    simp only [Eval.follow, heq]
    exact hrest
  · obtain ⟨e', he', hthrow⟩ := hstop e m' he
    rw [hstopped] at hprefix
    simp only [Eval.follow, hstopped, hthrow]
    exact .inr ⟨⟨e', m', rfl, he'⟩, hprefix.trans hgrow'⟩

theorem bind {c c' : Eval α} {f f' : α → Eval β} (h : Guards c c')
    (hf : ∀ a, Guards (f a) (f' a)) : Guards (c >>= f) (c' >>= f') := by
  rw [bind_eq_follow, bind_eq_follow]
  refine h.follow (fun r => ?_) fun e _ he => ⟨e, he, rfl⟩
  cases r with
  | ok a m => exact hf a
  | error u m => exact same fun _ => List.prefix_rfl

/-- Where the larger limits refuse a scope, the tighter ones do too. -/
theorem within {c c' : Eval α} {limits limits' : Limits} (hd : limits.maxDepth ≤ limits'.maxDepth)
    (parent : ScopeId) (bindings : Bindings) (position : Position) (h : Guards c c') :
    Guards (Eval.within limits parent bindings position c)
      (Eval.within limits' parent bindings position c') := by
  intro m
  by_cases hfull' : limits'.maxDepth ≤ m.stack.length
  · rw [within_of_full hfull', within_of_full (Nat.le_trans hd hfull')]
    exact ⟨List.prefix_rfl, .inl rfl⟩
  · rw [within_of_room hfull', EStateM.Result.state_withState]
    obtain ⟨hgrow, hsame⟩ := h (m.enter parent bindings)
    refine ⟨hgrow, ?_⟩
    by_cases hfull : limits.maxDepth ≤ m.stack.length
    · rw [within_of_full hfull]
      exact .inr ⟨⟨_, m, rfl, position, _, rfl, .inl rfl⟩, hgrow⟩
    · rw [within_of_room hfull, EStateM.Result.state_withState]
      rcases hsame with heq | ⟨hlimit, hprefix⟩
      · exact .inl (by rw [heq])
      · exact .inr ⟨hlimit.withState _, hprefix⟩

/-- What stops at a limit guards whatever only adds to the output. -/
theorem stopped {c' : Eval α} (h : ∀ m, m.output.toList <+: (c' m).state.output.toList)
    {cause : RuntimeCause} (hcause : cause.IsLimit) (position : Position) :
    Guards (fail position cause) c' :=
  fun m => ⟨h m, .inr ⟨⟨_, m, rfl, position, cause, rfl, hcause⟩, h m⟩⟩

theorem repeatWhile {guard guard' : Eval Bool} {body body' : Eval Value} (position : Position)
    {limit limit' : Nat} (hi : limit ≤ limit') (last : Value) (hguard : Guards guard guard')
    (hbody : Guards body body') :
    Guards (Eval.repeatWhile guard body position limit last)
      (Eval.repeatWhile guard' body' position limit' last) := by
  induction limit' generalizing limit last with
  | zero =>
    obtain rfl := Nat.le_zero.mp hi
    rw [repeatWhile_eq_follow, repeatWhile_eq_follow]
    refine hguard.follow (fun r => ?_) fun e _ he => ⟨e, he, rfl⟩
    rcases r with ⟨_ | _, m⟩ | ⟨_ | _ | _, m⟩ <;> exact same fun _ => List.prefix_rfl
  | succ limit' ih =>
    -- One turn of the loop, whatever the tighter side has left.
    have hturn : ∀ n ≤ limit', Guards (body.follow (nextTurn guard body position n))
        (body'.follow (nextTurn guard' body' position limit')) := by
      intro n hn
      refine hbody.follow (fun r => ?_) fun e _ he => ⟨e, he, rfl⟩
      rcases r with ⟨v, m⟩ | ⟨_ | _ | _, m⟩
      · exact ih hn v
      all_goals exact same fun _ => List.prefix_rfl
    rw [repeatWhile_eq_follow, repeatWhile_eq_follow]
    refine hguard.follow (fun r => ?_) fun e _ he => ⟨e, he, rfl⟩
    rcases r with ⟨_ | _, m⟩ | ⟨_ | _ | _, m⟩
    case ok.true =>
      cases limit with
      | zero => exact stopped (fun m => (hturn 0 (Nat.zero_le _) m).1) (.inr rfl) position
      | succ limit => exact hturn limit (Nat.le_of_succ_le_succ hi)
    all_goals exact same fun _ => List.prefix_rfl

theorem boundary {c c' : Eval Value} (h : Guards c c') :
    Guards (Eval.boundary c) (Eval.boundary c') := by
  rw [boundary_eq_follow, boundary_eq_follow]
  refine h.follow (fun r => ?_) fun e _ he => ⟨e, he, rfl⟩
  rcases r with ⟨v, m⟩ | ⟨_ | _ | _, m⟩ <;> exact same fun _ => List.prefix_rfl

theorem locatedAt {c c' : Eval Value} (position : Position) (h : Guards c c') :
    Guards (Eval.locatedAt position c) (Eval.locatedAt position c') := by
  rw [locatedAt_eq_follow, locatedAt_eq_follow]
  refine h.follow (fun r => ?_) fun e _ he => ⟨_, he.locatedAt position, rfl⟩
  rcases r with ⟨v, m⟩ | ⟨_ | _ | _, m⟩ <;> exact same fun _ => List.prefix_rfl

end Guards

/-! ### Whole runs -/

theorem Guards.afresh {c c' : Eval Value} (natives : List Native) (h : Guards c c') :
    Guards (Eval.afresh natives c) (Eval.afresh natives c') := by
  intro m
  obtain ⟨hgrow, hsame⟩ := h (m.reset natives)
  rw [Machine.reset_output] at hgrow
  simp only [Eval.afresh, EStateM.Result.state_withState, Machine.reset_output]
  refine ⟨hgrow, ?_⟩
  rcases hsame with heq | ⟨hlimit, hprefix⟩
  · exact .inl (by rw [heq])
  · exact .inr ⟨hlimit.withState _, hprefix⟩

section Limits
variable {limits limits' : Limits} (hd : limits.maxDepth ≤ limits'.maxDepth)
  (hi : limits.maxIterations ≤ limits'.maxIterations)
include hd hi

/-- To stop earlier is kept by every construction, as long as natives ask for nothing. -/
theorem lockstep_guards :
    Lockstep limits limits' (fun _ => False) fun _ _ c t => Guards c t.erase where
  step hc := .plain hc.plain
  bind ht hf := by
    rw [Traced.erase_bind]
    exact ht.bind hf
  within parent bindings position ht := by
    rw [Traced.erase_within]
    exact ht.within hd parent bindings position
  repeatWhile position last hg hb := by
    rw [Traced.erase_repeatWhile]
    exact .repeatWhile position hi last hg hb
  boundary ht := by
    rw [Traced.erase_boundary]
    exact ht.boundary
  locatedAt position ht := by
    rw [Traced.erase_locatedAt]
    exact ht.locatedAt position
  write line := .same fun m => by
    show m.output.toList <+: (m.output.push line).toList
    rw [Array.toList_push]
    exact List.prefix_append _ _
  answer hasked := hasked.elim
  afresh _ hasked := hasked.elim

theorem Host.execute_guards {natives : List Native}
    (hasks : Host.Asks ⟨natives, limits⟩ fun _ => False) (room : Nat) (program : Block) :
    Guards (Host.serve ⟨natives, limits⟩ (room + 1) (.execute program))
      (Host.serve ⟨natives, limits'⟩ (room + 1) (.execute program)) := by
  have hblock := (lockstep_guards hd hi).task hasks (fun _ => .same fun _ => List.prefix_rfl)
    room 1 (.block program) nofun
  rw [Task.trace_erase] at hblock
  rw [Host.serve, Host.serve, Host.execute_eq, Host.execute_eq]
  exact hblock.boundary.afresh natives

end Limits

/-! ### Runs of a source text -/

/-- How a result of the evaluator is told. -/
def Outcome.ofResult : Result Value → Outcome
  | .ok v _ => .value v
  | .error (.error e) _ => .error e
  | .error (.breakOut _ position) _ => .error (.runtime position .strayBreak)
  | .error .exhausted _ => .exhausted

/-- What an outcome hands to the host. -/
def Outcome.values : Outcome → List Value
  | value v => [v]
  | error _ => []
  | exhausted => []

/-- The error that an outcome tells of. -/
def Outcome.error? : Outcome → Option Error
  | .error e => some e
  | _ => none

theorem Outcome.eq_error {outcome : Outcome} {e : Error} (h : outcome.error? = some e) :
    outcome = .error e := by
  cases outcome with
  | error e' => exact congrArg error (Option.some.inj h)
  | _ => cases h

/-- The outcome is an error in the words of one of the two limits. -/
def Outcome.IsLimit : Outcome → Prop
  | .error e => e.message = RuntimeCause.recursionLimit.message ∨
    e.message = RuntimeCause.loopLimit.message
  | _ => False

instance : DecidablePred Outcome.IsLimit
  | .error e => inferInstanceAs (Decidable (e.message = _ ∨ e.message = _))
  | .value _ | .exhausted => inferInstanceAs (Decidable False)

theorem Limited.outcome {r : Result Value} (h : Limited r) : (Outcome.ofResult r).IsLimit := by
  obtain ⟨_, m, rfl, position, cause, rfl, rfl | rfl⟩ := h
  · exact .inl rfl
  · exact .inr rfl

theorem Session.execute_eq (s : Session) (program : Block) :
    s.execute program =
      let r := s.host.serve s.host.room (.execute program) s.machine
      (Outcome.ofResult r, { s with machine := r.state }) := by
  simp only [execute, serve]
  rcases s.host.serve s.host.room (.execute program) s.machine with
    ⟨v, m⟩ | ⟨_ | _ | _, m⟩ <;> rfl

theorem run_eq (host : Host) (source : String) :
    run host source = match parse source with
      | .ok program =>
        let r := host.serve host.room (.execute program) (Machine.empty.reset host.natives)
        (Outcome.ofResult r, r.state.output.toList)
      | .error e => (.error e, (Machine.empty.reset host.natives).output.toList) := by
  unfold run Session.run
  cases parse source with
  | error e => rfl
  | ok program =>
    simp only [Session.execute_eq]
    rfl

theorem Native.console_asks (limits : Limits) (Asked : Request → Prop) :
    Host.Asks ⟨Native.console, limits⟩ Asked := by
  intro native hnative lookup
  simp only [Native.console, List.mem_cons, List.not_mem_nil, or_false] at hnative
  rcases hnative with rfl | rfl <;> trivial

/-- **Limits only guard.** With the natives of the command line, a run that does not end
at a limit is the same run under larger limits, in its outcome and in its output; and
what a run has written that ends at a limit is the beginning of what it writes under
larger ones. -/
theorem run_of_larger_limits (source : String) {limits limits' : Limits}
    (hd : limits.maxDepth ≤ limits'.maxDepth) (hi : limits.maxIterations ≤ limits'.maxIterations) :
    (¬(run ⟨Native.console, limits⟩ source).1.IsLimit →
      run ⟨Native.console, limits'⟩ source = run ⟨Native.console, limits⟩ source) ∧
    ((run ⟨Native.console, limits⟩ source).1.IsLimit →
      (run ⟨Native.console, limits⟩ source).2 <+: (run ⟨Native.console, limits'⟩ source).2) := by
  rw [run_eq, run_eq]
  cases parse source with
  | error e => exact ⟨fun _ => rfl, fun _ => List.prefix_rfl⟩
  | ok program =>
    let host : Host := ⟨Native.console, limits⟩
    let host' : Host := ⟨Native.console, limits'⟩
    let m := Machine.empty.reset Native.console
    -- The tighter run may as well use the larger room.
    have hroom : host.serve host'.room (.execute program) m =
        host.serve host.room (.execute program) m :=
      (Task.run_room (Native.console_asks limits _) host.limit_lt_room
        (Nat.lt_of_le_of_lt (Nat.succ_le_succ hd) host'.limit_lt_room)
        (.request (.execute program)) m).1
    obtain ⟨room, hsucc⟩ : ∃ n, host'.room = n + 1 := ⟨_, rfl⟩
    have hguards := (Host.execute_guards hd hi (Native.console_asks limits _) room program m).2
    rw [← hsucc, hroom] at hguards
    rcases hguards with heq | ⟨hlimit, hprefix⟩
    · dsimp only
      rw [heq]
      exact ⟨fun _ => rfl, fun _ => List.prefix_rfl⟩
    · exact ⟨fun h => absurd hlimit.outcome h, fun _ => hprefix⟩

/-- A loop that breaks in its first iteration runs the same under all limits that allow
for one, and one that does not break has written two lines when a limit of two stops it. -/
theorem run_of_larger_limits_loops :
    run ⟨Native.console, {}⟩ "loop true break print(1);" =
      run ⟨Native.console, ⟨5, 2⟩⟩ "loop true break print(1);" ∧
    [⟨.standard, "1"⟩, ⟨.standard, "1"⟩] <+:
      (run ⟨Native.console, {}⟩ "loop true print(1);").2 := by
  have hlines : (run ⟨Native.console, ⟨5, 2⟩⟩ "loop true print(1);").2 =
      [⟨.standard, "1"⟩, ⟨.standard, "1"⟩] := by decide +kernel
  refine ⟨(run_of_larger_limits _ (by decide) (by decide)).1 (by decide +kernel), ?_⟩
  rw [← hlines]
  exact (run_of_larger_limits _ (by decide) (by decide)).2 (by decide +kernel)

end Lumen
