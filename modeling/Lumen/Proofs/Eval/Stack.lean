import Lumen.Native.Workbench
import Lumen.Proofs.Eval.Lockstep

/-! The stack of active scopes during an evaluation.

Scopes are entered and left in matching pairs. If natives use the interpreter only to
call closures, the stack after an evaluation is the stack before it, scope by scope,
whether the evaluation ends with a value, a break or an error; and at every point in
between, some scope is active and no more of them than the depth limit allows
(`stack_discipline`). A native that executes a program replaces the stack, but never by
one that is too deep.

Both facts have one shape: as long as machines are `Inside` some bounds, an evaluation
ends in a machine that it has `Kept` in a sense, and passes through machines inside the
bounds only. `StackRule` says what that takes. -/
namespace Lumen
open Eval

/-! ### Rules about the stack -/

/-- Bounds on machines and what is kept of a machine, such that leaving the stack alone
keeps it, and so does entering a scope, where the limit allows it, and leaving it. -/
structure StackRule (limits : Limits) (Inside : Machine → Prop)
    (Kept : Machine → Machine → Prop) : Prop where
  same {m m' : Machine} : Inside m → m'.stack = m.stack → Kept m m'
  trans {m m' m'' : Machine} : Kept m m' → Kept m' m'' → Kept m m''
  inside {m m' : Machine} : Inside m → Kept m m' → Inside m'
  enter {m : Machine} (parent : ScopeId) (bindings : Bindings) : Inside m →
    m.stack.length < limits.maxDepth → Inside (m.enter parent bindings)
  leave {m m' : Machine} (parent : ScopeId) (bindings : Bindings) : Inside m →
    Kept (m.enter parent bindings) m' → Kept m m'.leave

/-- From a machine inside the bounds, a computation passes through such machines only and
ends in one that is kept. -/
def Traced.Keeps {α : Type} (Inside : Machine → Prop) (Kept : Machine → Machine → Prop)
    (t : Traced α) : Prop :=
  ∀ m, Inside m → Kept m (t.erase m).state ∧ ∀ m' ∈ (t m).2, Inside m'

namespace StackRule
variable {limits : Limits} {Inside : Machine → Prop} {Kept : Machine → Machine → Prop}
  (h : StackRule limits Inside Kept) {α β : Type}
include h

theorem step {c : Eval α} (hc : ∀ m, Inside m → Kept m (c m).state) :
    (Traced.step c).Keeps Inside Kept := by
  intro m hm
  refine ⟨hc m hm, fun m' hmem => ?_⟩
  simp only [Traced.step, List.mem_cons, List.not_mem_nil, or_false] at hmem
  rcases hmem with rfl | rfl
  · exact hm
  · exact h.inside hm (hc m hm)

theorem untouched {c : Eval α} (hc : ∀ m, (c m).state.stack = m.stack) :
    (Traced.step c).Keeps Inside Kept :=
  h.step fun m hm => h.same hm (hc m)

theorem follow {t : Traced α} {next : Result α → Traced β} (ht : t.Keeps Inside Kept)
    (hnext : ∀ r, (next r).Keeps Inside Kept) : (t.follow next).Keeps Inside Kept := by
  intro m hm
  obtain ⟨hkept, hpassed⟩ := ht m hm
  obtain ⟨hkept', hpassed'⟩ := hnext (t.erase m) _ (h.inside hm hkept)
  refine ⟨h.trans hkept hkept', fun m' hmem => ?_⟩
  rcases List.mem_append.mp hmem with hmem | hmem
  · exact hpassed m' hmem
  · exact hpassed' m' hmem

/-- What is passed on the way in, inside, and on the way out again. -/
theorem bracket {t : Traced α} {m entered left : Machine} (ht : t.Keeps Inside Kept)
    (hm : Inside m) (hin : Inside entered) (hleft : Kept m left) :
    ∀ m' ∈ m :: entered :: ((t entered).2 ++ [(t.erase entered).state, left]), Inside m' := by
  intro m' hmem
  obtain ⟨hkept, hpassed⟩ := ht entered hin
  simp only [List.mem_cons, List.mem_append, List.not_mem_nil, or_false] at hmem
  rcases hmem with rfl | rfl | hmem | rfl | rfl
  · exact hm
  · exact hin
  · exact hpassed m' hmem
  · exact h.inside hin hkept
  · exact h.inside hm hleft

theorem within {t : Traced α} (parent : ScopeId) (bindings : Bindings) (position : Position)
    (ht : t.Keeps Inside Kept) :
    (Traced.within limits parent bindings position t).Keeps Inside Kept := by
  intro m hm
  by_cases hfull : limits.maxDepth ≤ m.stack.length
  · simp only [Traced.erase, Traced.within, hfull, if_true]
    exact h.untouched (fun _ => rfl) m hm
  · have hin := h.enter parent bindings hm (Nat.lt_of_not_le hfull)
    have hleft := h.leave parent bindings hm (ht (m.enter parent bindings) hin).1
    rw [Traced.erase_within, within_of_room hfull, Traced.within_passed hfull,
      EStateM.Result.state_withState]
    exact ⟨hleft, h.bracket ht hm hin hleft⟩

theorem repeatWhile {guard : Traced Bool} {body : Traced Value} (position : Position)
    (limit : Nat) (last : Value) (hguard : guard.Keeps Inside Kept)
    (hbody : body.Keeps Inside Kept) :
    (Traced.repeatWhile guard body position limit last).Keeps Inside Kept := by
  have hstop : ∀ (c : Eval Value), (∀ m, (c m).state.stack = m.stack) →
      (Traced.step c).Keeps Inside Kept := fun _ => h.untouched
  induction limit generalizing last with
  | zero =>
    rw [Traced.repeatWhile]
    refine h.follow hguard fun r => ?_
    rcases r with ⟨_ | _, m'⟩ | ⟨_ | _ | _, m'⟩ <;> exact hstop _ fun _ => rfl
  | succ limit ih =>
    rw [Traced.repeatWhile]
    refine h.follow hguard fun r => ?_
    rcases r with ⟨_ | _, m'⟩ | ⟨_ | _ | _, m'⟩
    case ok.true =>
      refine h.follow hbody fun r => ?_
      rcases r with ⟨v, m'⟩ | ⟨_ | _ | _, m'⟩
      · exact ih v
      all_goals exact hstop _ fun _ => rfl
    all_goals exact hstop _ fun _ => rfl

/-- A rule about the stack is kept by the whole evaluator, and by natives that execute
programs if a reset is inside the bounds and keeps every machine. -/
theorem lockstep {Asked : Request → Prop}
    (hreset : ∀ program, Asked (.execute program) → ∀ (natives : List Native) (m : Machine),
      Inside m → Inside (m.reset natives) ∧ ∀ m' : Machine, Kept m (m'.reset natives)) :
    Lockstep limits limits Asked fun _ _ _ t => t.Keeps Inside Kept where
  step hc := h.untouched fun m => (hc.plain m).1
  bind ht hg := h.follow ht fun r => by
    cases r with
    | ok a _ => exact hg a
    | error u _ => exact h.untouched fun _ => rfl
  within parent bindings position ht := h.within parent bindings position ht
  repeatWhile position last hg hb := h.repeatWhile position _ last hg hb
  boundary ht := h.follow ht fun r => by
    rcases r with ⟨v, m'⟩ | ⟨_ | _ | _, m'⟩ <;> exact h.untouched fun _ => rfl
  locatedAt position ht := h.follow ht fun r => by
    rcases r with ⟨v, m'⟩ | ⟨_ | _ | _, m'⟩ <;> exact h.untouched fun _ => rfl
  write line := h.untouched fun _ => rfl
  answer _ ht hg := h.follow ht fun r => by
    rcases r with ⟨v, m'⟩ | ⟨_ | e | _, m'⟩
    · exact hg (.ok v)
    · exact h.untouched fun _ => rfl
    · exact hg (.error e)
    · exact h.untouched fun _ => rfl
  afresh natives hasked ht := by
    intro m hm
    obtain ⟨hin, hkeep⟩ := hreset _ hasked natives m hm
    rw [Traced.erase_afresh, Traced.afresh_passed, Eval.afresh, EStateM.Result.state_withState]
    exact ⟨hkeep _, h.bracket ht hm hin (hkeep _)⟩

end StackRule

/-! ### The two rules -/

/-- Natives that only call closures: as deep as the limit allows, and never empty. -/
theorem stackRule_same (limits : Limits) :
    StackRule limits (fun m => m.stack ≠ [] ∧ m.stack.length ≤ max 1 limits.maxDepth)
      fun m m' => m'.stack = m.stack where
  same _ h := h
  trans h h' := h'.trans h
  inside hm h := h ▸ hm
  enter parent bindings hm hlt := by
    refine ⟨List.cons_ne_nil _ _, ?_⟩
    rw [Machine.length_enter]
    omega
  leave parent bindings _ h := by
    rw [Machine.stack_leave, h, Machine.tail_enter]

/-- Any natives: as deep as the limit allows. -/
theorem stackRule_bound (limits : Limits) :
    StackRule limits (fun m => m.stack.length ≤ max 1 limits.maxDepth)
      fun _ m' => m'.stack.length ≤ max 1 limits.maxDepth where
  same hm h := h ▸ hm
  trans _ h := h
  inside _ h := h
  enter parent bindings _ hlt := by
    rw [Machine.length_enter]
    omega
  leave parent bindings _ h := by
    rw [Machine.stack_leave, List.length_tail]
    omega

/-- The depth limit bounds every stack of an evaluation. -/
theorem Task.trace_keeps_bound (host : Host) (room : Nat) (t : Task) :
    (t.trace host room).Keeps (fun m => m.stack.length ≤ max 1 host.limits.maxDepth)
      fun _ m' => m'.stack.length ≤ max 1 host.limits.maxDepth := by
  have h := stackRule_bound host.limits
  have hreset : ∀ (natives : List Native) (m : Machine),
      (m.reset natives).stack.length ≤ max 1 host.limits.maxDepth := by
    intro natives m
    rw [Machine.length_reset_stack]
    omega
  have hlockstep : Lockstep host.limits host.limits (fun _ => True) _ :=
    h.lockstep fun _ _ natives m _ => ⟨hreset natives m, fun m' => hreset natives m'⟩
  exact hlockstep.task host.asks_all (fun _ => h.untouched fun _ => rfl) room 0 t
    fun _ _ => .inr trivial

/-- Natives that only call closures leave no trace on the stack. -/
theorem Task.trace_keeps_stack (host : Host) (hasks : host.Asks Request.IsCall) (room : Nat)
    (t : Task) (ht : ∀ program, t ≠ .request (.execute program)) :
    (t.trace host room).Keeps
      (fun m => m.stack ≠ [] ∧ m.stack.length ≤ max 1 host.limits.maxDepth)
      fun m m' => m'.stack = m.stack := by
  have h := stackRule_same host.limits
  have hlockstep : Lockstep host.limits host.limits Request.IsCall _ :=
    h.lockstep fun _ hasked => hasked.elim
  refine hlockstep.task hasks (fun _ => h.untouched fun _ => rfl) room 0 t fun r hr => ?_
  cases r with
  | call => exact .inl trivial
  | execute program => exact absurd hr (ht program)

/-- **Stack discipline.** From a stack that is no deeper than allowed, an evaluation never
passes through a machine whose stack is deeper, whatever the natives do. If natives only
call closures, then from a stack that is not empty it never passes through a machine
whose stack is empty, and every statement, expression, block or call ends with exactly
the stack that it started with, however it ends. -/
theorem stack_discipline (host : Host) (room : Nat) (t : Task) (m : Machine)
    (hm : m.stack.length ≤ max 1 host.limits.maxDepth) :
    (t.trace host room m).1 = t.run host room m ∧
    (t.run host room m).state.stack.length ≤ max 1 host.limits.maxDepth ∧
    (∀ m' ∈ (t.trace host room m).2, m'.stack.length ≤ max 1 host.limits.maxDepth) ∧
    (host.Asks Request.IsCall → (∀ program, t ≠ .request (.execute program)) → m.stack ≠ [] →
      (t.run host room m).state.stack = m.stack ∧
      ∀ m' ∈ (t.trace host room m).2, 1 ≤ m'.stack.length) := by
  have herase := t.trace_erase host room
  obtain ⟨hend, hbound⟩ := t.trace_keeps_bound host room m hm
  rw [herase] at hend
  refine ⟨congrFun herase m, hend, hbound, fun hasks ht hne => ?_⟩
  obtain ⟨hsame, hinside⟩ := t.trace_keeps_stack host hasks room ht m ⟨hne, hm⟩
  rw [herase] at hsame
  exact ⟨hsame, fun m' hmem => List.length_pos_iff.mpr (hinside m' hmem).1⟩

/-! ### A native that catches what goes wrong on the stack -/

/-- A host whose only native calls a closure and catches its errors. -/
def catchingHost : Host := ⟨[Native.attempt], ⟨4, 0⟩⟩

theorem catchingHost_asks : catchingHost.Asks Request.IsCall := by
  intro native hn lookup
  obtain rfl := List.mem_singleton.mp hn
  simp only [Native.attempt, Native.callBack]
  cases Native.argument lookup "f" with
  | closure c =>
    refine ⟨trivial, fun answer => ?_⟩
    cases answer <;> trivial
  | _ => trivial

/-- The program `f = () => f(); try(f);`, where a function calls itself without end. -/
def endlessCall : Block :=
  let call := Expression.call (.reference "f" ⟨1, 11⟩) [] ⟨1, 11⟩
  let f := Expression.lambda ⟨[], .expression call, ⟨1, 5⟩⟩
  ⟨[.bind .declare "f" (.expression f) ⟨1, 1⟩,
    .expression (.call (.reference "try" ⟨1, 16⟩) [.reference "f" ⟨1, 20⟩] ⟨1, 16⟩)], ⟨1, 1⟩⟩

/-- The stack comes back when a native catches the error of a stack that is full. -/
theorem stack_discipline_endlessCall :
    let m := Machine.empty.reset catchingHost.natives
    m.stack.length ≤ max 1 catchingHost.limits.maxDepth ∧
      ((Task.block endlessCall).run catchingHost 10 m).state.stack = m.stack ∧
      ∀ m' ∈ ((Task.block endlessCall).trace catchingHost 10 m).2,
        1 ≤ m'.stack.length ∧ m'.stack.length ≤ 4 := by
  intro m
  have hm : m.stack.length ≤ max 1 catchingHost.limits.maxDepth := by decide
  obtain ⟨_, _, hbound, hsame⟩ := stack_discipline catchingHost 10 (.block endlessCall) m hm
  obtain ⟨hend, hinside⟩ := hsame catchingHost_asks nofun (by decide)
  exact ⟨hm, hend, fun m' hmem => ⟨hinside m' hmem, hbound m' hmem⟩⟩

end Lumen
