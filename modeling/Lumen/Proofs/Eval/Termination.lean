import Lumen.Proofs.Eval.Stack
import Lumen.Session

/-! Every evaluation ends.

The evaluation of a tree is a recursion on the tree, and a loop on the iterations that it
has left; a call leaves the tree for the body of a closure, and only the depth limit
bounds how often that happens. So the evaluator is given room for nested requests. If
natives only call closures, room for one request more than the limit allows is enough:
the evaluation never runs out of room, and more room changes nothing
(`evaluation_ends`).

The measure is the room together with the scopes that are active. A call that is not
refused uses up one of the former and adds one to the latter, so their sum stays above
the limit; and every evaluation ends with as many scopes active as before. -/
namespace Lumen
open Eval

/-- With `d` scopes active, `c` and `c'` do the same, and end with as many active. -/
def Settles {α : Type} (d : Nat) (c c' : Eval α) : Prop :=
  ∀ m, m.stack.length = d → c' m = c m ∧ Ends (c m) ∧ (c m).state.stack.length = d

namespace Settles
variable {α β : Type} {d : Nat}

theorem plain {c : Eval α} (h : Plain c) : Settles d c c := by
  intro m hm
  obtain ⟨hs, _, he⟩ := h m
  exact ⟨rfl, he, by rw [hs, hm]⟩

theorem follow {c c' : Eval α} {next next' : Result α → Eval β} (h : Settles d c c')
    (hnext : ∀ r, Ends r → Settles d (next r) (next' r)) :
    Settles d (c.follow next) (c'.follow next') := by
  intro m hm
  obtain ⟨heq, he, hs⟩ := h m hm
  obtain ⟨heq', he', hs'⟩ := hnext (c m) he (c m).state hs
  refine ⟨?_, he', hs'⟩
  simp only [Eval.follow, heq]
  exact heq'

theorem within {c c' : Eval α} {limits : Limits} (parent : ScopeId) (bindings : Bindings)
    (position : Position) (h : d < limits.maxDepth → Settles (d + 1) c c') :
    Settles d (Eval.within limits parent bindings position c)
      (Eval.within limits parent bindings position c') := by
  intro m hm
  by_cases hfull : limits.maxDepth ≤ m.stack.length
  · rw [within_of_full hfull, within_of_full hfull]
    exact ⟨rfl, trivial, hm⟩
  · rw [within_of_room hfull, within_of_room hfull]
    have hlen : (m.enter parent bindings).stack.length = d + 1 := by
      rw [Machine.length_enter, hm]
    obtain ⟨heq, he, hs⟩ := h (by omega) (m.enter parent bindings) hlen
    rw [heq, EStateM.Result.state_withState, Machine.stack_leave, List.length_tail, hs]
    exact ⟨rfl, ends_withState he _, rfl⟩

theorem bind {c c' : Eval α} {f f' : α → Eval β} (h : Settles d c c')
    (hf : ∀ a, Settles d (f a) (f' a)) : Settles d (c >>= f) (c' >>= f') := by
  rw [bind_eq_follow, bind_eq_follow]
  refine h.follow fun r hr => ?_
  cases r with
  | ok a m => exact hf a
  | error u m => exact plain (.unwind hr)

theorem repeatWhile {guard guard' : Eval Bool} {body body' : Eval Value} (position : Position)
    (limit : Nat) (last : Value) (hguard : Settles d guard guard')
    (hbody : Settles d body body') :
    Settles d (Eval.repeatWhile guard body position limit last)
      (Eval.repeatWhile guard' body' position limit last) := by
  induction limit generalizing last with
  | zero =>
    rw [repeatWhile_eq_follow, repeatWhile_eq_follow]
    refine hguard.follow fun r hr => ?_
    rcases r with ⟨_ | _, m⟩ | ⟨_ | _ | _, m⟩
    · exact plain (.pure last)
    · exact plain (.raise _)
    · exact plain (.pure _)
    · exact plain (.unwind hr)
    · exact plain (.unwind hr)
  | succ limit ih =>
    rw [repeatWhile_eq_follow, repeatWhile_eq_follow]
    refine hguard.follow fun r hr => ?_
    rcases r with ⟨_ | _, m⟩ | ⟨_ | _ | _, m⟩
    · exact plain (.pure last)
    · -- The guard holds: the body runs, and the loop goes on with a smaller limit.
      refine hbody.follow fun r hr => ?_
      rcases r with ⟨v, m⟩ | ⟨_ | _ | _, m⟩
      · exact ih v
      · exact plain (.pure _)
      · exact plain (.unwind hr)
      · exact plain (.unwind hr)
    · exact plain (.pure _)
    · exact plain (.unwind hr)
    · exact plain (.unwind hr)

theorem boundary {c c' : Eval Value} (h : Settles d c c') :
    Settles d (Eval.boundary c) (Eval.boundary c') := by
  rw [boundary_eq_follow, boundary_eq_follow]
  refine h.follow fun r hr => ?_
  rcases r with ⟨v, m⟩ | ⟨_ | _ | _, m⟩
  · exact plain (.pure v)
  · exact plain (.raise _)
  · exact plain (.unwind hr)
  · exact plain (.unwind hr)

theorem locatedAt {c c' : Eval Value} (position : Position) (h : Settles d c c') :
    Settles d (Eval.locatedAt position c) (Eval.locatedAt position c') := by
  rw [locatedAt_eq_follow, locatedAt_eq_follow]
  refine h.follow fun r hr => ?_
  rcases r with ⟨v, m⟩ | ⟨_ | _ | _, m⟩
  · exact plain (.pure v)
  · exact plain (.unwind hr)
  · exact plain (.raise _)
  · exact plain (.unwind hr)

/-- A native may catch an error and go on. -/
theorem answer {c c' : Eval Value} {f f' : Except Error Value → Eval Value}
    (h : Settles d c c') (hf : ∀ a, Settles d (f a) (f' a)) :
    Settles d (Eval.answer c f) (Eval.answer c' f') := by
  refine h.follow fun r hr => ?_
  rcases r with ⟨v, m⟩ | ⟨_ | e | _, m⟩
  · exact hf (.ok v)
  · exact plain (.unwind hr)
  · exact hf (.error e)
  · exact plain (.unwind hr)

end Settles

/-- With `d` scopes active, `room` is enough for all calls that can still be nested. -/
def Limits.Suffices (limits : Limits) (room d : Nat) : Prop :=
  0 < room ∧ limits.maxDepth < room + d

/-- To do the same with two rooms, wherever both suffice, is kept by every construction. -/
theorem lockstep_settles (limits : Limits) (room room' : Nat) :
    Lockstep limits limits Request.IsCall fun d _ c t =>
      limits.Suffices room d → limits.Suffices room' d → Settles d c t.erase where
  step hc _ _ := .plain hc.plain
  bind ht hf hr hr' := by
    rw [Traced.erase_bind]
    exact (ht hr hr').bind fun a => hf a hr hr'
  within parent bindings position ht hr hr' := by
    rw [Traced.erase_within]
    refine .within parent bindings position fun _ => ht ?_ ?_
    · exact ⟨hr.1, by have := hr.2; omega⟩
    · exact ⟨hr'.1, by have := hr'.2; omega⟩
  repeatWhile position last hg hb hr hr' := by
    rw [Traced.erase_repeatWhile]
    exact .repeatWhile position _ last (hg hr hr') (hb hr hr')
  boundary ht hr hr' := by
    rw [Traced.erase_boundary]
    exact (ht hr hr').boundary
  locatedAt position ht hr hr' := by
    rw [Traced.erase_locatedAt]
    exact (ht hr hr').locatedAt position
  write line _ _ := fun m hm => ⟨rfl, trivial, hm⟩
  answer _ ht hf hr hr' := by
    rw [Traced.erase_answer]
    exact (ht hr hr').answer fun a => hf a hr hr'
  afresh _ hasked := hasked.elim

theorem Host.serveTrace_erase (host : Host) (room : Nat) (r : Request) :
    (host.serveTrace room r).erase = host.serve room r := (Task.request r).trace_erase host room

theorem Host.bodyTrace_erase (host : Host) (room : Nat) (position : Position) (f : Function) :
    (host.bodyTrace (host.serveTrace room) position f).erase =
      host.body (host.serve room) position f :=
  (lockstep_erase host.limits).function (fun _ r _ => host.serveTrace_erase room r)
    host.asks_all 0 position f

theorem Host.limit_lt_room (host : Host) : host.limits.maxDepth + 1 < host.room := by
  unfold room spareRoom
  omega

section Host
variable {host : Host} (hasks : host.Asks Request.IsCall)
include hasks

/-- A call is answered in the same way with any room that suffices. -/
theorem Host.serve_settles {room room' d : Nat} {r : Request} (hr : r.IsCall)
    (hroom : host.limits.Suffices room d) (hroom' : host.limits.Suffices room' d) :
    Settles d (host.serve room r) (host.serve room' r) := by
  induction room generalizing room' d r with
  | zero => exact absurd hroom.1 (Nat.lt_irrefl 0)
  | succ room ih =>
    obtain ⟨room', rfl⟩ : ∃ n, room' = n + 1 := ⟨room' - 1, by have := hroom'.1; omega⟩
    obtain ⟨c, arguments, position, label⟩ | ⟨program⟩ := r
    · rw [serve, serve, call, call]
      split
      · exact .plain (.raise _)
      · refine .within _ _ position fun hlt => ?_
        -- One room less and one scope more: what is left still suffices.
        have hleft : host.limits.Suffices room (d + 1) := by
          obtain ⟨_, h⟩ := hroom
          exact ⟨by omega, by omega⟩
        have hleft' : host.limits.Suffices room' (d + 1) := by
          obtain ⟨_, h⟩ := hroom'
          exact ⟨by omega, by omega⟩
        rw [← host.bodyTrace_erase room']
        refine (lockstep_settles host.limits room room').function (fun d r hr h h' => ?_) hasks
          (d + 1) position c.function hleft hleft'
        rw [host.serveTrace_erase]
        exact ih (hr.elim id id) h h'
    · exact hr.elim

/-- So is every task but the execution of a program, which starts afresh. -/
theorem Task.run_settles {room room' d : Nat} {t : Task}
    (ht : ∀ program, t ≠ .request (.execute program)) (hroom : host.limits.Suffices room d)
    (hroom' : host.limits.Suffices room' d) :
    Settles d (t.run host room) (t.run host room') := by
  have h := lockstep_settles host.limits room room'
  have hserve : ∀ d r, r.IsCall → host.limits.Suffices room d → host.limits.Suffices room' d →
      Settles d (host.serve room r) (host.serveTrace room' r).erase := by
    intro d r hr h h'
    rw [host.serveTrace_erase]
    exact host.serve_settles hasks hr h h'
  rw [← t.trace_erase host room']
  cases t with
  | statement s => exact h.statement hserve d s hroom hroom'
  | expression e => exact h.expression hserve d e hroom hroom'
  | block b => exact h.block hserve d b hroom hroom'
  | request r =>
    cases r with
    | call => exact hserve d _ trivial hroom hroom'
    | execute program => exact absurd rfl (ht program)

theorem Host.execute_settles {room room' : Nat} (program : Block)
    (hroom : host.limits.Suffices room 1) (hroom' : host.limits.Suffices room' 1) (m : Machine) :
    host.serve (room' + 1) (.execute program) m = host.serve (room + 1) (.execute program) m ∧
      Ends (host.serve (room + 1) (.execute program) m) := by
  have hprogram := (Task.run_settles (t := .block program) hasks nofun hroom hroom').boundary
  obtain ⟨heq, he, _⟩ := hprogram (m.reset host.natives) (Machine.length_reset_stack _ m)
  rw [serve, serve, execute_eq, execute_eq]
  exact ⟨congrArg (fun r => r.withState (r.state.reset host.natives)) heq, ends_withState he _⟩

/-- All rooms larger than one more than the limit are as good as one another. -/
theorem Task.run_room {room room' : Nat} (hroom : host.limits.maxDepth + 1 < room)
    (hroom' : host.limits.maxDepth + 1 < room') (t : Task) (m : Machine) :
    t.run host room' m = t.run host room m ∧ Ends (t.run host room m) := by
  by_cases ht : ∃ program, t = .request (.execute program)
  · obtain ⟨program, rfl⟩ := ht
    obtain ⟨room, rfl⟩ : ∃ n, room = n + 1 := ⟨room - 1, by omega⟩
    obtain ⟨room', rfl⟩ : ∃ n, room' = n + 1 := ⟨room' - 1, by omega⟩
    exact host.execute_settles hasks program ⟨by omega, by omega⟩ ⟨by omega, by omega⟩ m
  · have hs : host.limits.Suffices room m.stack.length := ⟨by omega, by omega⟩
    have hs' : host.limits.Suffices room' m.stack.length := ⟨by omega, by omega⟩
    obtain ⟨heq, he, _⟩ := t.run_settles hasks (fun program h => ht ⟨program, h⟩) hs hs' m rfl
    exact ⟨heq, he⟩

/-- **Every evaluation ends.** If natives only call closures, then for every task and on
every machine there is an answer, which is not that the room ran out, and which every
room gives that is larger than one more than the depth limit; the room that a session
works with is one of them. -/
theorem evaluation_ends (t : Task) (m : Machine) :
    ∃ r : Result Value, Ends r ∧ t.run host host.room m = r ∧
      ∀ room, host.limits.maxDepth + 1 < room → t.run host room m = r := by
  have hroom := host.limit_lt_room
  refine ⟨t.run host host.room m, (t.run_room hasks hroom hroom m).2, rfl, fun room h => ?_⟩
  exact (t.run_room hasks hroom h m).1

end Host

/-- Calls without end end, also where a native catches the error that stops them. -/
theorem evaluation_ends_endlessCall :
    ∃ r : Result Value, Ends r ∧ ∀ room, 5 < room → (Task.request (.execute endlessCall)).run
      catchingHost room Machine.empty = r := by
  obtain ⟨r, he, _, hr⟩ :=
    evaluation_ends catchingHost_asks (.request (.execute endlessCall)) Machine.empty
  exact ⟨r, he, hr⟩

end Lumen
