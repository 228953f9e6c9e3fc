import Lumen.Proofs.Eval.Conduct
import Lumen.Proofs.Eval.Confinement
import Lumen.Proofs.Eval.Reentry

/-! Natives see their arguments and nothing else.

A native is called in a scope that binds its parameters, inside the scope that its closure captured.
That scope is sealed on every machine that a session can get to, so whatever a program binds, and
however closures of natives are stored, passed on and called, a native finds its own parameters in
the scope of its call and no other names (`natives_see_only_arguments`).

What natives see, they see in the middle of evaluations. To say so for all of them at once, the
evaluator stands beside another one in which natives are handed their arguments and cannot look
anywhere else (`Host.serveSecluded`); the two do the same. -/
namespace Lumen
open Eval

/-! ### Arguments by name -/

/-- The argument for a name, which is the last one if several parameters have that name. -/
def given : List String → List Value → String → Option Value
  | p :: parameters, v :: arguments, name =>
    (given parameters arguments name).or (if p = name then some v else none)
  | _, _, _ => none

theorem mem_of_given {parameters : List String} {arguments : List Value} {name : String} {v : Value}
    (h : given parameters arguments name = some v) : v ∈ arguments := by
  fun_induction given parameters arguments name with
  | case1 p parameters w arguments name ih =>
    obtain h | ⟨_, h⟩ := Option.or_eq_some_iff.mp h
    · exact List.mem_cons_of_mem _ (ih h)
    · split at h
      · exact Option.some.inj h ▸ List.mem_cons_self
      · cases h
  | case2 => cases h

theorem given_eq_none_iff {parameters : List String} {arguments : List Value}
    (hlength : parameters.length = arguments.length) (name : String) :
    given parameters arguments name = none ↔ name ∉ parameters := by
  induction parameters generalizing arguments with
  | nil => simp [given]
  | cons p parameters ih =>
    cases arguments with
    | nil => cases hlength
    | cons w arguments =>
      simp only [given, Option.or_eq_none_iff, ih (Nat.succ.inj hlength), List.mem_cons, not_or,
        ite_eq_right_iff, reduceCtorEq, imp_false, eq_comm (a := p), and_comm]

/-- An argument is found at the last position where the parameter has the name. -/
theorem given_eq_some_iff {parameters : List String} {arguments : List Value}
    (hlength : parameters.length = arguments.length) (name : String) (v : Value) :
    given parameters arguments name = some v ↔ ∃ k : Nat, parameters[k]? = some name ∧
      arguments[k]? = some v ∧ ∀ j, k < j → parameters[j]? ≠ some name := by
  induction parameters generalizing arguments with
  | nil => simp [given]
  | cons p parameters ih =>
    cases arguments with
    | nil => cases hlength
    | cons w arguments =>
      have hlength := Nat.succ.inj hlength
      rw [given, Option.or_eq_some_iff, ih hlength, given_eq_none_iff hlength]
      constructor
      · rintro (⟨k, hname, hv, hlast⟩ | ⟨hlast, hv⟩)
        · refine ⟨k + 1, hname, hv, fun j hj => ?_⟩
          cases j with
          | zero => cases hj
          | succ j => exact hlast j (Nat.lt_of_succ_lt_succ hj)
        · obtain ⟨hname, hv⟩ : p = name ∧ w = v := by simpa using hv
          refine ⟨0, congrArg some hname, congrArg some hv, fun j hj hname => ?_⟩
          cases j with
          | zero => cases hj
          | succ j => exact hlast (List.mem_of_getElem? hname)
      · rintro ⟨k, hname, hv, hlast⟩
        cases k with
        | zero =>
          refine .inr ⟨fun hmem => ?_, by simpa using ⟨Option.some.inj hname, Option.some.inj hv⟩⟩
          obtain ⟨j, hj⟩ := List.mem_iff_getElem?.mp hmem
          exact hlast (j + 1) (Nat.succ_pos j) hj
        | succ k =>
          exact .inl ⟨k, hname, hv, fun j hj => hlast (j + 1) (Nat.succ_lt_succ hj)⟩

theorem Bindings.find?_ofArguments (parameters : List String) (arguments : List Value)
    (name : String) :
    (ofArguments parameters arguments).find? name = given parameters arguments name := by
  have hfold : ∀ bindings : Bindings,
      Bindings.find? name ((parameters.zip arguments).foldl
        (fun bindings given => insert given.1 given.2 bindings) bindings) =
        (given parameters arguments name).or (bindings.find? name) := by
    fun_induction given parameters arguments name with
    | case1 p parameters w arguments name ih =>
      intro bindings
      rw [List.zip_cons_cons, List.foldl_cons, ih, find?_insert, Option.or_assoc]
      congr 1
      by_cases hp : p = name
      · simp [hp]
      · simp [hp, Ne.symm hp]
    | case2 parameters arguments name h =>
      intro bindings
      cases parameters with
      | nil => rfl
      | cons p parameters =>
        cases arguments with
        | nil => rfl
        | cons v arguments => exact (h p parameters v arguments rfl rfl).elim
  rw [ofArguments, hfold []]
  simp [find?]

/-- In a call of a closure that is shut, the arguments are seen and nothing else. -/
theorem Machine.sees_called {m : Machine} {c : Closure} (h : m.Shut c) (arguments : List Value) :
    (m.called c arguments).sees = given c.parameters arguments := by
  funext name
  have hscope : (m.called c arguments).store.scopes[m.store.scopes.size]? =
      some ⟨.ofArguments c.parameters arguments, some c.captured⟩ := by
    simp [Machine.called, Machine.enter, Store.add]
  have hcaptured : (m.called c arguments).store.lookup c.captured name = none := by
    have hempty : (m.called c arguments).store.scopes[c.captured]? = some ⟨[], none⟩ :=
      (h.enter c.captured (.ofArguments c.parameters arguments)).empty
    rw [Store.lookup, hempty]
    rfl
  show (m.called c arguments).store.lookup m.store.scopes.size name = _
  rw [Store.lookup, hscope]
  simp only [Bindings.find?_ofArguments, h.lt, if_true, hcaptured]
  cases given c.parameters arguments name <;> rfl

/-! ### Natives in seclusion -/

namespace Host

/-- Runs a function in the current scope, and hands a native its arguments instead of letting it
look around there. -/
def bodySecluded (host : Host) (serve : Request → Eval Value) (position : Position)
    (arguments : List Value) : Function → Eval Value
  | .lambda f => boundary (f.body.exec host.limits serve)
  | .native n => locatedAt position ((host.routine n (given n.parameters arguments)).run serve)

def callSecluded (host : Host) (serve : Request → Eval Value) (c : Closure)
    (arguments : List Value) (position : Position) (label : String) : Eval Value :=
  if c.parameters.length ≠ arguments.length then
    fail position (.arity label c.parameters.length arguments.length)
  else
    within host.limits c.captured (.ofArguments c.parameters arguments) position
      (host.bodySecluded serve position arguments c.function)

/-- Answers a request, with natives in seclusion. -/
def serveSecluded (host : Host) : (room : Nat) → Request → Eval Value
  | 0, _ => throw .exhausted
  | room + 1, .call c arguments position label =>
    host.callSecluded (host.serveSecluded room) c arguments position label
  | room + 1, .execute program => host.execute (host.serveSecluded room) program

end Host

/-! ### What natives hand over -/

/-- A routine that hands over no native closures but those that it has `Seen`, be it to call them,
to pass them on, to keep them or to finish with them. What it is answered it has seen as well, and
so it has what has been kept. -/
def Routine.Reuses (Seen : Closure → Prop) : Routine → Prop
  | finish result => ∀ v, result = .ok v → v.Natives Seen
  | write _ next => next.Reuses Seen
  | keep update next => ∀ kept : List Value,
    (∀ v ∈ update kept, v.Natives fun c => Seen c ∨ .closure c ∈ kept) ∧
    (next kept).Reuses fun c => Seen c ∨ .closure c ∈ kept
  | request r next => r.Natives Seen ∧
    ∀ answer, (next answer).Reuses fun c => Seen c ∨ answer = .ok (.closure c)

/-- The natives make no closures of natives: all that they hand over they have found in the scope of
their call, got for an answer or kept before. -/
def Host.Reuses (host : Host) : Prop :=
  ∀ native ∈ host.natives, ∀ lookup : String → Option Value,
    (native.body lookup).Reuses fun c => ∃ name, lookup name = some (.closure c)

theorem Request.Natives.mono {P Q : Closure → Prop} {r : Request} (h : r.Natives P)
    (hPQ : ∀ c, c.IsNative → P c → Q c) : r.Natives Q := by
  cases r with
  | call c arguments position label =>
    exact ⟨Value.Natives.mono h.1 hPQ, fun v hv => (h.2 v hv).mono hPQ⟩
  | execute program => trivial

theorem Routine.Reuses.mono {P Q : Closure → Prop} {routine : Routine} (h : routine.Reuses P)
    (hPQ : ∀ c, c.IsNative → P c → Q c) : routine.Reuses Q := by
  induction routine generalizing P Q with
  | finish result => exact fun v hv => (h v hv).mono hPQ
  | write line next ih => exact ih h hPQ
  | keep update next ih =>
    intro kept
    obtain ⟨hupdate, hnext⟩ := h kept
    exact ⟨fun v hv => (hupdate v hv).mono fun c hc => .imp_left (hPQ c hc),
      ih kept hnext fun c hc => .imp_left (hPQ c hc)⟩
  | request r next ih =>
    exact ⟨h.1.mono hPQ, fun answer => ih answer (h.2 answer) fun c hc => .imp_left (hPQ c hc)⟩

theorem Host.Reuses.routine {host : Host} (h : host.Reuses) (n : NativeRef)
    (lookup : String → Option Value) :
    (host.routine n lookup).Reuses fun c => ∃ name, lookup name = some (.closure c) := by
  obtain ⟨native, hnative, heq⟩ | heq := host.routine_cases n
  · rw [heq]
    exact h native hnative lookup
  · rw [heq]
    exact fun v hv => Except.ok.inj hv ▸ trivial

/-! ### Calls -/

section Calls
variable {S : Closure → Prop} {serve : Request → Eval Value} {serve' : Request → Traced Value}

theorem confined_routine (hserve : ConfinedAnswers serve' serve) {routine : Routine}
    (h : routine.Reuses S) :
    Confined S Value.Natives (routine.trace serve') (routine.run serve) := by
  induction routine generalizing S with
  | finish result =>
    cases result with
    | ok v => exact .value (h v rfl)
    | error e => exact .throw trivial
  | write line next ih =>
    have hwrite : Confined S (fun _ _ => True)
        (.step (modify fun m => { m with output := m.output.push line }))
        (modify fun m => { m with output := m.output.push line }) :=
      .step fun m hm => ⟨hm.of_store_eq rfl (fun _ hi => hi) rfl, trivial⟩
    exact hwrite.bind fun S' hS _ _ => ih (h.mono fun c _ => hS c)
  | keep update next ih =>
    -- What has been kept is shut, so it may be handed over as if it had been seen from the start.
    have hseen : ∀ (S' : Closure → Prop), (∀ c, S c → S' c) → ∀ kept : List Value,
        (∀ v ∈ kept, v.Natives S') → ∀ c : Closure, c.IsNative →
          S c ∨ .closure c ∈ kept → S' c := by
      intro S' hS kept hkept c hc hcases
      exact hcases.elim (hS c) fun hmem => hkept _ hmem hc
    have hexchange : Confined S (fun P kept => ∀ v ∈ kept, v.Natives P)
        (.step (exchange update)) (exchange update) :=
      .exchange fun S' hS kept hkept v hv => ((h kept).1 v hv).mono (hseen S' hS kept hkept)
    exact hexchange.bind fun S' hS kept hkept => ih kept ((h kept).2.mono (hseen S' hS kept hkept))
  | request r next ih =>
    rw [Routine.run_request]
    refine (hserve S r h.1).answer fun S' hS answer hanswer => ih answer ?_
    refine (h.2 answer).mono fun c hc => ?_
    rintro (hseen | rfl)
    · exact hS c hseen
    · exact hanswer _ rfl hc

/-- In a call of a closure that is shut, a native does what it does with its arguments alone. -/
theorem confined_native {host : Host} (hreuses : host.Reuses)
    (hserve : ConfinedAnswers serve' serve) {c : Closure} {n : NativeRef}
    (hn : c.function = .native n) {arguments : List Value}
    (harguments : ∀ v ∈ arguments, v.Natives S) {m : Machine} (hc : m.Shut c)
    (hin : (m.called c arguments).Tight S) (position : Position) :
    ConfinedAt S Value.Natives (host.bodyTrace serve' position (.native n))
      (host.bodySecluded serve position arguments (.native n)) (m.called c arguments) := by
  have hsees : (m.called c arguments).sees = given n.parameters arguments := by
    rw [Machine.sees_called hc, Closure.parameters, hn]
    rfl
  have hroutine : ConfinedAt S Value.Natives
      ((host.routine n (m.called c arguments).sees).trace serve')
      ((host.routine n (given n.parameters arguments)).run serve) (m.called c arguments) := by
    rw [hsees]
    refine confined_routine hserve ((hreuses.routine n _).mono ?_) _ hin
    rintro d hd ⟨name, hname⟩
    exact harguments _ (mem_of_given hname) hd
  -- To look around in the scope of the call changes nothing.
  have hlook : ConfinedAt S Value.Natives
      (.step surroundings >>= fun lookup => (host.routine n lookup).trace serve')
      ((host.routine n (given n.parameters arguments)).run serve) (m.called c arguments) := by
    refine ⟨hroutine.same, fun m' hm' => ?_, hroutine.ends⟩
    obtain rfl | rfl | hm' := List.mem_cons.mp hm' |>.imp_right List.mem_cons.mp
    · exact hin
    · exact hin
    · exact hroutine.passed m' hm'
  exact hlook.locatedAt position

theorem confined_call {host : Host} (hreuses : host.Reuses)
    (hserve : ConfinedAnswers serve' serve) {c : Closure} (hc : (Value.closure c).Natives S)
    {arguments : List Value} (harguments : ∀ v ∈ arguments, v.Natives S) (position : Position)
    (label : String) :
    Confined S Value.Natives (host.callTrace serve' c arguments position label)
      (host.callSecluded serve c arguments position label) := by
  unfold Host.callTrace Host.callSecluded
  split
  · exact .fail position _
  · refine .within _ _ (fun name v hv => ?_) position fun m hm hin => ?_
    · rw [Bindings.find?_ofArguments] at hv
      exact harguments v (mem_of_given hv)
    · cases hf : c.function with
      | lambda f => exact (confined_statement hserve S f.body).boundary _ hin
      | native n =>
        exact confined_native hreuses hserve hf harguments (hm.shut c (hc ⟨n, hf⟩)) hin position

end Calls

/-- **To hand natives their arguments is enough.** On tight machines, requests are answered as if
natives were in seclusion, and all machines that are passed are tight. -/
theorem Host.Reuses.confined {host : Host} (hreuses : host.Reuses) (room : Nat) :
    ConfinedAnswers (host.serveTrace room) (host.serveSecluded room) := by
  induction room with
  | zero => exact fun S r _ => .throw trivial
  | succ room ih =>
    intro S r hr
    cases r with
    | call c arguments position label =>
      exact confined_call hreuses ih hr.1 hr.2 position label
    | execute program =>
      rw [Host.serveSecluded, Host.execute_eq]
      exact (confined_block ih S program).boundary.afresh host.natives

/-! ### Sessions -/

/-- The sessions that a host can get to, with the values that it has been handed on the way. It may
hand over what it likes, but native closures only if it has been handed them. -/
inductive Session.Reached (host : Host) : Session → List Value → Prop
  | start : Reached host (.start host) []
  /-- A program is executed, or a closure is called. -/
  | serve {s : Session} {vs : List Value} (r : Request) : Reached host s vs →
    r.Natives (.closure · ∈ vs) → Reached host (s.serve r).2 ((s.serve r).1.values ++ vs)
  | close {s : Session} {vs : List Value} (f : Function) : Reached host s vs →
    Reached host (s.close f).2 (.closure (s.close f).1 :: vs)
  | takeOutput {s : Session} {vs : List Value} : Reached host s vs →
    Reached host s.takeOutput.2 vs

/-- A native closure among some values. -/
def Closure.Held (vs : List Value) (c : Closure) : Prop := c.IsNative ∧ .closure c ∈ vs

theorem Session.serve_eq (s : Session) (r : Request) :
    let result := s.host.serve s.host.room r s.machine
    s.serve r = (Outcome.ofResult result, { s with machine := result.state }) := by
  unfold Session.serve
  rcases s.host.serve s.host.room r s.machine with ⟨v, m⟩ | ⟨_ | _ | _, m⟩ <;> rfl

theorem Machine.tight_empty : Machine.empty.Tight fun _ => False := by
  refine ⟨nofun, fun i n v hv => ?_, nofun, nofun⟩
  simp [Store.valueAt, Machine.empty, Store.empty] at hv

section Requests
variable {host : Host} (hreuses : host.Reuses) {S : Closure → Prop} {m : Machine} (hm : m.Tight S)
  {r : Request} (hr : r.Natives S) (room : Nat)
include hreuses hm hr

theorem Host.Reuses.serve_eq : host.serve room r m = host.serveSecluded room r m := by
  rw [← (hreuses.confined room S r hr m hm).same]
  exact (congrFun ((Task.request r).trace_erase host room) m).symm

theorem Host.Reuses.hands : Hands S Value.Natives (host.serve room r m) :=
  hreuses.serve_eq hm hr room ▸ (hreuses.confined room S r hr m hm).ends

/-- All machines on the way are tight, from the first to the last. -/
theorem Host.Reuses.history : ∀ m' ∈ (host.serveTrace room r).history m, m'.Tight S := by
  intro m' hm'
  have hconfined := hreuses.confined room S r hr m hm
  simp only [Traced.history, List.cons_append, List.mem_cons, List.mem_append, List.not_mem_nil,
    or_false] at hm'
  rcases hm' with rfl | hm' | rfl
  · exact hm
  · exact hconfined.passed m' hm'
  · rw [hconfined.same]
    exact hconfined.ends.tight

end Requests

/-- On the machine of a session, all native closures that the host has been handed are shut. -/
theorem Session.Reached.tight {host : Host} (hreuses : host.Reuses) {s : Session} {vs : List Value}
    (h : s.Reached host vs) : s.host = host ∧ s.machine.Tight (Closure.Held vs) := by
  induction h with
  | start =>
    refine ⟨rfl, (Machine.tight_empty.reset host.natives).mono fun c hc => ?_⟩
    cases hc.2
  | @serve s vs r _ hr ih =>
    obtain ⟨rfl, htight⟩ := ih
    have hheld : r.Natives (Closure.Held vs) := hr.mono fun c hc hmem => ⟨hc, hmem⟩
    have hhands := hreuses.hands htight hheld s.host.room
    rw [Session.serve_eq]
    refine ⟨rfl, fun c ⟨hc, hmem⟩ => ?_, hhands.tight.binds, hhands.tight.active, hhands.tight.kept⟩
    obtain hmem | hmem := List.mem_append.mp hmem
    · generalize s.host.serve s.host.room r s.machine = result at hhands hmem
      rcases result with ⟨v, m⟩ | ⟨_ | _ | _, m⟩
      · obtain rfl := List.mem_singleton.mp hmem
        exact hhands.2 hc
      all_goals cases hmem
    · exact hhands.tight.shut c ⟨hc, hmem⟩
  | @close s vs f _ ih =>
    obtain ⟨hhost, htight⟩ := ih
    obtain ⟨hclose, hshut⟩ := htight.closeAlone f
    refine ⟨hhost, fun c ⟨hc, hmem⟩ => ?_, hclose.binds, hclose.active, hclose.kept⟩
    obtain hmem | hmem := List.mem_cons.mp hmem
    · obtain rfl := Value.closure.inj hmem
      exact hshut
    · exact hclose.shut c ⟨hc, hmem⟩
  | takeOutput _ ih => exact ⟨ih.1, ih.2.of_store_eq rfl (fun _ hi => hi) rfl⟩

/-! ### What natives see -/

/-- A native closure that is bound anywhere, kept by natives or in the hands of the host. -/
def Machine.HasNative (m : Machine) (vs : List Value) (c : Closure) : Prop :=
  c.IsNative ∧ (.closure c ∈ vs ∨ .closure c ∈ m.kept ∨
    ∃ i name, m.store.valueAt i name = some (.closure c))

/-- The closure captured a root without names, and in a call of it the arguments are seen and
nothing else. -/
def Machine.Secludes (m : Machine) (c : Closure) : Prop :=
  m.store.scopes[c.captured]? = some ⟨[], none⟩ ∧
    ∀ arguments, (m.called c arguments).sees = given c.parameters arguments

section Secludes
variable {m : Machine} {c : Closure}

theorem Machine.secludes_of_shut (h : m.Shut c) : m.Secludes c :=
  ⟨h.empty, fun arguments => sees_called h arguments⟩

theorem Machine.Tight.shut_of_hasNative {vs : List Value} (h : m.Tight (Closure.Held vs))
    (hc : m.HasNative vs c) : m.Shut c := by
  obtain ⟨hnative, hmem | hmem | ⟨i, name, hbound⟩⟩ := hc
  · exact h.shut c ⟨hnative, hmem⟩
  · exact h.kept _ hmem hnative
  · exact h.binds i name _ hbound hnative

end Secludes

/-- **Natives see only their arguments.** Let natives hand over no native closures but those that
they have found in the scope of their call, got for an answer or kept before. In every session that
can be reached, and at all times of whatever is asked of it next,
* the scope that a native closure captured has no parent and no names, be the closure in the hands
  of the host, bound anywhere or kept by natives, at that time or before, so that in a call of it
  the arguments are seen and nothing else;
* whatever a request runs into, it is answered as if natives were handed their arguments and had no
  scope to look around in;
* an argument is found for exactly the names of the parameters, and it is the one at the last
  position where the parameter has the name. -/
theorem natives_see_only_arguments {host : Host} (hreuses : host.Reuses) {s : Session}
    {vs : List Value} (hs : s.Reached host vs) :
    (∀ c, s.machine.HasNative vs c → s.machine.Secludes c) ∧
    (∀ room r, r.Natives (.closure · ∈ vs) →
      host.serve room r s.machine = host.serveSecluded room r s.machine ∧
      (host.serveTrace room r).erase = host.serve room r ∧
      (∀ m ∈ (host.serveTrace room r).history s.machine, ∀ c,
        m.HasNative vs c → m.Secludes c) ∧
      ((host.serveTrace room r).history s.machine).Pairwise fun earlier later => ∀ c,
        earlier.HasNative vs c → later.Secludes c) ∧
    ∀ (parameters : List String) (arguments : List Value), parameters.length = arguments.length →
      ∀ name, ((given parameters arguments name).isSome ↔ name ∈ parameters) ∧
        ∀ v, given parameters arguments name = some v ↔ ∃ k : Nat, parameters[k]? = some name ∧
          arguments[k]? = some v ∧ ∀ j, k < j → parameters[j]? ≠ some name := by
  obtain ⟨_, htight⟩ := hs.tight hreuses
  refine ⟨fun c hc => Machine.secludes_of_shut (htight.shut_of_hasNative hc), fun room r hr => ?_,
    fun parameters arguments hlength name => ⟨?_, given_eq_some_iff hlength name⟩⟩
  · have hheld : r.Natives (Closure.Held vs) := hr.mono fun c hc hmem => ⟨hc, hmem⟩
    have hhistory := hreuses.history htight hheld room
    refine ⟨hreuses.serve_eq htight hheld room, (Task.request r).trace_erase host room,
      fun m hm c hc => Machine.secludes_of_shut ((hhistory m hm).shut_of_hasNative hc), ?_⟩
    refine (lasting_seals.task host room (.request r) s.machine).imp_of_mem ?_
    intro earlier later hearlier _ hlast c hc
    exact Machine.secludes_of_shut (hlast _ ((hhistory earlier hearlier).shut_of_hasNative hc))
  · rw [Option.isSome_iff_ne_none, Ne, given_eq_none_iff hlength, not_not]

/-! ### A native that looks around -/

/-- A host with a native that looks names up, one that calls closures and one that executes
programs. -/
def lookingHost : Host := ⟨[Native.see, Native.apply, Native.eval], {}⟩

theorem lookingHost_reuses : lookingHost.Reuses := by
  intro native hnative lookup
  have hargument : ∀ name, (Native.argument lookup name).Natives
      fun c => ∃ name, lookup name = some (.closure c) := by
    refine Native.argument_of (fun name v hv => ?_) trivial
    cases v with
    | closure c => exact fun _ => ⟨name, hv⟩
    | _ => trivial
  have hanswer : ∀ (Seen : Closure → Prop) (answer : Except Error Value),
      (Routine.finish answer).Reuses fun c => Seen c ∨ answer = .ok (.closure c) := by
    intro Seen answer v hv
    cases v with
    | closure c => exact fun _ => .inr hv
    | _ => trivial
  simp only [lookingHost, List.mem_cons, List.not_mem_nil, or_false] at hnative
  rcases hnative with rfl | rfl | rfl
  · exact fun v hv => Except.ok.inj hv ▸ hargument _
  · simp only [Native.apply, Native.callBack]
    have hf := hargument "f"
    generalize Native.argument lookup "f" = f at hf
    cases f with
    | closure c => exact ⟨⟨hf, List.forall_mem_singleton.mpr (hargument "x")⟩, hanswer _⟩
    | _ => exact fun v hv => by cases hv
  · simp only [Native.eval]
    split
    · exact ⟨trivial, hanswer _⟩
    · exact fun v hv => by cases hv

/-- The program `see;`, whose value is the native itself. -/
def seeItself : Block := ⟨[.expression (.reference "see" ⟨1, 1⟩)], ⟨1, 1⟩⟩

/-- The host is handed the native that looks names up. In the scope where the host calls it, `see`
is a name, but in the scope of the call it is none: there is only the parameter. -/
theorem natives_see_only_arguments_see :
    let first := (Session.start lookingHost).execute seeItself
    let see : Closure := ⟨3, .native ⟨some 0, "see", ["name"]⟩, 5⟩
    first.1 = .value (.closure see) ∧ (first.2.machine.sees "see").isSome ∧
      (first.2.machine.called see [.text "see"]).sees "see" = none ∧
      (first.2.machine.called see [.text "see"]).sees "name" = some (.text "see") := by
  intro first see
  have hfirst : first.1 = .value (.closure see) := by with_unfolding_all rfl
  have hreached : first.2.Reached lookingHost (first.1.values ++ []) :=
    .serve (.execute seeItself) .start trivial
  obtain ⟨hshut, _, _⟩ := natives_see_only_arguments lookingHost_reuses hreached
  have hmem : .closure see ∈ first.1.values ++ [] := by
    rw [hfirst]
    exact List.mem_singleton_self _
  obtain ⟨_, hsees⟩ := hshut see ⟨⟨_, rfl⟩, .inl hmem⟩
  rw [hsees]
  exact ⟨hfirst, by decide +kernel, rfl, rfl⟩

end Lumen
