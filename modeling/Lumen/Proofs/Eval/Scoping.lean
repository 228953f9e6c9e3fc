import Lumen.Native.Memory
import Lumen.Proofs.Eval.Limits
import Lumen.Proofs.Eval.Simulation

/-! Scope is lexical.

A call sees the scope that its closure captured and what its arguments lead to, and nothing of
where it comes from. Take any set of scopes that nothing inside leads out of, with the captured
scope and the arguments inside. Then what the other scopes bind makes no difference to the call,
and the call leaves them as they are; nor does it matter which scopes are active, but only how
many (`call_lexical`). The natives may ask for calls, with nothing but what they were given. -/
namespace Lumen
open Eval

/-! ### Natives that stay inside -/

/-- The natives call and give back nothing that leads outside, as long as they see no such value
and have kept no values but those in `Kept`; and they keep no others. -/
abbrev Host.Stays (host : Host) (Inside : ScopeId → Prop) (Kept : Value → Prop) : Prop :=
  host.Obeys (Value.Within Inside) Kept (fun _ => True)
    (Request.Calls (Value.Within Inside) fun _ => True)

/-- Where no scope is outside, natives only have to call. -/
theorem Host.stays_all {host : Host} (h : host.Asks Request.IsCall) {Inside : ScopeId → Prop}
    (hall : ∀ i, Inside i) : host.Stays Inside fun _ => True := by
  have hwithin : ∀ v : Value, v.Within Inside := fun v => v.within_all hall
  refine fun native hnative lookup _ =>
    (h native hnative lookup).obeys (fun r hr => ?_) hwithin (fun _ => trivial) fun _ => trivial
  cases r with
  | call c arguments position label => exact ⟨hwithin _, fun v _ => hwithin v, trivial⟩
  | execute program => exact hr.elim

/-! ### Pairings that keep places -/

namespace Pairing
variable {L : Pairing} (hsteady : L.Steady) (hplace : L.place = Eq)
include hsteady hplace

theorem Values.eq {v v' : Value} (h : L.Values v v') : v = v' ∧ v.Within L.shared := by
  cases h with
  | @closure c c' hc =>
    have hfunction := (hplace ▸ hc.function).eq
    obtain ⟨id, function, captured⟩ := c
    obtain ⟨id', function', captured'⟩ := c'
    obtain rfl : id' = id := by simpa [hsteady.closureShift] using hc.id
    obtain rfl : function = function' := hfunction
    obtain rfl : captured' = captured := by simpa [hsteady.scopeShift] using hc.captured
    exact ⟨rfl, hc.shared⟩
  | _ => exact ⟨rfl, trivial⟩

theorem Scopes.eq {s s' : Scope} (h : L.Scopes s s') : s = s' := by
  obtain ⟨bindings, parent⟩ := s
  obtain ⟨bindings', parent'⟩ := s'
  obtain rfl : parent' = parent := by simpa [hsteady.scopeShift] using h.parent
  have hbindings : bindings = bindings' := by
    refine List.forall₂_eq_eq_eq ▸ h.bindings.imp fun b b' hb => ?_
    exact Prod.ext hb.1 (hb.2.eq hsteady hplace).1
  rw [hbindings]

omit hsteady in
theorem errors_eq {e e' : Error} (h : L.Errors e e') : e = e' := by
  rw [Errors, hplace] at h
  exact h.eq

theorem Unwinds.eq {u u' : Unwind} (h : L.Unwinds u u') : u = u' := by
  cases h with
  | breakOut hv hp =>
    rw [hplace] at hp
    rw [(hv.eq hsteady hplace).1, hp]
  | error he => rw [errors_eq hplace he]
  | exhausted => rfl

theorem answer_eq {a a' : Except Error Value} (h : a.Alike L.Errors L.Values a') :
    a = a' ∧ Answers (Value.Within L.shared) (fun _ => True) a := by
  cases h with
  | ok hv =>
    obtain ⟨rfl, hwithin⟩ := hv.eq hsteady hplace
    exact ⟨rfl, hwithin⟩
  | error he => exact ⟨by rw [errors_eq hplace he], trivial⟩

variable {Kept : Value → Prop} (hkept : L.kept = fun kept kept' => kept = kept' ∧ ∀ v ∈ kept, Kept v)
include hkept

theorem routines_of_stays {routine : Routine}
    (h : routine.Obeys (Value.Within L.shared) Kept (fun _ => True)
      (Request.Calls (Value.Within L.shared) fun _ => True)) : L.Routines routine routine := by
  induction routine with
  | finish r =>
    cases r with
    | ok v => exact .finish (.ok (.self hsteady h))
    | error e => exact .finish (.error (e.alike_self hsteady.place))
  | write line next ih => exact .write line (ih h)
  | keep update next ih =>
    refine .keep (fun kept kept' hboth => ?_) fun kept kept' hboth => ?_
    · rw [hkept] at hboth ⊢
      obtain ⟨rfl, hvalues⟩ := hboth
      exact ⟨rfl, (h kept hvalues).1⟩
    · rw [hkept] at hboth
      obtain ⟨rfl, hvalues⟩ := hboth
      exact ih kept (h kept hvalues).2
  | request r next ih =>
    obtain ⟨hr, hnext⟩ := h
    cases r with
    | call c arguments position label =>
      obtain ⟨hc, harguments, -⟩ := hr
      refine .request (.call label (.self hsteady hc)
        (List.forall₂_same.mpr fun v hv => .self hsteady (harguments v hv))
        (hsteady.place position)) fun a a' ha => ?_
      obtain ⟨rfl, hanswers⟩ := answer_eq hsteady hplace ha
      exact ih a (hnext a hanswers)
    | execute program => exact hr.elim

theorem natives_of_stays {host : Host} (h : host.Stays L.shared Kept) : L.Natives host := by
  intro native hnative lookup lookup' hlookup
  have hsame : ∀ name, lookup name = lookup' name ∧
      ∀ v, lookup name = some v → v.Within L.shared := by
    intro name
    have hname := hlookup name
    generalize lookup name = v, lookup' name = v' at hname
    cases hname with
    | none => exact ⟨rfl, fun w hw => by cases hw⟩
    | some hv =>
      obtain ⟨rfl, hwithin⟩ := hv.eq hsteady hplace
      exact ⟨rfl, fun w hw => Option.some.inj hw ▸ hwithin⟩
  obtain rfl : lookup = lookup' := funext fun name => (hsame name).1
  exact routines_of_stays hsteady hplace hkept
    (h native hnative lookup fun name => (hsame name).2)

end Pairing

/-! ### Calls -/

/-- The scopes inside and those that are made later. -/
def Machine.orLater (Inside : ScopeId → Prop) (m : Machine) (i : ScopeId) : Prop :=
  Inside i ∨ m.store.scopes.size ≤ i

/-- Machines that differ in the scopes outside and in the scopes that are active, but not in the
number of either. -/
structure Machine.Agree (Inside : ScopeId → Prop) (m m' : Machine) : Prop where
  size : m.store.scopes.size = m'.store.scopes.size
  scopes : ∀ i, Inside i → m.store.scopes[i]? = m'.store.scopes[i]?
  nextClosure : m.nextClosure = m'.nextClosure
  output : m.output = m'.output
  kept : m.kept = m'.kept
  depth : m.stack.length = m'.stack.length

/-- Two machines that agree on the scopes inside, paired. The natives keep values in `Kept`. -/
def Machine.Agree.pairing {Inside : ScopeId → Prop} {m m' : Machine} (h : m.Agree Inside m')
    (Kept : Value → Prop) : Pairing where
  place := Eq
  shared := m.orLater Inside
  scopeShift := 0
  closureShift := 0
  left := m
  right := m'
  kept kept kept' := kept = kept' ∧ ∀ v ∈ kept, Kept v
  located := Pairing.located_eq
  fresh _ hi := .inr hi
  shifted _ hi := hi
  depth := h.depth

namespace Machine.Agree
variable {Inside : ScopeId → Prop} {Kept : Value → Prop} {m m' : Machine} (h : m.Agree Inside m')
include h

theorem steady : (h.pairing Kept).Steady := ⟨fun _ => rfl, rfl, rfl⟩

theorem machines (hclosed : m.store.Closed Inside) (hkept : ∀ v ∈ m.kept, Kept v) :
    (h.pairing Kept).Machines 0 m m' := by
  have hstore : (h.pairing Kept).Stores m.store m'.store := by
    refine .start h.steady h.size ?_ ?_
    · intro i scope hi hscope
      have hlt : i < m.store.scopes.size := (Array.getElem?_eq_some_iff.mp hscope).1
      obtain ⟨hparent, hbindings⟩ := hclosed i scope (hi.resolve_right (Nat.not_le.mpr hlt)) hscope
      exact ⟨fun p hp => .inl (hparent p hp), fun b hb => (hbindings b hb).mono fun i => .inl⟩
    · intro i hi
      obtain hi | hi := hi
      · exact h.scopes i hi
      · show m.store.scopes[i]? = m'.store.scopes[i]?
        rw [Array.getElem?_eq_none hi, Array.getElem?_eq_none (h.size ▸ hi)]
  exact ⟨.start hstore h.nextClosure.symm ⟨h.kept, hkept⟩, [], rfl, nofun, rfl, rfl⟩

/-- What a call does on machines that agree. -/
theorem serve_call {host : Host} (hstays : host.Stays (m.orLater Inside) Kept)
    (hclosed : m.store.Closed Inside) (hkept : ∀ v ∈ m.kept, Kept v) (c : Closure)
    (hc : Inside c.captured) (arguments : List Value)
    (harguments : ∀ v ∈ arguments, v.Within Inside) (room : Nat) (position : Position)
    (label : String) :
    (host.serve room (.call c arguments position label) m).Alike ((h.pairing Kept).Machines 0)
      (h.pairing Kept).Unwinds (h.pairing Kept).Values
      (host.serve room (.call c arguments position label) m') := by
  have hvalues : List.Forall₂ (h.pairing Kept).Values arguments arguments :=
    List.forall₂_same.mpr fun v hv => .self h.steady ((harguments v hv).mono fun i => .inl)
  have hnatives : (h.pairing Kept).Natives host :=
    Pairing.natives_of_stays h.steady rfl rfl hstays
  exact Pairing.serves_serve hnatives room 0 _ _
    (.call label (.self h.steady (.inl hc)) hvalues rfl) m m' (h.machines hclosed hkept)

/-- Machines that are paired agree on what is shared. -/
theorem of_machines {n n' : Machine} (hn : (h.pairing Kept).Machines 0 n n') :
    n.Agree (m.orLater Inside) n' := by
  refine ⟨hn.store.size.symm, fun i hi => ?_, hn.nextClosure.symm, hn.output h.output, hn.kept.1,
    hn.length_stack⟩
  have hscope : Option.Rel (h.pairing Kept).Scopes n.store.scopes[i]? n'.store.scopes[i]? :=
    hn.store.scopes i hi
  generalize n.store.scopes[i]? = s, n'.store.scopes[i]? = s' at hscope
  cases hscope with
  | none => rfl
  | some hs => rw [hs.eq h.steady rfl]

theorem stack_of_machines {n n' : Machine} (hn : (h.pairing Kept).Machines 0 n n') :
    n.stack = m.stack ∧ n'.stack = m'.stack := by
  obtain ⟨inner, hlength, _, hleft, hright⟩ := hn.stack
  obtain rfl := List.length_eq_zero_iff.mp hlength
  exact ⟨hleft, hright⟩

omit h in
/-- Machines that agree on all scopes differ in their stacks at most. -/
theorem eq_of_all (h : m.Agree Inside m') (hall : ∀ i, Inside i) :
    m' = { m with stack := m'.stack } := by
  obtain ⟨⟨scopes⟩, stack, nextClosure, output, kept⟩ := m
  obtain ⟨⟨scopes'⟩, stack', nextClosure', output', kept'⟩ := m'
  obtain rfl : scopes = scopes' := Array.ext_getElem? fun i => h.scopes i (hall i)
  obtain rfl : nextClosure = nextClosure' := h.nextClosure
  obtain rfl : output = output' := h.output
  obtain rfl : kept = kept' := h.kept
  rfl

/-- Results that are paired end in the same way. -/
theorem eq_withState {r r' : Eval.Result Value} (hr : r.Alike ((h.pairing Kept).Machines 0)
    (h.pairing Kept).Unwinds (h.pairing Kept).Values r') : r' = r.withState r'.state := by
  cases hr with
  | ok hv _ => rw [(hv.eq h.steady rfl).1]; rfl
  | error hu _ => rw [hu.eq h.steady rfl]; rfl

end Machine.Agree

/-- **Scope is lexical.** The outcome of a call, what it writes, what it leaves in the store and
what natives keep do not depend on which scopes are active, if natives do no more than call. And of
the scopes that neither its closure nor its arguments lead to, none has an influence on it and none
is changed, if natives have nothing but what they are given and what they have kept, and nothing of
that leads there either. -/
theorem call_lexical {host : Host} (hasks : host.Asks Request.IsCall) (room : Nat) (c : Closure)
    (arguments : List Value) (position : Position) (label : String) (m : Machine) :
    let call := host.serve room (.call c arguments position label)
    (∀ stack : List ScopeId, stack.length = m.stack.length →
      call { m with stack } = (call m).withState { (call m).state with stack }) ∧
    ∀ (Inside : ScopeId → Prop) (Kept : Value → Prop), m.store.Closed Inside → Inside c.captured →
      (∀ v ∈ arguments, v.Within Inside) → (∀ v ∈ m.kept, Kept v) →
      host.Stays (m.orLater Inside) Kept →
      ∀ m' : Machine, m.Agree Inside m' →
        call m' = (call m).withState (call m').state ∧
        (call m).state.Agree (m.orLater Inside) (call m').state ∧
        ∀ i, ¬m.orLater Inside i →
          (call m).state.store.scopes[i]? = m.store.scopes[i]? ∧
          (call m').state.store.scopes[i]? = m'.store.scopes[i]? := by
  intro call
  constructor
  · -- With every scope inside, machines that agree differ in their stacks only.
    intro stack hlength
    have hagree : m.Agree (fun _ => True) { m with stack } :=
      ⟨rfl, fun _ _ => rfl, rfl, rfl, rfl, hlength.symm⟩
    have hall : ∀ i, m.orLater (fun _ => True) i := fun i => .inl trivial
    have hresult := hagree.serve_call (Host.stays_all hasks hall)
      (m.store.closed_all fun _ => trivial) (fun _ _ => trivial) c trivial arguments
      (fun v _ => v.within_all fun _ => trivial) room position label
    have hstack := (hagree.stack_of_machines hresult.state).2
    have hstate := (hagree.of_machines hresult.state).eq_of_all hall
    rw [hstack] at hstate
    rw [← hstate]
    exact hagree.eq_withState hresult
  · intro Inside Kept hclosed hc harguments hkept hstays m' hagree
    have hresult :=
      hagree.serve_call hstays hclosed hkept c hc arguments harguments room position label
    exact ⟨hagree.eq_withState hresult, hagree.of_machines hresult.state,
      hresult.state.store.others⟩

/-! ### A name that is bound twice -/

/-- Two roots bind `x`. The second one, where it is `n`, is active, and the natives keep `f`. -/
def rivalRoots (n : Int32) (f : Closure) : Machine :=
  ⟨⟨#[⟨[("x", .integer 1)], none⟩, ⟨[("x", .integer n)], none⟩]⟩, [1], 2, #[], [.closure f]⟩

theorem rivalRoots_closed (n : Int32) (f : Closure) :
    (rivalRoots n f).store.Closed (· = 0) := by
  intro i scope hi hscope
  subst hi
  obtain rfl := Option.some.inj hscope
  refine ⟨nofun, fun b hb => ?_⟩
  obtain rfl := List.mem_singleton.mp hb
  trivial

/-- The function `() => x := x + 1`, made in the scope `captured`. -/
def increment (captured : ScopeId) : Closure :=
  let sum :=
    Expression.binary .add (.reference "x" ⟨1, 12⟩) (.constant (.integer 1) ⟨1, 16⟩) ⟨1, 14⟩
  ⟨0, .lambda ⟨[], .bind .assign "x" (.expression sum) ⟨1, 7⟩, ⟨1, 1⟩⟩, captured⟩

/-- A host with a native that keeps a closure and one that calls what is kept. -/
def rememberingHost : Host := ⟨[Native.save, Native.poke], {}⟩

/-- The second native of `rememberingHost`. -/
def poking : Closure := ⟨1, .native ⟨some 1, "poke", []⟩, 0⟩

theorem rememberingHost_asks : rememberingHost.Asks Request.IsCall := by
  intro native hnative lookup
  simp only [rememberingHost, List.mem_cons, List.not_mem_nil, or_false] at hnative
  obtain rfl | rfl := hnative
  · exact fun _ => trivial
  · intro kept
    show (Native.callBack (kept.head?.getD .null) [] .unknown .finish).Asks Request.IsCall
    cases kept.head?.getD .null with
    | closure c => exact ⟨trivial, fun _ => trivial⟩
    | _ => trivial

/-- If what is kept leads inside, then so does what the natives call. -/
theorem rememberingHost_stays (Inside : ScopeId → Prop) :
    rememberingHost.Stays Inside (Value.Within Inside) := by
  intro native hnative lookup hlookup
  simp only [rememberingHost, List.mem_cons, List.not_mem_nil, or_false] at hnative
  obtain rfl | rfl := hnative
  · have hf := Native.argument_of hlookup trivial "f"
    exact fun kept hkept => ⟨List.forall_mem_cons.mpr ⟨hf, hkept⟩, trivial⟩
  · refine fun kept hkept => ⟨hkept, .callBack (fun c hc => ⟨?_, List.forall_mem_nil _, trivial⟩)
      (fun _ => trivial) fun _ ha => ha⟩
    cases kept with
    | nil => cases hc
    | cons v _ => exact (show v = .closure c from hc) ▸ hkept v List.mem_cons_self

/-- Called by a native that has kept it, the function changes the `x` of the scope that it was made
in. The other `x` stays as it is, and it makes no difference which of the two is active or what the
other one holds. -/
theorem call_lexical_rivalRoots :
    let call := rememberingHost.serve 2 (.call poking [] ⟨1, 1⟩ "poke")
    let before (n : Int32) := rivalRoots n (increment 0)
    let found := fun (i : ScopeId) (r : Eval.Result Value) =>
      (r.state.store.lookup i "x").map Value.display
    found 0 (call (before 5)) = some "2" ∧
      found 1 (call (before 5)) = some "5" ∧
      call { before 5 with stack := [0] } =
        (call (before 5)).withState { (call (before 5)).state with stack := [0] } ∧
      call (before 7) = (call (before 5)).withState (call (before 7)).state := by
  intro call before found
  obtain ⟨hstack, hinside⟩ := call_lexical rememberingHost_asks 2 poking [] ⟨1, 1⟩ "poke" (before 5)
  have hagree : (before 5).Agree (· = 0) (before 7) := by
    refine ⟨rfl, fun i hi => ?_, rfl, rfl, rfl, rfl⟩
    subst hi
    rfl
  obtain ⟨hsame, _, _⟩ := hinside (· = 0) _ (rivalRoots_closed 5 _) rfl (List.forall_mem_nil _)
    (List.forall_mem_singleton.mpr (.inl rfl)) (rememberingHost_stays _) (before 7) hagree
  exact ⟨by decide +kernel, by decide +kernel, hstack [0] rfl, hsame⟩

/-- The same function, made in the second root and kept. The native does no more than call, and the
closure that is called leads to the first root only; yet the `x` of its caller is changed. So it is
if a program saves a function and calls the native in its place. -/
theorem call_changes_caller :
    let call := rememberingHost.serve 2 (.call poking [] ⟨1, 1⟩ "poke")
    let before := rivalRoots 1 (increment 1)
    rememberingHost.Asks Request.IsCall ∧ before.stack = [1] ∧
      before.store.Closed (· = 0) ∧ poking.captured = 0 ∧
      (before.store.lookup 1 "x").map Value.display = some "1" ∧
      ((call before).state.store.lookup 1 "x").map Value.display = some "2" ∧
      (run rememberingHost
        "p = () => poke(); { x = 1; save(() => x := 5); p(); x };").1.values.map Value.display =
          ["5"] :=
  ⟨rememberingHost_asks, rfl, rivalRoots_closed 1 _, rfl, by decide +kernel, by decide +kernel,
    by decide +kernel⟩

end Lumen
