import Lumen.Eval
import Lumen.Native.Workbench

/-! What natives may do.

A native sees values by name and follows a routine: it makes requests and is answered, keeps values
and finds what has been kept, and ends with a value or an error. What is required of natives is that
they do all this as they should as long as what they get to see is as it should be
(`Routine.Obeys`). The least that is required is to make no requests of some kind, whatever they get
to see (`Routine.Asks`). -/
namespace Lumen

/-! ### Requests -/

def Request.IsCall : Request → Prop
  | .call .. => True
  | .execute _ => False

/-- The call of a closure in `value` from a place in `place`, with arguments in `value`. -/
def Request.Calls (value : Value → Prop) (place : Position → Prop) : Request → Prop
  | .call c arguments p _ => value (.closure c) ∧ (∀ v ∈ arguments, value v) ∧ place p
  | .execute _ => False

/-! ### Routines -/

/-- Every request of a routine is in `Asked`, whatever the answers are. -/
def Routine.Asks (Asked : Request → Prop) : Routine → Prop
  | finish _ => True
  | write _ next => next.Asks Asked
  | keep _ next => ∀ kept, (next kept).Asks Asked
  | request r next => Asked r ∧ ∀ a, (next a).Asks Asked

theorem Routine.asks_all (routine : Routine) : routine.Asks fun _ => True := by
  induction routine with
  | finish _ => trivial
  | write _ _ ih => exact ih
  | keep _ _ ih => exact ih
  | request _ _ ih => exact ⟨trivial, ih⟩

/-- An answer in `value`, or an error in `error`. -/
def Answers (value : Value → Prop) (error : Error → Prop) : Except Error Value → Prop
  | .ok v => value v
  | .error e => error e

theorem Answers.mono {value value' : Value → Prop} {error : Error → Prop}
    {a : Except Error Value} (h : Answers value error a) (hvalue : ∀ v, value v → value' v) :
    Answers value' error a := by
  cases a with
  | ok v => exact hvalue v h
  | error e => exact h

/-- A routine that makes no requests but those in `asked`, keeps no values but those in `keeps`, and
ends with a value in `value` or an error in `error`, as long as it is answered with such and finds no
other values kept. -/
def Routine.Obeys (value keeps : Value → Prop) (error : Error → Prop) (asked : Request → Prop) :
    Routine → Prop
  | finish r => Answers value error r
  | write _ next => next.Obeys value keeps error asked
  | keep update next => ∀ kept : List Value, (∀ v ∈ kept, keeps v) →
    (∀ v ∈ update kept, keeps v) ∧ (next kept).Obeys value keeps error asked
  | request r next => asked r ∧
    ∀ a, Answers value error a → (next a).Obeys value keeps error asked

section Obeys
variable {value keeps : Value → Prop} {error : Error → Prop} {asked : Request → Prop}

theorem Routine.Obeys.callBack {f : Value} {vs : List Value} {p : Position}
    (hasked : ∀ c, f = .closure c → asked (c.request vs p))
    (herror : ∀ tag : Value.Tag,
      error (.runtime .unknown (.other ("expected a closure, got " ++ tag.name))))
    {next : Except Error Value → Routine}
    (hnext : ∀ a, Answers value error a → (next a).Obeys value keeps error asked) :
    (Native.callBack f vs p next).Obeys value keeps error asked := by
  cases f with
  | closure c => exact ⟨hasked c rfl, hnext⟩
  | _ => exact hnext _ (herror _)

/-- Where there is nothing to require of values and errors, requests are all that matters. -/
theorem Routine.Asks.obeys {Asked : Request → Prop} {routine : Routine} (h : routine.Asks Asked)
    (hasked : ∀ r, Asked r → asked r) (hvalue : ∀ v, value v) (hkeeps : ∀ v, keeps v)
    (herror : ∀ e, error e) : routine.Obeys value keeps error asked := by
  induction routine with
  | finish r =>
    cases r with
    | ok v => exact hvalue v
    | error e => exact herror e
  | write _ _ ih => exact ih h
  | keep _ _ ih => exact fun kept _ => ⟨fun v _ => hkeeps v, ih kept (h kept)⟩
  | request _ _ ih => exact ⟨hasked _ h.1, fun a _ => ih a (h.2 a)⟩

theorem Native.argument_of {lookup : String → Option Value}
    (hlookup : ∀ name v, lookup name = some v → value v) (hnull : value .null) (name : String) :
    value (argument lookup name) := by
  unfold argument
  cases hname : lookup name with
  | none => exact hnull
  | some v => exact hlookup name v hname

end Obeys

/-! ### Hosts -/

namespace Host
variable {host : Host}

/-- Every request of the natives is in `Asked`. -/
def Asks (host : Host) (Asked : Request → Prop) : Prop :=
  ∀ native ∈ host.natives, ∀ lookup, (native.body lookup).Asks Asked

/-- The natives follow such routines, as long as they see no values but those in `value`. -/
def Obeys (host : Host) (value keeps : Value → Prop) (error : Error → Prop)
    (asked : Request → Prop) : Prop :=
  ∀ native ∈ host.natives, ∀ lookup : String → Option Value,
    (∀ name v, lookup name = some v → value v) →
      (native.body lookup).Obeys value keeps error asked

/-- A native that has been registered follows its routine, and one that has not answers null. -/
theorem routine_cases (host : Host) (n : NativeRef) :
    (∃ native ∈ host.natives, ∀ lookup, host.routine n lookup = native.body lookup) ∨
      ∀ lookup, host.routine n lookup = .answer .null := by
  cases hn : n.slot.bind (host.natives[·]?) with
  | none => exact .inr fun lookup => by simp only [routine, hn]
  | some native =>
    obtain ⟨slot, _, hslot⟩ := Option.bind_eq_some_iff.mp hn
    exact .inl ⟨native, List.mem_of_getElem? hslot, fun lookup => by simp only [routine, hn]⟩

theorem Asks.routine {Asked : Request → Prop} (h : host.Asks Asked) (n : NativeRef)
    (lookup : String → Option Value) : (host.routine n lookup).Asks Asked := by
  obtain ⟨native, hnative, heq⟩ | heq := host.routine_cases n
  · rw [heq]
    exact h native hnative lookup
  · rw [heq]
    trivial

theorem asks_all (host : Host) : host.Asks fun _ => True :=
  fun native _ lookup => (native.body lookup).asks_all

theorem Obeys.routine {value keeps : Value → Prop} {error : Error → Prop} {asked : Request → Prop}
    (h : host.Obeys value keeps error asked) (hnull : value .null) (n : NativeRef)
    {lookup : String → Option Value} (hlookup : ∀ name v, lookup name = some v → value v) :
    (host.routine n lookup).Obeys value keeps error asked := by
  obtain ⟨native, hnative, heq⟩ | heq := host.routine_cases n
  · rw [heq]
    exact h native hnative lookup hlookup
  · rw [heq]
    exact hnull

end Host

end Lumen
