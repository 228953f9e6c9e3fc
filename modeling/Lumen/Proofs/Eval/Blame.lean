import Lumen.Native.Memory
import Lumen.Proofs.Eval.Conduct
import Lumen.Proofs.Eval.Limits
import Lumen.Proofs.Parser.Places

/-! Every error points into the source.

The errors of a program stand at its nodes, and those are at tokens of the source. A native knows
of no places: it fails at none, and when it calls a closure back, it does so from none. An error of
that kind is passed on, through as many natives as there are, until it comes to a call that the
program makes itself, and takes the place of that call (`serve_call_located`). From then on it has a
place and keeps it. So no error leaves a run without a place in the source
(`errors_point_into_source`). -/
namespace Lumen
open Eval

/-! ### Errors with a place -/

/-- A runtime error at one of the places. -/
def Error.RaisedAt (Place : Position → Prop) : Error → Prop
  | .runtime p _ => Place p
  | _ => False

namespace Error

theorem RaisedAt.mono {Place Place' : Position → Prop} {e : Error} (h : e.RaisedAt Place)
    (hplace : ∀ p, Place p → Place' p) : e.RaisedAt Place' := by
  cases e with
  | runtime p cause => exact hplace p h
  | _ => exact h.elim

theorem IsOrdinaryAt.raisedAt {Place : Position → Prop} {p : Position} {e : Error}
    (h : e.IsOrdinaryAt p) (hp : Place p) : e.RaisedAt Place := by
  cases e with
  | runtime q cause => exact h.1 ▸ hp
  | _ => exact h.elim

/-- An error that has a place or is given one. -/
theorem RaisedAt.locatedAt {Place : Position → Prop} {p : Position} {e : Error}
    (h : e.RaisedAt fun q => Place q ∨ q.isUnknown) (hp : Place p) :
    (e.locatedAt p).RaisedAt Place := by
  cases e with
  | runtime q cause =>
    show Place (if q.isUnknown then p else q)
    split
    · exact hp
    · next hq => exact h.resolve_right hq
  | _ => exact h.elim

theorem RaisedAt.locatedAt_eq {Place : Position → Prop} {e : Error} (h : e.RaisedAt Place)
    (hknown : ∀ p, Place p → p.isUnknown = false) (p : Position) : e.locatedAt p = e := by
  cases e with
  | runtime q cause => simp only [Error.locatedAt, hknown q h, Bool.false_eq_true, if_false]
  | _ => rfl

/-- To leave the place open first makes no difference. -/
theorem locatedAt_unknown (e : Error) (p : Position) :
    (e.locatedAt .unknown).locatedAt p = e.locatedAt p := by
  cases e with
  | runtime q cause =>
    by_cases hq : q.isUnknown
    · simp only [locatedAt, hq, if_true]
      rfl
    · simp only [locatedAt, hq, if_false, Bool.false_eq_true]
  | _ => rfl

end Error

/-- No function, or one whose nodes stand in `Place`. -/
def Value.Placed (Place : Position → Prop) : Value → Prop :=
  Value.Over fun c => c.function.Alike (fun p _ => Place p) c.function

/-- Code whose nodes stand in `Place`, with natives that know of no places. -/
def Policy.placed (Place : Position → Prop) : Policy where
  base := 0
  place := Place
  stray _ := True
  asked p := p.isUnknown
  kept := Value.Placed Place
  raised := Error.RaisedAt Place
  passed := Error.RaisedAt fun p => Place p ∨ p.isUnknown
  strayed hp _ := hp
  code hp := ⟨fun _ he => he.raisedAt hp, fun _ he => he, fun _ he => he.locatedAt hp⟩
  native hp := ⟨fun _ he => he.raisedAt (.inr hp), fun _ he => he.mono fun _ => .inl,
    fun _ he => (he.mono fun _ h => .inl h).locatedAt (.inr hp)⟩

/-- The natives know of no places: they call back from none, their own errors are runtime errors at
none, and they have no functions whose nodes have places, but those that they are given and those
that they have kept of these. They do nothing else with the interpreter than to call. -/
def Host.Placeless (host : Host) : Prop :=
  ∀ Place : Position → Prop,
    host.Obeys (Value.Placed Place) (Value.Placed Place)
      (Error.RaisedAt fun p => Place p ∨ p.isUnknown)
      (Request.Calls (Value.Placed Place) fun p => p.isUnknown)

theorem Host.Placeless.natives {host : Host} (h : host.Placeless) (Place : Position → Prop) :
    (Policy.placed Place).Natives host := by
  have hknown : (Policy.placed Place).Known =
      fun c => c.function.Alike (fun p _ => Place p) c.function := by
    funext c
    exact propext ⟨fun hc => hc.function.places, fun hc => ⟨⟨hc, fun _ _ => trivial⟩, Nat.zero_le _⟩⟩
  unfold Policy.Natives Policy.Knows
  rw [hknown]
  exact h Place

/-! ### The place of a call -/

theorem Eval.locatedAt_within (limits : Limits) (parent : ScopeId) (bs : Bindings) (p : Position)
    (body : Eval Value) :
    locatedAt p (within limits parent bs .unknown body) =
      within limits parent bs p (locatedAt p body) := by
  funext m
  by_cases hfull : limits.maxDepth ≤ m.stack.length
  · rw [within_of_full hfull]
    simp only [locatedAt, within_of_full hfull]
    rfl
  · rw [within_of_room hfull]
    simp only [locatedAt, within_of_room hfull]
    rcases body (m.enter parent bs) with ⟨v, m'⟩ | ⟨_ | _ | _, m'⟩ <;> rfl

theorem Eval.within_congr {limits : Limits} {parent : ScopeId} {bs : Bindings} {p : Position}
    {body body' : Eval Value} {m : Machine}
    (h : body (m.enter parent bs) = body' (m.enter parent bs)) :
    within limits parent bs p body m = within limits parent bs p body' m := by
  by_cases hfull : limits.maxDepth ≤ m.stack.length
  · rw [within_of_full hfull, within_of_full hfull]
  · rw [within_of_room hfull, within_of_room hfull, h]

theorem Eval.locatedAt_locatedAt (p : Position) (c : Eval Value) :
    locatedAt p (locatedAt .unknown c) = locatedAt p c := by
  funext m
  unfold locatedAt
  rcases c m with ⟨v, m'⟩ | ⟨_ | e | _, m'⟩
  · rfl
  · rfl
  · simp only [e.locatedAt_unknown]
  · rfl

section Calls
variable {host : Host} (hplaceless : host.Placeless) {Place : Position → Prop}
  (hknown : ∀ p, Place p → p.isUnknown = false)
include hknown

/-- The place of a call matters to the native that it runs, and not to the code. -/
theorem Host.body_located {serve : Request → Eval Value}
    (hserve : (Policy.placed Place).Serves serve) {f : Function}
    (hf : (Policy.placed Place).Code f) (p : Position) {m : Machine}
    (hm : (Policy.placed Place).Fits m) :
    host.body serve p f m = locatedAt p (host.body serve .unknown f) m := by
  cases f with
  | lambda f =>
    have hbody := Policy.ensures_lambda hserve hf host.limits m hm
    simp only [Host.body, locatedAt]
    generalize boundary (f.body.exec host.limits serve) m = r at hbody
    rcases r with ⟨v, m'⟩ | ⟨_ | e | _, m'⟩
    · rfl
    · rfl
    · simp only [Error.RaisedAt.locatedAt_eq hbody.1 hknown]
    · rfl
  | native n => rw [Host.body_native, Host.body_native, locatedAt_locatedAt]

include hplaceless

/-- **A call gives its place to the errors that have none.** A call from the place `p` does what it
would do from none, and then gives `p` to the error that may come of it, unless this has a place. -/
theorem Host.serve_call_located (room : Nat) {c : Closure} (hc : (Policy.placed Place).Known c)
    {vs : List Value} (hvs : ∀ v ∈ vs, (Policy.placed Place).Knows v) (p : Position)
    (label : String) {m : Machine} (hm : (Policy.placed Place).Fits m) :
    host.serve room (.call c vs p label) m =
      locatedAt p (host.serve room (.call c vs .unknown label)) m := by
  cases room with
  | zero => rfl
  | succ room =>
    have hserve := Policy.serves_serve (hplaceless.natives Place) room
    have henter : (Policy.placed Place).Fits
        (m.enter c.captured (.ofArguments c.parameters vs)) :=
      hm.enter hc.captured (.ofArguments _ hvs)
    rw [serve, serve, call, call]
    split
    · rfl
    · -- A call that is refused for want of room takes the place too.
      rw [locatedAt_within]
      exact within_congr (body_located hknown hserve hc.function p henter)

end Calls

/-! ### Runs -/

/-- A program that fails on a machine of its own fails at one of its nodes. -/
theorem Host.execute_raisedAt {host : Host} (hplaceless : host.Placeless)
    {Place : Position → Prop} {program : Block}
    (hplaces : program.Alike (fun p _ => Place p) program) (room : Nat) {e : Error}
    (he : Outcome.ofResult (host.serve room (.execute program)
      (Machine.empty.reset host.natives)) = .error e) : e.RaisedAt Place := by
  let P := Policy.placed Place
  have hempty : P.Stored Machine.empty.store := ⟨Nat.zero_le _, nofun, nofun⟩
  have hstart : P.Fits (Machine.empty.reset host.natives) := hempty.reset nofun host.natives
  have hprogram := P.serve_execute (hplaceless.natives _) room hplaces (fun _ _ => trivial)
    hstart.store hstart.kept
  generalize host.serve room (.execute program) _ = r at he hprogram
  rcases r with ⟨v, m⟩ | ⟨_ | e' | _, m⟩
  · cases he
  · exact hprogram.1.2.elim
  · obtain rfl := Outcome.error.inj he
    exact hprogram.1
  · cases he

/-- A host with natives that keep a closure, call what is kept, call a closure and fail. -/
def failingHost : Host := ⟨[Native.save, Native.poke, Native.apply, Native.fail], {}⟩

theorem failingHost_placeless : failingHost.Placeless := by
  intro Place native hnative lookup hlookup
  have hargument := Native.argument_of hlookup trivial
  simp only [failingHost, List.mem_cons, List.not_mem_nil, or_false] at hnative
  obtain rfl | rfl | rfl | rfl := hnative
  · exact fun kept hkept => ⟨List.forall_mem_cons.mpr ⟨hargument "f", hkept⟩, trivial⟩
  · refine fun kept hkept => ⟨hkept, .callBack (fun c hc => ⟨?_, List.forall_mem_nil _, rfl⟩)
      (fun _ => .inr rfl) fun a ha => ha⟩
    cases kept with
    | nil => cases hc
    | cons v _ => exact (show v = .closure c from hc) ▸ hkept v List.mem_cons_self
  · exact .callBack
      (fun c hc => ⟨hc ▸ hargument "f", List.forall_mem_singleton.mpr (hargument "x"), rfl⟩)
      (fun _ => .inr rfl) fun a ha => ha
  · exact .inr rfl

/-- The function of the text `\n\n() => y;`. -/
def foreignFunction : Lambda := ⟨[], .expression (.reference "y" ⟨3, 7⟩), ⟨3, 1⟩⟩

/-- A host with a native that answers this function, in the first scope of the machine. -/
def foreignHost : Host :=
  ⟨[⟨"make", [], fun _ => .answer (.closure ⟨0, .lambda foreignFunction, 0⟩)⟩], {}⟩

end Lumen
