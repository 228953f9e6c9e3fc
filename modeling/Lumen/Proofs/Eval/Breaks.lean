import Lumen.Proofs.Eval.Conduct
import Lumen.Proofs.Eval.Limits
import Lumen.Proofs.Parser.Places

/-! Breaks are lexical.

A break leaves a loop of its own function, in whose guard or body it stands. A break that stands in
none ends its function with an error, at the place of the break; that the function was called from
a loop, directly or by a native, makes no difference. So this error always comes from one of the
breaks that can be found in the program beforehand (`breaks_are_lexical`). -/
namespace Lumen
open Eval

/-! ### Errors of stray breaks -/

/-- The words of a stray break begin like those of no ordinary cause. -/
theorem RuntimeCause.IsOrdinary.message_ne {cause : RuntimeCause} (h : cause.IsOrdinary) :
    cause.message ≠ strayBreak.message := by
  have hfirst : cause.message.toList.head? ≠ some 'B' := by
    delta message
    cases cause with
    | strayBreak => exact h.elim
    | other words => exact h.elim
    | _ => simp
  intro heq
  rw [heq] at hfirst
  exact hfirst (by decide +kernel)

/-- If it is the error of a stray break, then it stands where one of the `strays` stands, unless
that one has no place. -/
def Error.StraysFrom (strays : Position → Prop) (e : Error) : Prop :=
  e.message = RuntimeCause.strayBreak.message →
    ∃ p, strays p ∧ (e.position? = some p ∨ p.isUnknown)

theorem Error.StraysFrom.locatedAt {strays : Position → Prop} {e : Error}
    (h : e.StraysFrom strays) (q : Position) : (e.locatedAt q).StraysFrom strays := by
  cases e with
  | runtime place cause =>
    intro hmessage
    obtain ⟨p, hp, hplace⟩ := h hmessage
    refine ⟨p, hp, ?_⟩
    by_cases hunknown : place.isUnknown
    · refine .inr (hplace.elim (fun heq => ?_) id)
      exact Option.some.inj heq ▸ hunknown
    · rw [Error.locatedAt, if_neg hunknown]
      exact hplace
  | _ => exact h

/-! ### Policies -/

/-- The natives hold no closures, do nothing but call those that they get, whatever has been kept,
and raise no error in the words of `message` but those that calls have raised to them. -/
def Host.Relays (host : Host) (message : String) : Prop :=
  ∀ (Known : Closure → Prop) (Raised : Error → Prop), (∀ e, e.message ≠ message → Raised e) →
    host.Obeys (Value.Over Known) (fun _ => True) Raised
      (Request.Calls (Value.Over Known) fun _ => True)

namespace Policy

/-- Code whose stray breaks are those of a program, and that reaches the scopes from `base` on. -/
def lexical (program : Block) (place : Position → Prop) (base : ScopeId) : Policy :=
  let strays := fun p => place p ∧ p ∈ program.strayBreaks false
  have hblames : ∀ p, Blames (Error.StraysFrom strays) (Error.StraysFrom strays)
      (Error.StraysFrom strays) p := by
    intro p
    refine ⟨fun e he hmessage => ?_, fun _ he => he, fun e he => he.locatedAt p⟩
    cases e with
    | runtime q cause => exact absurd hmessage he.2.message_ne
    | _ => exact he.elim
  { base
    place
    stray := (· ∈ program.strayBreaks false)
    asked := fun _ => True
    kept := fun _ => True
    raised := Error.StraysFrom strays
    passed := Error.StraysFrom strays
    strayed := fun {p} hp hstray _ => ⟨p, ⟨hp, hstray⟩, .inl rfl⟩
    code := fun _ => hblames _
    native := fun _ => hblames _ }

/-- Any code at all. -/
def anything : Policy where
  base := 0
  place _ := True
  stray _ := True
  asked _ := True
  kept _ := True
  raised _ := True
  passed _ := True
  strayed _ _ := trivial
  code _ := ⟨fun _ _ => trivial, fun _ _ => trivial, fun _ _ => trivial⟩
  native _ := ⟨fun _ _ => trivial, fun _ _ => trivial, fun _ _ => trivial⟩

theorem anything_known (c : Closure) : anything.Known c :=
  ⟨⟨.self (fun _ => trivial) _, fun _ _ => trivial⟩, Nat.zero_le _⟩

theorem anything_knows (v : Value) : anything.Knows v := by
  cases v with
  | closure c => exact anything_known c
  | _ => trivial

theorem anything_stored (s : Store) : anything.Stored s :=
  ⟨Nat.zero_le _, fun _ _ _ _ _ _ => Nat.zero_le _, fun _ _ _ _ b _ => anything_knows b.2⟩

end Policy

section Host
variable {host : Host} (hrelays : host.Relays RuntimeCause.strayBreak.message)
include hrelays

/-- No break crosses a call. -/
theorem Host.serve_unbroken (room : Nat) (r : Request) (m : Machine) (v : Value) (p : Position)
    (m' : Machine) : host.serve room r m ≠ .error (.breakOut v p) m' := by
  intro hbroken
  have hnatives : Policy.anything.Natives host := hrelays _ _ fun _ _ => trivial
  cases r with
  | call c vs q label =>
    have hcall := Policy.serves_serve hnatives room c vs q label _ (Policy.anything_known c)
      (fun v _ => Policy.anything_knows v) (Policy.anything.code trivial) m
      ⟨Policy.anything_stored _, fun _ _ => Nat.zero_le _, fun _ _ => trivial⟩
    rw [hbroken] at hcall
    exact hcall.1.2
  | execute program =>
    have hprogram := Policy.serve_execute hnatives room (program.alike_self fun _ => trivial)
      (fun _ _ => trivial) (Policy.anything_stored m.store) fun _ _ => trivial
    rw [hbroken] at hprogram
    exact hprogram.1.2

/-- The error of a stray break comes from one of the stray breaks of the program. -/
theorem Session.strays_of_execute {s : Session} (hs : s.host = host) {program : Block}
    {place : Position → Prop} (hplaces : program.Alike (fun p _ => place p) program) {e : Error}
    (he : (s.execute program).1 = .error e) :
    e.StraysFrom fun p => place p ∧ p ∈ program.strayBreaks false := by
  subst hs
  let P := Policy.lexical program place s.machine.store.scopes.size
  have hnatives : P.Natives s.host := hrelays _ _ fun e he heq => absurd heq he
  -- The program starts afresh, so it reaches none of the scopes that there are.
  have hnone : ∀ {i : ScopeId} {scope : Scope}, s.machine.store.scopes.size ≤ i →
      s.machine.store.scopes[i]? ≠ some scope := by
    intro i scope hi
    rw [Array.getElem?_eq_none hi]
    nofun
  have hprogram := P.serve_execute hnatives s.host.room hplaces (fun _ hp => hp)
    (m := s.machine) ⟨Nat.le_refl _, fun _ _ hi h => absurd h (hnone hi),
      fun _ _ hi h => absurd h (hnone hi)⟩ fun _ _ => trivial
  rw [execute_eq] at he
  dsimp only at he
  generalize s.host.serve s.host.room (.execute program) s.machine = r at he hprogram
  rcases r with ⟨v, m⟩ | ⟨_ | e' | _, m⟩
  · cases he
  · exact hprogram.1.2.elim
  · obtain rfl : e' = e := Outcome.error.inj he
    exact hprogram.1
  · cases he

end Host

/-- **Breaks are lexical.** If a program ends with the error of a break outside of a loop, then the
error stands at a break of the program that is in no loop of its own function; only a break without
a place, which no source has, takes another. So a program without such breaks never ends like that.
And no break crosses a call. -/
theorem breaks_are_lexical (s : Session) (hrelays : s.host.Relays "Break outside of loop")
    (program : Block) :
    (∀ e, (s.execute program).1 = .error e → e.message = "Break outside of loop" →
      ∃ p ∈ program.strayBreaks false, e.position? = some p ∨
        p.isUnknown ∧ ∀ source, parse source ≠ .ok program) ∧
    (program.strayBreaks false = [] →
      ∀ e, (s.execute program).1 = .error e → e.message ≠ "Break outside of loop") ∧
    ∀ room r m v p m', s.host.serve room r m ≠ .error (.breakOut v p) m' := by
  have hfrom : ∀ e, (s.execute program).1 = .error e → e.message = "Break outside of loop" →
      ∃ p ∈ program.strayBreaks false, e.position? = some p ∨
        p.isUnknown ∧ ∀ source, parse source ≠ .ok program := by
    intro e he hmessage
    by_cases hsource : ∃ source, parse source = .ok program
    · obtain ⟨source, hparse⟩ := hsource
      have hplaces := parse_places source
      rw [hparse] at hplaces
      obtain ⟨ts, htokens, hplaces⟩ := hplaces
      obtain ⟨p, ⟨⟨t, ht, rfl⟩, hp⟩, hplace⟩ :=
        Session.strays_of_execute hrelays rfl hplaces he hmessage
      have hknown := isUnknown_of_pointsInto (pointsInto_of_token htokens ht)
      exact ⟨t.position, hp, .inl (hplace.resolve_right (by simp [hknown]))⟩
    · have hplaces : program.Alike (fun _ _ => True) program :=
        program.alike_self fun _ => trivial
      obtain ⟨p, ⟨_, hp⟩, hplace⟩ := Session.strays_of_execute hrelays rfl hplaces he hmessage
      exact ⟨p, hp, hplace.imp_right fun h => ⟨h, not_exists.mp hsource⟩⟩
  refine ⟨hfrom, fun hnone e he hmessage => ?_, s.host.serve_unbroken hrelays⟩
  obtain ⟨p, hp, _⟩ := hfrom e he hmessage
  rw [hnone] at hp
  cases hp

/-- A host whose only native calls a closure. -/
def applyingHost : Host := ⟨[Native.apply], {}⟩

theorem applyingHost_relays : applyingHost.Relays "Break outside of loop" := by
  intro Known Raised hraised native hnative lookup hlookup
  obtain rfl := List.mem_singleton.mp hnative
  have hargument := Native.argument_of hlookup trivial
  refine .callBack (fun c hc => ?_) (fun tag => hraised _ ?_) fun a ha => ha
  · exact ⟨hc ▸ hargument "f", List.forall_mem_singleton.mpr (hargument "x"), trivial⟩
  · cases tag <;> decide +kernel

/-- A function that breaks is called in a loop, by a native. Its break does not leave the loop, and
the error stands at the break. -/
theorem breaks_are_lexical_applied :
    let source := "loop true apply((x) => break x, 1);"
    ∃ program, parse source = .ok program ∧ ⟨1, 24⟩ ∈ program.strayBreaks false ∧
      ((Session.start applyingHost).execute program).1 =
        .error (.runtime ⟨1, 24⟩ .strayBreak) := by
  intro source
  have hread : (parse source).isOk := by decide +kernel
  have hrun : (run applyingHost source).1.error? = some (.runtime ⟨1, 24⟩ .strayBreak) := by
    decide +kernel
  cases hparse : parse source with
  | error e =>
    rw [hparse] at hread
    cases hread
  | ok program =>
    have hends : ((Session.start applyingHost).execute program).1 =
        .error (.runtime ⟨1, 24⟩ .strayBreak) := by
      simp only [run, Session.run, hparse] at hrun
      exact Outcome.eq_error hrun
    obtain ⟨p, hp, hplace⟩ := (breaks_are_lexical (Session.start applyingHost)
      applyingHost_relays program).1 _ hends rfl
    obtain hplace | ⟨_, hnone⟩ := hplace
    · obtain rfl := Option.some.inj hplace
      exact ⟨program, rfl, hp, hends⟩
    · exact absurd hparse (hnone source)

end Lumen
