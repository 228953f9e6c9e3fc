import Lumen.Proofs.Eval.Limits
import Lumen.Proofs.Eval.Scoping

/-! Runs do not depend on what was run before.

A session goes on with the store of the programs and calls before it, so its scopes and closures
have larger numbers than on a fresh machine, and closures that were saved still lead into the
older part. A program sees none of that: it starts from a new root that binds the natives, and
what it makes corresponds, number by number, to what it makes on an empty machine. Numbers show in
nothing but the identity of closures, which shifting them leaves as it is. So a program writes
the same lines and ends in the same way after any history (`execute_of_any_history`). -/
namespace Lumen
open Eval

/-! ### Natives that look at no numbers -/

/-- The natives look at no numbers and at nothing that they have kept: wherever the values that they
see correspond, they write the same, ask for calls that correspond and give back values that do,
however different what they have kept may be. They may tell closures apart. -/
def Host.Uniform (host : Host) : Prop :=
  ∀ L : Pairing, L.place = Eq → (∀ kept kept', L.kept kept kept') → L.Natives host

theorem Pairing.routines_callBack {L : Pairing} (hplace : L.place = Eq) {f f' : Value}
    (hf : L.Values f f') {vs vs' : List Value} (hvs : List.Forall₂ L.Values vs vs') (p : Position)
    {next next' : Except Error Value → Routine}
    (hnext : ∀ a a', a.Alike L.Errors L.Values a' → L.Routines (next a) (next' a')) :
    L.Routines (Native.callBack f vs p next) (Native.callBack f' vs' p next') := by
  have hrefl : ∀ p, L.place p p := fun p => hplace ▸ rfl
  cases hf with
  | @closure c c' hc =>
    have hfunction : c.function = c'.function := (hplace ▸ hc.function).eq
    simp only [Native.callBack, Closure.request, ← hfunction]
    exact .request (.call _ hc hvs (hrefl p)) hnext
  | _ => exact hnext _ _ (.error (.runtime _ (hrefl _)))

theorem catchingHost_uniform : catchingHost.Uniform := by
  intro L hplace _ native hnative lookup lookup' hlookup
  obtain rfl := List.mem_singleton.mp hnative
  refine Pairing.routines_callBack hplace (Pairing.values_argument hlookup "f") .nil .unknown ?_
  intro a a' ha
  cases ha with
  | ok hv => exact .finish (.ok hv)
  | error he =>
    rw [Pairing.errors_eq hplace he]
    exact .finish (.ok (.text _))

/-! ### An empty machine beside one with a history -/

/-- A program on an empty machine, paired with the same program on the machine `m`. -/
def Machine.fromScratch (m : Machine) : Pairing where
  place := Eq
  shared _ := True
  scopeShift := m.store.scopes.size
  closureShift := m.nextClosure
  left := .empty
  right := m.idle
  kept _ _ := True
  located := Pairing.located_eq
  fresh _ _ := trivial
  shifted _ _ := trivial
  depth := rfl

theorem Machine.fromScratch_heaps (m : Machine) : m.fromScratch.Heaps .empty m := by
  refine ⟨⟨(Nat.zero_add _).symm, Nat.le_refl _, fun i _ => ?_, fun i hi => ?_⟩,
    (Nat.zero_add _).symm, trivial, #[], rfl, rfl⟩
  · have hempty : m.store.scopes[i + m.store.scopes.size]? = none :=
      Array.getElem?_eq_none (Nat.le_add_left _ _)
    simp only [fromScratch, empty, Store.empty, List.getElem?_toArray, List.getElem?_nil, hempty]
    exact .none
  · exact absurd trivial hi

/-! ### Outcomes -/

/-- What can be seen of an outcome. -/
inductive Outcome.Sight where
  | value (tag : Value.Tag) (display debug : String)
  | error (e : Error)
  | exhausted
  deriving DecidableEq, Repr

def Outcome.sight : Outcome → Outcome.Sight
  | .value v => .value v.tag v.display v.debug
  | .error e => .error e
  | .exhausted => .exhausted

theorem Outcome.sight_of_alike {L : Pairing} (hplace : L.place = Eq)
    {S : Machine → Machine → Prop} {r r' : Eval.Result Value}
    (h : r.Alike S L.Unwinds L.Values r') : (ofResult r).sight = (ofResult r').sight := by
  cases h with
  | ok hv _ => simp only [ofResult, sight, hv.tag, hv.display, hv.debug]
  | error hu _ =>
    cases hu with
    | breakOut _ hp =>
      rw [hplace] at hp
      simp only [ofResult, hp]
    | error he =>
      rw [Pairing.errors_eq hplace he]
      rfl
    | exhausted => rfl

/-- On any machine, a program ends as on an empty one and adds the same lines to the output. -/
theorem Session.execute_from_scratch {host : Host} (huniform : host.Uniform) (m : Machine)
    (program : Block) :
    (execute ⟨host, m⟩ program).1.sight = (execute ⟨host, .empty⟩ program).1.sight ∧
      (execute ⟨host, m⟩ program).2.machine.output =
        m.output ++ (execute ⟨host, .empty⟩ program).2.machine.output := by
  obtain ⟨room, hroom⟩ : ∃ n, host.room = n + 1 := ⟨_, rfl⟩
  have hnatives : m.fromScratch.Natives host := huniform _ rfl fun _ _ => trivial
  have hresult := Pairing.serve_execute rfl rfl hnatives room (program.alike_self fun _ => rfl)
    m.fromScratch_heaps
  rw [execute_eq, execute_eq, hroom]
  refine ⟨(Outcome.sight_of_alike rfl hresult).symm, ?_⟩
  obtain ⟨lines, hleft, hright⟩ := hresult.state.written
  have hlines : m.fromScratch.left.output ++ lines = lines := Array.empty_append
  rw [hleft, hlines, hright]
  rfl

/-- **Runs do not depend on history.** Whatever a session has been through, a program writes the
same lines and ends as it does on a fresh session: with a value of the same type that looks the
same, or with the same error at the same place. -/
theorem execute_of_any_history (s : Session) (hasks : s.host.Asks Request.IsCall)
    (huniform : s.host.Uniform) (program : Block) :
    let fresh := (Session.start s.host).execute program
    let later := s.execute program
    later.1.sight = fresh.1.sight ∧ fresh.1.sight ≠ .exhausted ∧
      later.2.takeOutput.1 = s.takeOutput.1 ++ fresh.2.takeOutput.1 := by
  intro fresh later
  obtain ⟨hsight, houtput⟩ := Session.execute_from_scratch huniform s.machine program
  obtain ⟨hsight', houtput'⟩ := Session.execute_from_scratch huniform
    (Machine.empty.reset s.host.natives) program
  rw [Machine.reset_output] at houtput'
  refine ⟨hsight.trans hsight'.symm, ?_, ?_⟩
  · have hends := (Task.run_room hasks s.host.limit_lt_room s.host.limit_lt_room
      (.request (.execute program)) (Session.start s.host).machine).2
    have hfresh : fresh.1 = Outcome.ofResult ((Task.request (.execute program)).run s.host
        s.host.room (Session.start s.host).machine) := by
      simp only [fresh, Session.execute_eq]
      rfl
    rw [hfresh]
    generalize (Task.request (.execute program)).run s.host s.host.room _ = r at hends
    rcases r with ⟨v, m⟩ | ⟨_ | _ | _, m⟩
    · nofun
    · nofun
    · nofun
    · exact hends.elim
  · have hfresh : fresh.2.machine.output =
        (Session.execute ⟨s.host, .empty⟩ program).2.machine.output := by
      rw [show fresh.2.machine.output = _ from houtput']
      exact Array.empty_append
    simp only [Session.takeOutput, hfresh]
    rw [show later.2.machine.output = _ from houtput, Array.toList_append]

/-- A second run after one that filled the stack, on the same session, ends as the first did. -/
theorem execute_of_any_history_endlessCall :
    let first := (Session.start catchingHost).execute endlessCall
    (first.2.execute endlessCall).1.sight = first.1.sight ∧
      first.1.sight = .value .text "runtime error at 1:11: Exceeded recursion limit"
        "String(\"runtime error at 1:11: Exceeded recursion limit\")" := by
  intro first
  have hhost : first.2.host = catchingHost := by
    simp only [first, Session.execute_eq, Session.start]
  obtain ⟨hsight, _, _⟩ := execute_of_any_history first.2 (hhost ▸ catchingHost_asks)
    (hhost ▸ catchingHost_uniform) endlessCall
  rw [hhost] at hsight
  exact ⟨hsight, by decide +kernel⟩

end Lumen
