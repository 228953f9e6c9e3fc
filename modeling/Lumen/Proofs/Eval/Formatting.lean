import Lumen.Proofs.Eval.Limits
import Lumen.Proofs.Eval.Simulation
import Lumen.Proofs.Parser.Alike

/-! Formatting has no meaning.

Two sources whose tokens say the same, comments aside, have trees that differ in their places only
(`parse_alike`), and their programs run side by side on machines that differ in the places of
their functions only (`execute_alike`). A place shows in nothing but an error. So the two write
the same lines and end in the same way (`run_of_same_words`). -/
namespace Lumen
open Eval

/-! ### Trees -/

/-- Any place may stand for any other. -/
def anywhere (_ _ : Position) : Prop := True

/-- Sources that say the same are read alike. -/
theorem parse_alike {source source' : String} {ts ts' : List Token} (h : tokenize source = .ok ts)
    (h' : tokenize source' = .ok ts')
    (hwords : (Token.Stream.uncommented ts).map Token.word =
      (Token.Stream.uncommented ts').map Token.word) :
    (parse source).Alike (Error.Alike anywhere) (Block.Alike anywhere) (parse source') := by
  rw [parse_of_tokens h, parse_of_tokens h']
  refine parseTokens_alike ?_ fun _ => trivial
  have hsame : List.Forall₂ Eq ((Token.Stream.uncommented ts).map Token.word)
      ((Token.Stream.uncommented ts').map Token.word) := by
    rw [hwords, List.forall₂_eq_eq_eq]
  rw [List.forall₂_map_left_iff, List.forall₂_map_right_iff] at hsame
  exact hsame.imp fun t t' ht => ⟨ht, trivial⟩

/-! ### Programs -/

/-- Two evaluations that begin on one machine, with no scope active, and may differ in places. -/
def Machine.anyPlace (m : Machine) : Pairing where
  place := anywhere
  shared _ := True
  scopeShift := 0
  closureShift := 0
  left := { m with stack := [] }
  right := { m with stack := [] }
  kept := Eq
  located _ _ := trivial
  fresh _ _ := trivial
  shifted _ _ := trivial
  depth := rfl

/-- The natives of the command line write the same for values that correspond. -/
theorem Native.console_alike (L : Pairing) (limits : Limits) :
    L.Natives ⟨Native.console, limits⟩ := by
  intro native hnative lookup lookup' hlookup
  have hvalue := Pairing.values_argument hlookup "value"
  obtain rfl | hnative := List.mem_cons.mp hnative
  · simp only [print, hvalue.display]
    exact .write _ (.finish (.ok .null))
  · obtain rfl := List.mem_singleton.mp hnative
    simp only [debug, hvalue.debug]
    exact .write _ (.finish (.ok hvalue))

theorem Machine.anyPlace_heaps (m : Machine) : m.anyPlace.Heaps m.anyPlace.left m.anyPlace.right :=
  .start (.start ⟨fun _ => trivial, rfl, rfl⟩ rfl (Store.closed_all (fun _ => trivial) _)
    fun _ _ => rfl) rfl rfl

/-- Programs that are alike end alike and write the same. -/
theorem execute_alike {b b' : Block} (hb : b.Alike anywhere b') (limits : Limits) (room : Nat)
    (m : Machine) :
    (Host.serve ⟨Native.console, limits⟩ (room + 1) (.execute b) m).Alike
      (fun n n' => n.output = n'.output) m.anyPlace.Unwinds m.anyPlace.Values
      (Host.serve ⟨Native.console, limits⟩ (room + 1) (.execute b') m) := by
  have hresult := Pairing.serve_execute (L := m.anyPlace) rfl rfl (Native.console_alike _ limits)
    room hb m.anyPlace_heaps
  exact hresult.mono fun n n' hn => hn.output rfl

/-! ### Runs -/

/-- Outcomes that only places tell apart: values of the same type that look the same, or errors of
the same stage with the same message. -/
inductive Outcome.Same : Outcome → Outcome → Prop
  | value {v v' : Value} : v.tag = v'.tag → v.display = v'.display → v.debug = v'.debug →
    Same (.value v) (.value v')
  | error {e e' : Error} : e.Alike anywhere e' → e.message = e'.message →
    Same (.error e) (.error e')

theorem Outcome.same_of_alike {L : Pairing} (hplace : L.place = anywhere)
    {S : Machine → Machine → Prop} {r r' : Eval.Result Value} (h : r.Alike S L.Unwinds L.Values r')
    (hends : Ends r) : (ofResult r).Same (ofResult r') := by
  cases h with
  | ok hv _ => exact .value hv.tag hv.display hv.debug
  | error hu _ =>
    cases hu with
    | breakOut _ _ => exact .error (.runtime _ trivial) rfl
    | error he =>
      rw [Pairing.Errors, hplace] at he
      exact .error he he.message
    | exhausted => exact hends.elim

/-- **Formatting has no meaning.** If two sources have all their tokens, and these say the same
one by one, comments aside, then with the natives of the command line the two write the same
lines, and end with values that look the same or fail with the same cause. -/
theorem run_of_same_words {source source' : String} {ts ts' : List Token}
    (h : tokenize source = .ok ts) (h' : tokenize source' = .ok ts')
    (hwords : (Token.Stream.uncommented ts).map Token.word =
      (Token.Stream.uncommented ts').map Token.word) (limits : Limits) :
    (run ⟨Native.console, limits⟩ source).2 = (run ⟨Native.console, limits⟩ source').2 ∧
      (run ⟨Native.console, limits⟩ source).1.Same (run ⟨Native.console, limits⟩ source').1 := by
  have hparse := parse_alike h h' hwords
  rw [run_eq, run_eq]
  generalize parse source = r, parse source' = r' at hparse
  cases hparse with
  | error he => exact ⟨rfl, .error he he.message⟩
  | @ok b b' hb =>
    let host : Host := ⟨Native.console, limits⟩
    let m := Machine.empty.reset Native.console
    obtain ⟨room, hroom⟩ : ∃ n, host.room = n + 1 := ⟨_, rfl⟩
    have hresult := execute_alike hb limits room m
    rw [← hroom] at hresult
    have hends : Ends (host.serve host.room (.execute b) m) :=
      (Task.run_room (Native.console_asks limits _) host.limit_lt_room host.limit_lt_room
        (.request (.execute b)) m).2
    exact ⟨congrArg Array.toList hresult.state, Outcome.same_of_alike rfl hresult hends⟩

/-- A program that shows a function and fails inside it, on one line, and on three with a comment:
the function looks the same, and the failure has the same cause, though not the same place. -/
theorem run_of_same_words_commented :
    let source := "f = (x) => x / 0; print(f); f(1);"
    let source' := "f = ( x ) =>\n  x/0; # never\nprint (f);f(1);"
    (run ⟨Native.console, {}⟩ source).2 = [⟨.standard, "<lambda(x)>"⟩] ∧
      (run ⟨Native.console, {}⟩ source).2 = (run ⟨Native.console, {}⟩ source').2 ∧
      (run ⟨Native.console, {}⟩ source).1.Same (run ⟨Native.console, {}⟩ source').1 := by
  intro source source'
  let words (source : String) := (tokenize source).toOption.map fun ts =>
    (Token.Stream.uncommented ts).map Token.word
  have hsome : (words source).isSome := by decide +kernel
  have hwords : words source = words source' := by decide +kernel
  have hlines : (run ⟨Native.console, {}⟩ source).2 = [⟨.standard, "<lambda(x)>"⟩] := by
    decide +kernel
  simp only [words] at hsome hwords
  cases h : tokenize source with
  | error e =>
    rw [h] at hsome
    cases hsome
  | ok ts =>
    cases h' : tokenize source' with
    | error e =>
      rw [h, h'] at hwords
      cases hwords
    | ok ts' =>
      rw [h, h'] at hwords
      exact ⟨hlines, run_of_same_words h h' (Option.some.inj hwords) {}⟩

end Lumen
