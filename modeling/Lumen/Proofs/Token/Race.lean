import Lumen.Token.Lexer

/-! The race of the automata.

Every automaton runs on its own: it takes no notice of the others. So a race is decided by
what each of its runners does alone on the text that is left: which fault it runs into
(`Automaton.faultOn`), and which beginnings of the text it accepts (`Automaton.accept`).
If some runner meets a fault, the race ends with it (`Lexer.race_of_fault`); if none does,
the winner is the first runner to accept the longest beginning that one of them accepts
(`Lexer.race_of_no_fault`). -/
namespace Lumen
open Token

/-! ### One runner -/

def Token.Status.fault? : Status → Option Fault
  | .fault f => some f
  | _ => none

namespace Token.Automaton

/-- What one symbol leaves of an automaton: nothing, or its next state and whether it has
accepted what it has read. -/
def advance (a : Automaton) (s : Symbol) : Option (Automaton × Bool) :=
  match a.step s with
  | (next, .possible) => some (next, false)
  | (next, .completed) => some (next, true)
  | _ => none

theorem advance_of_deny {a : Automaton} {s : Symbol} (h : (a.step s).2 = .deny) :
    a.advance s = none := by
  unfold advance
  split <;> simp_all

/-- The state in which an automaton accepts a text, if it does; `accepted` says whether it
has accepted all that it has read before. -/
def accept : Automaton → (accepted : Bool) → List Symbol → Option Automaton
  | a, accepted, [] => if accepted then some a else none
  | a, _, s :: rest => (a.advance s).bind fun (next, accepted) => next.accept accepted rest

theorem accept_of_advance {a next : Automaton} {accepted : Bool} {s : Symbol}
    (h : a.advance s = some (next, accepted)) (before : Bool) (rest : List Symbol) :
    a.accept before (s :: rest) = next.accept accepted rest := by
  rw [accept, h]
  rfl

theorem accept_of_deny {a : Automaton} {s : Symbol} (h : (a.step s).2 = .deny) (before : Bool)
    (rest : List Symbol) : a.accept before (s :: rest) = none := by
  rw [accept, advance_of_deny h]
  rfl

/-- The fault that an automaton runs into on a text or on the end after it. -/
def faultOn : Automaton → List Symbol → Option Fault
  | a, [] => (a.step .endOfText).2.fault?
  | a, s :: rest => (a.step s).2.fault?.or ((a.advance s).bind fun (next, _) => next.faultOn rest)

theorem faultOn_of_step {a : Automaton} {s : Symbol} {f : Fault}
    (h : (a.step s).2.fault? = some f) (rest : List Symbol) : a.faultOn (s :: rest) = some f := by
  rw [faultOn, h]
  rfl

theorem faultOn_of_deny {a : Automaton} {s : Symbol} (h : (a.step s).2 = .deny)
    (rest : List Symbol) : a.faultOn (s :: rest) = none := by
  rw [faultOn, h, advance_of_deny h]
  rfl

theorem faultOn_of_advance {a next : Automaton} {accepted : Bool} {s : Symbol}
    (h : a.advance s = some (next, accepted)) (rest : List Symbol) :
    a.faultOn (s :: rest) = next.faultOn rest := by
  have hquiet : (a.step s).2.fault? = none := by
    unfold advance at h
    split at h <;> simp_all [Status.fault?]
  rw [faultOn, hquiet, h]
  rfl

end Token.Automaton

/-! ### One round -/

namespace Lexer

/-- What one symbol leaves of the runners. -/
def survivors (s : Symbol) (live : List Automaton) : List Automaton :=
  live.filterMap fun a => (a.advance s).map (·.1)

theorem mem_survivors {s : Symbol} {live : List Automaton} {b : Automaton} :
    b ∈ survivors s live ↔ ∃ a ∈ live, ∃ accepted, a.advance s = some (b, accepted) := by
  simp [survivors]

/-- The first fault that some runner meets at a symbol. -/
def faultAt (s : Symbol) (live : List Automaton) : Option Fault :=
  live.findSome? fun a => (a.step s).2.fault?

theorem feed_eq (s : Symbol) (live : List Automaton) :
    feed s live = match faultAt s live with
      | some f => .error f
      | none => .ok ⟨survivors s live, live.findSome? (·.accept false [s])⟩ := by
  induction live with
  | nil => rfl
  | cons a rest ih =>
    rw [feed, faultAt, survivors, List.findSome?_cons, List.filterMap_cons, List.findSome?_cons, ih]
    simp only [Automaton.accept, Automaton.advance, faultAt, survivors]
    obtain ⟨next, status⟩ := a.step s
    cases status with
    | fault f => rfl
    | deny => rfl
    | possible => cases rest.findSome? _ <;> rfl
    | completed => cases rest.findSome? _ <;> rfl

/-! ### The whole race -/

/-- If some runner meets a fault, and no runner meets another one, the race ends with it. -/
theorem race_of_fault {f : Fault} {a : Automaton} {live : List Automaton} {items : List Scanned}
    (ha : a ∈ live) (hf : a.faultOn (items.map (·.symbol)) = some f)
    (hall : ∀ b ∈ live, ∀ g, b.faultOn (items.map (·.symbol)) = some g → g = f)
    (best : Best) (used : Nat) : (race live best used items).1 = .error f := by
  induction items generalizing live best used a with
  | nil =>
    rw [race, feed_eq]
    cases hfault : faultAt .endOfText live with
    | none => exact absurd (hf.symm.trans (List.findSome?_eq_none_iff.mp hfault a ha)) nofun
    | some g =>
      obtain ⟨b, hb, hg⟩ := List.exists_of_findSome?_eq_some hfault
      rw [hall b hb g hg]
  | cons s rest ih =>
    rw [race, if_neg (by simp [List.ne_nil_of_mem ha]), feed_eq]
    cases hfault : faultAt s.symbol live with
    | some g =>
      obtain ⟨b, hb, hg⟩ := List.exists_of_findSome?_eq_some hfault
      rw [hall b hb g (Automaton.faultOn_of_step hg _)]
    | none =>
      -- The runner gets past this symbol, and its fault is still ahead.
      have hquiet := List.findSome?_eq_none_iff.mp hfault a ha
      rw [List.map_cons, Automaton.faultOn, hquiet, Option.none_or] at hf
      obtain ⟨⟨next, accepted⟩, hnext, hf⟩ := Option.bind_eq_some_iff.mp hf
      refine ih (mem_survivors.mpr ⟨a, ha, accepted, hnext⟩) hf (fun b' hb' g hg => ?_) _ _
      obtain ⟨b, hb, _, hb'⟩ := mem_survivors.mp hb'
      exact hall b hb g (by rw [List.map_cons, Automaton.faultOn_of_advance hb', hg])

/-- The first runner that accepts the longest beginning of `w`, of at most `n` symbols,
that some runner accepts, and how long that is. -/
def winner (live : List Automaton) (w : List Symbol) : Nat → Best
  | 0 => none
  | n + 1 => ((live.findSome? (·.accept false (w.take (n + 1)))).map (·, n + 1)).or (winner live w n)

/-- How many symbols a runner has accepted, counted from earlier on. -/
def Best.later (best : Best) (k : Nat) : Best := best.map fun (a, n) => (a, n + k)

/-- Whoever accepts more than one symbol accepts the rest of them after the first one. -/
theorem findSome?_survivors (live : List Automaton) (s x : Symbol) (w : List Symbol) :
    (survivors s live).findSome? (·.accept false (x :: w)) =
      live.findSome? (·.accept false (s :: x :: w)) := by
  induction live with
  | nil => rfl
  | cons a live ih =>
    rw [survivors] at ih ⊢
    rw [List.filterMap_cons, List.findSome?_cons, ← ih, Automaton.accept]
    rcases a.advance s with _ | ⟨next, accepted⟩
    · rfl
    · rw [Option.map_some, List.findSome?_cons]
      rfl

theorem winner_nil (w : List Symbol) (n : Nat) : winner [] w n = none := by
  induction n with
  | zero => rfl
  | succ n ih =>
    rw [winner, ih]
    rfl

theorem winner_cons (live : List Automaton) (s : Symbol) {rest : List Symbol} {n : Nat}
    (hn : n ≤ rest.length) :
    winner live (s :: rest) (n + 1) = ((winner (survivors s live) rest n).later 1).or
      ((live.findSome? (·.accept false [s])).map (·, 1)) := by
  induction n with
  | zero => exact Option.or_none
  | succ n ih =>
    obtain ⟨x, rest, rfl⟩ : ∃ x xs, rest = x :: xs := List.exists_cons_of_length_pos (by omega)
    rw [winner, ih (by omega), winner]
    simp only [List.take_succ_cons, findSome?_survivors]
    cases live.findSome? _ <;> rfl

/-- If no runner meets a fault, the longest beginning that one of them accepts decides,
and where none accepts any, whatever was best before. -/
theorem race_of_no_fault {live : List Automaton} {items : List Scanned}
    (hnone : ∀ a ∈ live, a.faultOn (items.map (·.symbol)) = none) (best : Best) (used : Nat) :
    (race live best used items).1 =
      .ok (((winner live (items.map (·.symbol)) items.length).later used).or best) := by
  induction items generalizing live best used with
  | nil =>
    have hfault : faultAt .endOfText live = none := List.findSome?_eq_none_iff.mpr hnone
    rw [race, feed_eq, hfault]
    rfl
  | cons s rest ih =>
    have hquiet : faultAt s.symbol live = none := by
      refine List.findSome?_eq_none_iff.mpr fun a ha => ?_
      have h := hnone a ha
      rw [List.map_cons, Automaton.faultOn] at h
      exact (Option.or_eq_none_iff.mp h).1
    have hahead : ∀ b ∈ survivors s.symbol live, b.faultOn (rest.map (·.symbol)) = none := by
      intro b hb
      obtain ⟨a, ha, _, hnext⟩ := mem_survivors.mp hb
      rw [← Automaton.faultOn_of_advance hnext]
      exact hnone a ha
    rw [List.map_cons, List.length_cons, winner_cons live s.symbol (by simp), race, feed_eq, hquiet]
    split
    · next hempty =>
      obtain rfl := List.isEmpty_iff.mp hempty
      rw [survivors, List.filterMap_nil, winner_nil]
      rfl
    · dsimp only
      rw [ih hahead]
      -- Behind what is still accepted ahead comes what this round has completed.
      generalize winner (survivors s.symbol live) (rest.map (·.symbol)) rest.length = ahead
      rcases ahead with _ | ⟨a, n⟩
      · cases live.findSome? (·.accept false [s.symbol]) with
        | none => rfl
        | some a => simp [Best.later, Nat.add_comm]
      · simp [Best.later, Nat.add_comm, Nat.add_left_comm]

end Lexer

end Lumen
