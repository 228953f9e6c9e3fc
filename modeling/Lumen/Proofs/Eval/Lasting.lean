import Lumen.Proofs.Eval.Lockstep

/-! What lasts through an evaluation.

A relation between machines that no single step, no scope and no reset breaks holds between any two
machines that an evaluation passes through, the earlier one and the later one, whatever the natives
do (`Lasting.task`). -/
namespace Lumen
open Eval

/-- A relation between an earlier machine and a later one that nothing breaks. -/
structure Lasting (Before : Machine → Machine → Prop) : Prop where
  refl (m : Machine) : Before m m
  trans {m m' m'' : Machine} : Before m m' → Before m' m'' → Before m m''
  step {α : Type} {c : Eval α} (m : Machine) : Primitive c → Before m (c m).state
  write (line : Line) (m : Machine) : Before m { m with output := m.output.push line }
  enter (parent : ScopeId) (bindings : Bindings) (m : Machine) : Before m (m.enter parent bindings)
  leave (m : Machine) : Before m m.leave
  reset (natives : List Native) (m : Machine) : Before m (m.reset natives)

namespace Traced
variable {α : Type}

/-- The machines of a computation in order, from the one that it starts on to the one that it
leaves. -/
def history (t : Traced α) (m : Machine) : List Machine := m :: (t m).2 ++ [(t.erase m).state]

/-- Of any two machines, the earlier one is before the later one. -/
def Lasts (Before : Machine → Machine → Prop) (t : Traced α) : Prop :=
  ∀ m, (t.history m).Pairwise Before

end Traced

namespace Lasting
variable {Before : Machine → Machine → Prop} (h : Lasting Before) {α β : Type}
include h

theorem single {c : Eval α} (hc : ∀ m, Before m (c m).state) : (Traced.step c).Lasts Before := by
  intro m
  have hend := hc m
  have hstays := h.refl (c m).state
  simpa [Traced.history, Traced.step, Traced.erase] using ⟨⟨h.refl m, hend⟩, hend, hstays⟩

/-- A computation that leaves the machine alone. -/
theorem still {c : Eval α} (hc : ∀ m, (c m).state = m) : (Traced.step c).Lasts Before :=
  h.single fun m => (hc m).symm ▸ h.refl m

theorem follow {t : Traced α} {next : Result α → Traced β} (ht : t.Lasts Before)
    (hnext : ∀ r, (next r).Lasts Before) : (t.follow next).Lasts Before := by
  intro m
  obtain ⟨hfirst, _, hmiddle⟩ := List.pairwise_append.mp (ht m)
  obtain ⟨hlater, hsecond⟩ := List.pairwise_cons.mp (hnext (t.erase m) (t.erase m).state)
  have hhistory : (t.follow next).history m = (m :: (t m).2) ++
      (((next (t.erase m)) (t.erase m).state).2 ++
        [((next (t.erase m)).erase (t.erase m).state).state]) := by
    simp only [Traced.history, Traced.follow, Traced.erase, List.cons_append, List.append_assoc]
  rw [hhistory]
  -- What is before the machine in the middle is before all that it is before itself.
  exact List.pairwise_append.mpr ⟨hfirst, hsecond, fun a ha b hb =>
    h.trans (hmiddle a ha _ (List.mem_singleton_self _)) (hlater b hb)⟩

theorem within {t : Traced α} (limits : Limits) (parent : ScopeId) (bindings : Bindings)
    (position : Position) (ht : t.Lasts Before) :
    (Traced.within limits parent bindings position t).Lasts Before := by
  intro m
  unfold Traced.history Traced.erase Traced.within
  split
  · exact h.still (c := fail position .recursionLimit) (fun _ => rfl) m
  · have henter : (Traced.step (modify (·.enter parent bindings))).Lasts Before :=
      h.single (h.enter parent bindings)
    have hleave : ∀ r : Result α, (Traced.step fun m => r.withState m.leave).Lasts Before := by
      intro r
      refine h.single fun m => ?_
      rw [EStateM.Result.state_withState]
      exact h.leave m
    exact h.follow henter (fun _ => h.follow ht hleave) m

theorem afresh {t : Traced Value} (natives : List Native) (ht : t.Lasts Before) :
    (t.afresh natives).Lasts Before := by
  refine h.follow (h.single (h.reset natives)) fun _ => h.follow ht fun r => h.single fun m => ?_
  rw [EStateM.Result.state_withState]
  exact h.reset natives m

theorem repeatWhile {guard : Traced Bool} {body : Traced Value} (position : Position)
    (limit : Nat) (last : Value) (hguard : guard.Lasts Before) (hbody : body.Lasts Before) :
    (Traced.repeatWhile guard body position limit last).Lasts Before := by
  have hstop : ∀ (c : Eval Value), (∀ m, (c m).state = m) → (Traced.step c).Lasts Before :=
    fun _ => h.still
  induction limit generalizing last with
  | zero =>
    rw [Traced.repeatWhile]
    refine h.follow hguard fun r => ?_
    rcases r with ⟨_ | _, m'⟩ | ⟨_ | _ | _, m'⟩ <;> exact hstop _ fun _ => rfl
  | succ limit ih =>
    rw [Traced.repeatWhile]
    refine h.follow hguard fun r => ?_
    rcases r with ⟨_ | _, m'⟩ | ⟨_ | _ | _, m'⟩
    case ok.true =>
      refine h.follow hbody fun r => ?_
      rcases r with ⟨v, m'⟩ | ⟨_ | _ | _, m'⟩
      · exact ih v
      all_goals exact hstop _ fun _ => rfl
    all_goals exact hstop _ fun _ => rfl

theorem lockstep (limits : Limits) :
    Lockstep limits limits (fun _ => True) fun _ _ _ t => t.Lasts Before where
  step hc := h.single fun m => h.step m hc
  bind ht hg := h.follow ht fun r => by
    cases r with
    | ok a _ => exact hg a
    | error u _ => exact h.still fun _ => rfl
  within parent bindings position ht := h.within limits parent bindings position ht
  repeatWhile position last hg hb := h.repeatWhile position _ last hg hb
  boundary ht := h.follow ht fun r => by
    rcases r with ⟨v, m'⟩ | ⟨_ | _ | _, m'⟩ <;> exact h.still fun _ => rfl
  locatedAt position ht := h.follow ht fun r => by
    rcases r with ⟨v, m'⟩ | ⟨_ | _ | _, m'⟩ <;> exact h.still fun _ => rfl
  write line := h.single (h.write line)
  answer _ ht hg := h.follow ht fun r => by
    rcases r with ⟨v, m'⟩ | ⟨_ | e | _, m'⟩
    · exact hg (.ok v)
    · exact h.still fun _ => rfl
    · exact hg (.error e)
    · exact h.still fun _ => rfl
  afresh natives _ ht := h.afresh natives ht

/-- **What nothing breaks lasts**: it holds between any two machines of an evaluation. -/
theorem task (host : Host) (room : Nat) (t : Task) : (t.trace host room).Lasts Before :=
  (h.lockstep host.limits).task host.asks_all (fun _ => h.still fun _ => rfl) room 0 t
    fun _ _ => .inr trivial

end Lasting

end Lumen
