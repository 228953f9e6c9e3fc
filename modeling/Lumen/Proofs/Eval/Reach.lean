import Lumen.Proofs.Eval.Scoping

/-! What a call can reach, and what it leaves alone.

Values lead to the scopes that their closures captured, from there to the parents, and on through
the closures that these scopes bind; closures may be bound in the very scopes that they captured,
so there is no order in which to walk through a store. What values lead to is the least set of
scopes that nothing leads out of (`Store.Leads.inside`), and such sets are all that evaluation
needs to know about.

A call changes no scope that its closure and its arguments do not lead to, whether it succeeds or
fails, and what it answers leads nowhere else; a program changes no scope at all that was there
before it (`call_frame`). -/
namespace Lumen
open Eval

/-! ### Scopes that values lead to -/

/-- The scopes that some values lead to. -/
inductive Store.Leads (store : Store) (vs : List Value) : ScopeId → Prop
  /-- A closure leads to the scope that it captured. -/
  | captured {c : Closure} : .closure c ∈ vs → Leads store vs c.captured
  /-- A scope leads to its parent. -/
  | parent {i p : ScopeId} {scope : Scope} : Leads store vs i → store.scopes[i]? = some scope →
    scope.parent = some p → Leads store vs p
  /-- A scope leads wherever the closures lead that it binds. -/
  | bound {i : ScopeId} {scope : Scope} {name : String} {c : Closure} : Leads store vs i →
    store.scopes[i]? = some scope → (name, .closure c) ∈ scope.bindings → Leads store vs c.captured

namespace Store
variable {store store' : Store} {vs : List Value} {Inside : ScopeId → Prop}

/-- Nothing leads out of the scopes that values lead to. -/
theorem closed_leads (store : Store) (vs : List Value) : store.Closed (store.Leads vs) := by
  intro i scope hi hscope
  refine ⟨fun p hp => hi.parent hscope hp, fun b hb => ?_⟩
  obtain ⟨name, v⟩ := b
  cases v with
  | closure c => exact hi.bound hscope hb
  | _ => trivial

theorem within_leads {v : Value} (hv : v ∈ vs) : v.Within (store.Leads vs) := by
  cases v with
  | closure c => exact .captured hv
  | _ => trivial

/-- Values inside lead to no scope outside. -/
theorem Leads.inside {i : ScopeId} (h : store.Leads vs i) (hclosed : store.Closed Inside)
    (hvs : ∀ v ∈ vs, v.Within Inside) : Inside i := by
  induction h with
  | captured hc => exact hvs _ hc
  | parent _ hscope hp ih => exact (hclosed _ _ ih hscope).1 _ hp
  | bound _ hscope hb ih => exact (hclosed _ _ ih hscope).2 _ hb

/-- Where values lead depends on no other scopes than those. -/
theorem leads_of_agree (h : ∀ i, store.Leads vs i → store'.scopes[i]? = store.scopes[i]?)
    (i : ScopeId) : store'.Leads vs i ↔ store.Leads vs i := by
  constructor
  · intro hi
    refine hi.inside (fun j scope hj hscope => ?_) fun v => within_leads
    rw [h j hj] at hscope
    exact store.closed_leads vs j scope hj hscope
  · intro hi
    induction hi with
    | captured hc => exact .captured hc
    | parent hj hscope hp ih => exact ih.parent ((h _ hj).trans hscope) hp
    | bound hj hscope hb ih => exact ih.bound ((h _ hj).trans hscope) hb

/-- A search that begins inside stays inside. -/
theorem lookup_of_agree (hclosed : store.Closed Inside)
    (h : ∀ i, Inside i → store'.scopes[i]? = store.scopes[i]?) {i : ScopeId} (hi : Inside i)
    (name : String) : store'.lookup i name = store.lookup i name := by
  induction i using Nat.strongRecOn with
  | ind i ih =>
    rw [lookup, lookup, h i hi]
    cases hscope : store.scopes[i]? with
    | none => rfl
    | some scope =>
      dsimp only
      cases scope.bindings.find? name with
      | some v => rfl
      | none =>
        dsimp only
        cases hparent : scope.parent with
        | none => rfl
        | some p =>
          dsimp only
          split
          · next hlt => exact ih p hlt ((hclosed i scope hi hscope).1 p hparent)
          · rfl

end Store

/-! ### Calls -/

/-- The natives hold no values of their own: wherever the values lead that they see, there lead
those that they call, hand on and give back, whatever has been kept. -/
def Host.OwnsNothing (host : Host) : Prop :=
  ∀ Inside : ScopeId → Prop, host.Stays Inside fun _ => True

section Calls
variable {host : Host} (howns : host.OwnsNothing) (room : Nat) (c : Closure)
  (arguments : List Value) (position : Position) (label : String) (m : Machine)
include howns

/-- The scopes that a call may change: those that its closure and its arguments lead to, and new
ones. -/
abbrev Machine.touched (c : Closure) (arguments : List Value) (m : Machine) : ScopeId → Prop :=
  m.orLater (m.store.Leads (.closure c :: arguments))

/-- A call keeps to what it may change, and so do the scopes and the value that it leaves. -/
theorem Host.call_keeps :
    let r := host.serve room (.call c arguments position label) m
    (∀ i, ¬m.touched c arguments i → r.state.store.scopes[i]? = m.store.scopes[i]?) ∧
      r.state.store.Closed (m.touched c arguments) ∧
      ∀ v m', r = .ok v m' → v.Within (m.touched c arguments) := by
  intro r
  have hself : m.Agree (m.store.Leads (.closure c :: arguments)) m :=
    ⟨rfl, fun _ _ => rfl, rfl, rfl, rfl, rfl⟩
  let L := hself.pairing fun _ => True
  have hresult : r.Alike (L.Machines 0) L.Unwinds L.Values r :=
    hself.serve_call (howns _) (m.store.closed_leads _) (fun _ _ => trivial) c
      (.captured List.mem_cons_self) arguments
      (fun v hv => Store.within_leads (List.mem_cons_of_mem _ hv)) room position label
  refine ⟨fun i hi => (hresult.state.store.others i hi).1, hresult.state.store.closed, ?_⟩
  intro v m' hr
  rw [hr] at hresult
  cases hresult with
  | ok hv _ => exact hv.within

end Calls

/-! ### Programs -/

/-- A program that is executed twice on one machine, with what was there before it out of reach. -/
def Machine.apart (m : Machine) : Pairing where
  place := Eq
  shared i := m.store.scopes.size ≤ i
  scopeShift := 0
  closureShift := 0
  left := m.idle
  right := m.idle
  kept kept kept' := kept = kept' ∧ ∀ v ∈ kept, True
  located := Pairing.located_eq
  fresh _ hi := hi
  shifted _ hi := hi
  depth := rfl

theorem Machine.apart_steady (m : Machine) : m.apart.Steady := ⟨fun _ => rfl, rfl, rfl⟩

theorem Machine.apart_heaps (m : Machine) : m.apart.Heaps m.apart.left m.apart.right := by
  refine .start (.start m.apart_steady rfl ?_ fun _ _ => rfl) rfl ⟨rfl, fun _ _ => trivial⟩
  intro i scope hi hscope
  exact absurd (Array.getElem?_eq_some_iff.mp hscope).1 (Nat.not_lt.mpr hi)

/-- A program leaves the scopes alone that were there before it. -/
theorem Host.execute_keeps {host : Host} (howns : host.OwnsNothing) (room : Nat) (program : Block)
    (m : Machine) {i : ScopeId} (hi : i < m.store.scopes.size) :
    (host.serve room (.execute program) m).state.store.scopes[i]? = m.store.scopes[i]? := by
  cases room with
  | zero => rfl
  | succ room =>
    have hresult := Pairing.serve_execute (L := m.apart) rfl rfl
      (Pairing.natives_of_stays m.apart_steady rfl rfl (howns _)) room
      (program.alike_self fun _ => rfl) m.apart_heaps
    exact (hresult.state.store.others i (Nat.not_le.mpr hi)).1

/-! ### The frame of a call -/

/-- **A call leaves alone what it cannot reach.** If natives hold no values of their own, then
* a scope that neither the closure nor an argument leads to is after the call what it was before,
  however the call ends, and the value of the call does not lead to it either;
* a program changes no scope that was there before it;
* another closure that leads to no scope of the call sees the same values as before, and again
  leads to none of the scopes that the call's closure, arguments and value lead to. -/
theorem call_frame {host : Host} (howns : host.OwnsNothing) (room : Nat) (c : Closure)
    (arguments : List Value) (position : Position) (label : String) (m : Machine) :
    let r := host.serve room (.call c arguments position label) m
    (∀ i < m.store.scopes.size, ¬m.store.Leads (.closure c :: arguments) i →
      r.state.store.scopes[i]? = m.store.scopes[i]? ∧
      ∀ v m', r = .ok v m' → ¬m'.store.Leads [v] i) ∧
    (∀ program, ∀ i < m.store.scopes.size,
      (host.serve room (.execute program) m).state.store.scopes[i]? = m.store.scopes[i]?) ∧
    ∀ d : Closure, (∀ i, m.store.Leads [.closure d] i →
        i < m.store.scopes.size ∧ ¬m.store.Leads (.closure c :: arguments) i) →
      (∀ name, r.state.store.lookup d.captured name = m.store.lookup d.captured name) ∧
      ∀ i, r.state.store.Leads [.closure d] i →
        m.store.Leads [.closure d] i ∧ ¬r.state.store.Leads (.closure c :: arguments) i ∧
        ∀ v m', r = .ok v m' → ¬m'.store.Leads [v] i := by
  intro r
  obtain ⟨hothers, hclosed, hvalue⟩ := host.call_keeps howns room c arguments position label m
  have hout : ∀ i < m.store.scopes.size, ¬m.store.Leads (.closure c :: arguments) i →
      ¬m.touched c arguments i := fun i hlt hi => not_or.mpr ⟨hi, Nat.not_le.mpr hlt⟩
  have hanswer : ∀ i < m.store.scopes.size, ¬m.store.Leads (.closure c :: arguments) i →
      ∀ v m', r = .ok v m' → ¬m'.store.Leads [v] i := by
    intro i hlt hi v m' hr hleads
    have hstate : r.state = m' := by rw [hr]; rfl
    rw [hstate] at hclosed
    exact hout i hlt hi (hleads.inside hclosed (List.forall_mem_singleton.mpr (hvalue v m' hr)))
  refine ⟨fun i hlt hi => ⟨hothers i (hout i hlt hi), hanswer i hlt hi⟩,
    fun program i hlt => host.execute_keeps howns room program m hlt, fun d hd => ?_⟩
  have hsame : ∀ i, m.store.Leads [.closure d] i →
      r.state.store.scopes[i]? = m.store.scopes[i]? := fun i hi =>
    hothers i (hout i (hd i hi).1 (hd i hi).2)
  constructor
  · intro name
    exact Store.lookup_of_agree (m.store.closed_leads _) hsame (.captured List.mem_cons_self) name
  · intro i hi
    have hbefore := (Store.leads_of_agree hsame i).mp hi
    obtain ⟨hlt, hapart⟩ := hd i hbefore
    refine ⟨hbefore, fun hleads => ?_, hanswer i hlt hapart⟩
    refine hout i hlt hapart (hleads.inside hclosed fun v hv => ?_)
    exact (Store.within_leads hv).mono fun j => .inl

/-! ### Two counters -/

/-- The function `() => n := n + 1`, made in the scope `captured`. -/
def counter (captured : ScopeId) : Closure :=
  let sum :=
    Expression.binary .add (.reference "n" ⟨1, 28⟩) (.constant (.integer 1) ⟨1, 32⟩) ⟨1, 30⟩
  ⟨captured, .lambda ⟨[], .bind .assign "n" (.expression sum) ⟨1, 23⟩, ⟨1, 17⟩⟩, captured⟩

/-- What two calls of `make = (n) => { () => n := n + 1 }` leave behind, one with 0 and one with 10.
The first scope is that of a native, the second one is where `make` was made. -/
def twoCounters : Machine :=
  ⟨⟨#[⟨[], none⟩, ⟨[], none⟩, ⟨[("n", .integer 0)], some 1⟩, ⟨[], some 2⟩,
      ⟨[("n", .integer 10)], some 1⟩, ⟨[], some 4⟩]⟩, [1], 6, #[], []⟩

/-- The only native of `catchingHost`, which calls its argument. -/
def attempting : Closure := ⟨1, .native ⟨some 0, "try", ["f"]⟩, 0⟩

/-- The second counter does not lead to the scope where the first one counts. -/
theorem twoCounters_leads :
    ¬twoCounters.store.Leads [.closure attempting, .closure (counter 5)] 2 := by
  intro h
  refine (h.inside (?_ : twoCounters.store.Closed fun i => i ≠ 2 ∧ i ≠ 3) ?_).1 rfl
  · intro i scope hi hscope
    have hlt : i < 6 := (Array.getElem?_eq_some_iff.mp hscope).1
    match i, hi with
    | 0, _ | 1, _ | 4, _ | 5, _ =>
      obtain rfl := Option.some.inj hscope
      simp [twoCounters, Value.Within]
    | 2, h => exact absurd rfl h.1
    | 3, h => exact absurd rfl h.2
  · simp [Value.Within, attempting, counter]

theorem catchingHost_ownsNothing : catchingHost.OwnsNothing := by
  intro Inside native hn lookup hlookup
  obtain rfl := List.mem_singleton.mp hn
  have hf := Native.argument_of hlookup trivial "f"
  refine .callBack (fun c hc => ⟨hc ▸ hf, List.forall_mem_nil _, trivial⟩) (fun _ => trivial)
    fun answer hanswer => ?_
  cases answer with
  | ok v => exact hanswer
  | error e => trivial

/-- Counting with the second one, through a native, leaves the first one where it is. -/
theorem call_frame_twoCounters :
    let call := catchingHost.serve 3
      (.call attempting [.closure (counter 5)] ⟨1, 1⟩ "try") twoCounters
    (call.state.store.lookup 5 "n").map Value.display = some "11" ∧
      call.state.store.scopes[2]? = twoCounters.store.scopes[2]? := by
  intro call
  obtain ⟨hframe, _, _⟩ := call_frame catchingHost_ownsNothing 3 attempting [.closure (counter 5)]
    ⟨1, 1⟩ "try" twoCounters
  exact ⟨by decide +kernel, (hframe 2 (by decide) twoCounters_leads).1⟩

end Lumen
