import Lumen.Proofs.Eval.Declarations
import Lumen.Proofs.Eval.Policy

/-! Scopes that nobody writes to.

A native closure captures a scope of its own that is made for it: a root without names. Nothing in
the language can reach that scope to declare a name there, for it is never active, and nothing can
be assigned where there are no names. So the scope is sealed, and it stays so (`lasting_seals`). On
a machine that is tight, every native closure that is bound anywhere has a sealed scope, and all
that is done to names, scopes and machines keeps it tight. -/
namespace Lumen
open Eval

/-! ### Native closures -/

def Closure.IsNative (c : Closure) : Prop := ∃ n, c.function = .native n

/-- No native closure, or one in `P`. -/
abbrev Value.Natives (P : Closure → Prop) : Value → Prop := Value.Over fun c => c.IsNative → P c

theorem Value.Natives.mono {P Q : Closure → Prop} {v : Value} (h : v.Natives P)
    (hPQ : ∀ c, c.IsNative → P c → Q c) : v.Natives Q := by
  cases v with
  | closure c => exact fun hc => hPQ c hc (h hc)
  | _ => trivial

/-- What is bound anywhere is no native closure, or one in `P`. -/
def Store.Binds (P : Closure → Prop) (s : Store) : Prop :=
  ∀ i n v, s.valueAt i n = some v → v.Natives P

namespace Store.Binds
variable {P Q : Closure → Prop} {s : Store} (h : s.Binds P)
include h

theorem mono (hPQ : ∀ c, P c → Q c) : s.Binds Q :=
  BindsOnly.mono h fun _ hv => hv.mono fun c _ => hPQ c

theorem add {scope : Scope} (hscope : ∀ n v, scope.bindings.find? n = some v → v.Natives P) :
    (s.add scope).2.Binds P := BindsOnly.add h hscope

theorem root : s.root.2.Binds P := h.add nofun

theorem declare (id : ScopeId) (name : String) {v : Value} (hv : v.Natives P) :
    (s.declare id name v).Binds P := BindsOnly.declare h id name hv

theorem lookup {id : ScopeId} {name : String} {v : Value} (hv : s.lookup id name = some v) :
    v.Natives P := BindsOnly.lookup h hv

theorem update (id : ScopeId) (name : String) {change : Value → Value}
    (hchange : ∀ v, v.Natives P → (change v).Natives P) :
    (∀ v, (s.update id name change).1 = some v → v.Natives P) ∧
      (s.update id name change).2.Binds P := BindsOnly.update h id name hchange

end Store.Binds

/-! ### Sealed scopes -/

/-- A root without names that is not active. -/
structure Machine.Sealed (m : Machine) (i : ScopeId) : Prop where
  empty : m.store.scopes[i]? = some ⟨[], none⟩
  idle : i ∉ m.stack

/-- What is sealed is sealed later. -/
def Machine.SealsLast (m m' : Machine) : Prop := ∀ i, m.Sealed i → m'.Sealed i

namespace Machine.Sealed
variable {m m' : Machine} {i : ScopeId} (h : m.Sealed i)
include h

theorem lt : i < m.store.scopes.size := (Array.getElem?_eq_some_iff.mp h.empty).1

theorem not_declared (n : String) : m.store.declaredHere i n = false := by
  simp [Store.declaredHere, h.empty, Bindings.find?]

/-- Scopes are sealed as long as their bindings and the stack are left alone. -/
theorem of_store_eq (hstore : m'.store = m.store) (hstack : ∀ j ∈ m'.stack, j ∈ m.stack) :
    m'.Sealed i :=
  ⟨hstore ▸ h.empty, fun hi => h.idle (hstack i hi)⟩

theorem add (scope : Scope) : { m with store := (m.store.add scope).2 }.Sealed i := by
  refine ⟨?_, h.idle⟩
  simp only [Store.add, Array.getElem?_push, Nat.ne_of_lt h.lt, if_false]
  exact h.empty

theorem declare {id : ScopeId} (hne : i ≠ id) (name : String) (v : Value) :
    { m with store := m.store.declare id name v }.Sealed i := by
  refine ⟨?_, h.idle⟩
  simp only [Store.getElem?_declare, hne, if_false, Option.map_id']
  exact h.empty

/-- Nothing can be assigned in a scope without names. -/
theorem update (id : ScopeId) (name : String) (change : Value → Value) :
    { m with store := (m.store.update id name change).2 }.Sealed i := by
  cases howner : m.store.owner id name with
  | none =>
    rw [m.store.update_of_no_owner howner]
    exact h
  | some o =>
    obtain ⟨old, _, hupdate⟩ := m.store.update_of_owner howner change
    rw [hupdate]
    refine h.declare (fun hio => ?_) name _
    have hhere := (m.store.owner_eq_some_iff.mp howner).1
    rw [← hio, h.not_declared] at hhere
    cases hhere

theorem enter (parent : ScopeId) (bindings : Bindings) : (m.enter parent bindings).Sealed i := by
  refine ⟨(h.add ⟨bindings, some parent⟩).empty, fun hi => ?_⟩
  obtain rfl | hi := List.mem_cons.mp hi
  · exact Nat.lt_irrefl _ h.lt
  · exact h.idle hi

/-- A new stack with a new root on it. -/
theorem restart : { m with store := m.store.root.2, stack := [m.store.root.1] }.Sealed i :=
  ⟨(h.add ⟨[], none⟩).empty, fun hi => Nat.ne_of_lt h.lt (List.mem_singleton.mp hi)⟩

theorem install {root : ScopeId} (hroot : root ∈ m.stack) (slot : Nat) (natives : List Native) :
    (m.install root slot natives).Sealed i := by
  induction natives generalizing slot m with
  | nil => exact h
  | cons native rest ih =>
    have hne : i ≠ root := fun heq => h.idle (heq ▸ hroot)
    have hone : (m.installOne root slot native).Sealed i :=
      ((h.add ⟨[], none⟩).declare hne native.name _).of_store_eq rfl fun _ hj => hj
    exact ih hone hroot (slot + 1)

end Machine.Sealed

/-- A closure whose scope is sealed. -/
abbrev Machine.Shut (m : Machine) (c : Closure) : Prop := m.Sealed c.captured

section Current
variable {m m₁ : Machine} {id : ScopeId} (h : Eval.current m = .ok id m₁)
include h

/-- The current scope is not sealed, and to look for it breaks no seal. -/
theorem Machine.SealsLast.current : m.SealsLast m₁ ∧ ¬m.Sealed id := by
  obtain ⟨id', hhead, hcurrent⟩ | ⟨_, hcurrent⟩ := current_cases m
  · obtain ⟨rfl, rfl⟩ := EStateM.Result.ok.inj (hcurrent.symm.trans h)
    exact ⟨fun _ hi => hi, fun hid => hid.idle (List.mem_of_mem_head? hhead)⟩
  · obtain ⟨rfl, rfl⟩ := EStateM.Result.ok.inj (hcurrent.symm.trans h)
    exact ⟨fun _ hi => hi.add ⟨[], none⟩, fun hid => Nat.lt_irrefl _ hid.lt⟩

/-- A name is declared in the current scope, or overwritten where there are names: no seal is
broken. -/
theorem Machine.SealsLast.bound (binding : Binding) (name : String) (v : Value) :
    m.SealsLast { m₁ with store := (Eval.bound binding id name v m₁.store).2 } := by
  intro i hi
  obtain ⟨hkeeps, hopen⟩ := SealsLast.current h
  have hne : i ≠ id := fun hid => hopen (hid ▸ hi)
  cases binding with
  | declare => exact (hkeeps i hi).declare hne name v
  | assign => exact (hkeeps i hi).update id name _
  | nullAssign => exact (hkeeps i hi).update id name _

/-- To look for the current scope changes nothing that natives keep. -/
theorem Machine.kept_current : m₁.kept = m.kept := by
  obtain ⟨_, _, hcurrent⟩ | ⟨_, hcurrent⟩ := current_cases m
  all_goals
    obtain ⟨-, rfl⟩ := EStateM.Result.ok.inj (hcurrent.symm.trans h)
    rfl

theorem Store.Binds.current {P : Closure → Prop} (hbinds : m.store.Binds P) :
    m₁.store.Binds P := by
  obtain ⟨id', _, hcurrent⟩ | ⟨_, hcurrent⟩ := current_cases m
  · obtain ⟨rfl, rfl⟩ := EStateM.Result.ok.inj (hcurrent.symm.trans h)
    exact hbinds
  · obtain ⟨rfl, rfl⟩ := EStateM.Result.ok.inj (hcurrent.symm.trans h)
    exact hbinds.root

end Current

/-- Seals last, whatever natives do. -/
theorem lasting_seals : Lasting Machine.SealsLast where
  refl _ := fun _ hi => hi
  trans h h' := fun i hi => h' i (h i hi)
  step m hc := by
    obtain ⟨id, m₁, hcurrent, ⟨hstack, hstore⟩ | ⟨hstack, hstore⟩ | ⟨binding, name, v, heq⟩⟩ :=
      hc.state_cases m
    · exact fun i hi => hi.of_store_eq hstore fun j hj => hstack ▸ hj
    · exact fun i hi => ((Machine.SealsLast.current hcurrent).1 i hi).of_store_eq hstore
        fun j hj => hstack ▸ hj
    · rw [heq]
      exact .bound hcurrent binding name v
  write _ _ := fun _ hi => hi.of_store_eq rfl fun _ hj => hj
  enter parent bindings _ := fun _ hi => hi.enter parent bindings
  leave _ := fun _ hi => hi.of_store_eq rfl fun _ hj => List.mem_of_mem_tail hj
  reset natives _ := fun _ hi => hi.restart.install (List.mem_singleton_self _) 0 natives

/-! ### Tight machines -/

/-- A machine on which the closures in `S` are shut, and so are all native closures that are bound
anywhere or that natives keep. -/
structure Machine.Tight (S : Closure → Prop) (m : Machine) : Prop where
  shut : ∀ c, S c → m.Shut c
  binds : m.store.Binds m.Shut
  active : ∀ i ∈ m.stack, i < m.store.scopes.size
  kept : ∀ v ∈ m.kept, v.Natives m.Shut

namespace Machine.Tight
variable {S S' : Closure → Prop} {m m' : Machine}

theorem mono (h : m.Tight S') (hS : ∀ c, S c → S' c) : m.Tight S :=
  { h with shut := fun c hc => h.shut c (hS c hc) }

/-- What is shut on a machine is all that one may ask it to keep shut. -/
theorem own (h : m.Tight S) : m.Tight m.Shut := { h with shut := fun _ hc => hc }

/-- A machine that keeps the seals and what natives keep, and binds what was shut before, stays
tight. -/
theorem later (h : m.Tight S) (hseals : m.SealsLast m') (hbinds : m'.store.Binds m.Shut)
    (hactive : ∀ i ∈ m'.stack, i < m'.store.scopes.size) (hkept : m'.kept = m.kept) :
    m'.Tight S :=
  ⟨fun c hc => hseals _ (h.shut c hc), hbinds.mono fun _ hc => hseals _ hc, hactive,
    fun v hv => (h.kept v (hkept ▸ hv)).mono fun _ _ hc => hseals _ hc⟩

theorem of_store_eq (h : m.Tight S) (hstore : m'.store = m.store)
    (hstack : ∀ i ∈ m'.stack, i ∈ m.stack) (hkept : m'.kept = m.kept) : m'.Tight S :=
  h.later (fun _ hi => hi.of_store_eq hstore hstack) (hstore ▸ h.binds)
    (fun i hi => hstore ▸ h.active i (hstack i hi)) hkept

theorem leave (h : m.Tight S) : m.leave.Tight S :=
  h.of_store_eq rfl (fun _ hi => List.mem_of_mem_tail hi) rfl

/-- Natives may keep what is shut. -/
theorem exchange (h : m.Tight S) {kept : List Value} (hkept : ∀ v ∈ kept, v.Natives m.Shut) :
    { m with kept }.Tight S := by
  have hseals : m.SealsLast { m with kept } := fun _ hi => hi.of_store_eq rfl fun _ hj => hj
  exact ⟨fun c hc => hseals _ (h.shut c hc), h.binds.mono fun _ hc => hseals _ hc, h.active,
    fun v hv => (hkept v hv).mono fun _ _ hc => hseals _ hc⟩

theorem enter (h : m.Tight S) (parent : ScopeId) {bindings : Bindings}
    (hbindings : ∀ n v, bindings.find? n = some v → v.Natives m.Shut) :
    (m.enter parent bindings).Tight S := by
  refine h.later (fun _ hi => hi.enter parent bindings) (h.binds.add hbindings) (fun i hi => ?_) rfl
  have hsize : (m.enter parent bindings).store.scopes.size = m.store.scopes.size + 1 := by
    simp [Machine.enter, Store.add]
  obtain rfl | hi := List.mem_cons.mp hi
  · rw [hsize]
    exact Nat.lt_succ_self _
  · rw [hsize]
    exact Nat.lt_succ_of_lt (h.active i hi)

theorem root (h : m.Tight S) : { m with store := m.store.root.2 }.Tight S := by
  refine h.later (fun _ hi => hi.add ⟨[], none⟩) h.binds.root (fun i hi => ?_) rfl
  exact Nat.lt_of_lt_of_le (h.active i hi) (by simp [Store.root, Store.add])

theorem current (h : m.Tight S) {id : ScopeId} (hcurrent : Eval.current m = .ok id m') :
    m'.Tight S := by
  have hgains : m.Gains nothing m' := (Gains.current hcurrent).1
  exact h.later (SealsLast.current hcurrent).1 (Store.Binds.current hcurrent h.binds)
    (fun i hi => Nat.lt_of_lt_of_le (h.active i (hgains.stack ▸ hi)) hgains.size)
    (kept_current hcurrent)

theorem declare (h : m.Tight S) {id : ScopeId} (hid : id ∈ m.stack) (name : String) {v : Value}
    (hv : v.Natives m.Shut) : { m with store := m.store.declare id name v }.Tight S := by
  refine h.later (fun i hi => hi.declare ?_ name v) (h.binds.declare id name hv) (fun i hi => ?_) rfl
  · rintro rfl
    exact hi.idle hid
  · rw [Store.size_declare]
    exact h.active i hi

/-- To bind a name keeps a machine tight, and the value that the name has then is shut. -/
theorem bound (h : m.Tight S) {id : ScopeId} (hcurrent : Eval.current m = .ok id m')
    (binding : Binding) (name : String) {v : Value} (hv : v.Natives m.Shut) :
    let result := Eval.bound binding id name v m'.store
    let m'' := { m' with store := result.2 }
    m''.Tight S ∧ ∀ w, result.1 = some w → w.Natives m''.Shut := by
  intro result m''
  have hseals : m.SealsLast m'' := .bound hcurrent binding name v
  have hbinds := Store.Binds.current hcurrent h.binds
  have hresult : (∀ w, result.1 = some w → w.Natives m.Shut) ∧ result.2.Binds m.Shut := by
    cases binding with
    | declare => exact ⟨fun w hw => Option.some.inj hw ▸ hv, hbinds.declare id name hv⟩
    | assign => exact hbinds.update id name fun _ _ => hv
    | nullAssign =>
      refine hbinds.update id name fun old hold => ?_
      split
      · exact hv
      · exact hold
  have hgains : m.Gains anything m'' := .bound hcurrent binding name v fun _ => trivial
  have hkept : m'.kept = m.kept := kept_current hcurrent
  refine ⟨h.later hseals hresult.2 (fun i hi => ?_) hkept, fun w hw => ?_⟩
  · exact Nat.lt_of_lt_of_le (h.active i (hgains.stack ▸ hi)) hgains.size
  · exact (hresult.1 w hw).mono fun c _ hc => hseals _ hc

/-- A closure that is made alone is shut. -/
theorem closeAlone (h : m.Tight S) (f : Function) :
    (m.closeAlone f).2.Tight S ∧ (m.closeAlone f).2.Shut (m.closeAlone f).1 := by
  refine ⟨h.root.of_store_eq rfl (fun _ hi => hi) rfl, ?_, fun hi => ?_⟩
  · simp [Machine.closeAlone, Machine.close, Store.root, Store.add]
  · exact Nat.lt_irrefl _ (h.active _ hi)

theorem install (h : m.Tight S) {root : ScopeId} (hroot : root ∈ m.stack) (slot : Nat)
    (natives : List Native) : (m.install root slot natives).Tight S := by
  induction natives generalizing slot m with
  | nil => exact h
  | cons native rest ih =>
    obtain ⟨htight, hshut⟩ :=
      h.closeAlone (.native ⟨some slot, native.name, native.parameters⟩)
    have hnative : Value.Natives (m.closeAlone _).2.Shut (.closure (m.closeAlone _).1) :=
      fun _ => hshut
    exact ih (htight.declare hroot native.name hnative) hroot (slot + 1)

theorem reset (h : m.Tight S) (natives : List Native) : (m.reset natives).Tight S := by
  refine install (h.later (fun _ hi => hi.restart) h.binds.root (fun i hi => ?_) rfl)
    (List.mem_singleton_self _) 0 natives
  obtain rfl := List.mem_singleton.mp hi
  exact Nat.lt_of_lt_of_eq (Nat.lt_succ_self _) (Array.size_push _).symm

end Machine.Tight

end Lumen
