import Lumen.Proofs.Eval.Held
import Lumen.Proofs.Eval.Seals
import Lumen.Proofs.Store.Search

/-! Machines that lead to no scope that has never been made.

A scope has a parent, the stack has active scopes, and closures have the scopes that they captured.
On a sound machine all these have been made, and parents before their children, so that every search
for a name ends well (`Store.Ordered.searchable`). Whatever is done to names, scopes and machines
keeps a machine sound, as long as no value is brought in that leads elsewhere; and since scopes are
never removed (`lasting_scopes`), a value that once led to scopes that had been made always does.
Closures may well lead back to the scope that binds them: nothing is asked of those. -/
namespace Lumen
open Eval

/-! ### Scopes are never removed -/

/-- The scopes that have been made are there later. -/
def Machine.ScopesLast (m m' : Machine) : Prop := ∀ i, m.store.Has i → m'.store.Has i

theorem Store.has_add {s : Store} {i : ScopeId} (scope : Scope) (h : s.Has i) :
    (s.add scope).2.Has i := by
  simp only [Store.Has, Store.add, Array.size_push]
  exact Nat.lt_succ_of_lt h

/-- A scope is there once it has been made. -/
theorem Store.has_added (s : Store) (scope : Scope) : (s.add scope).2.Has (s.add scope).1 := by
  simp [Store.Has, Store.add]

theorem Store.has_declare {s : Store} {i : ScopeId} (c : ScopeId) (name : String) (v : Value) :
    (s.declare c name v).Has i ↔ s.Has i := by
  rw [Store.Has, Store.size_declare, Store.Has]

theorem Store.has_update {s : Store} {i : ScopeId} (c : ScopeId) (name : String)
    (change : Value → Value) : (s.update c name change).2.Has i ↔ s.Has i := by
  rw [Store.Has, Store.size_update, Store.Has]

theorem Machine.ScopesLast.install (root : ScopeId) (slot : Nat) (natives : List Native)
    (m : Machine) : m.ScopesLast (m.install root slot natives) := by
  induction natives generalizing slot m with
  | nil => exact fun _ hi => hi
  | cons native rest ih =>
    have hone : m.ScopesLast (m.installOne root slot native) := fun i hi =>
      (Store.has_declare root native.name _).mpr (Store.has_add ⟨[], none⟩ hi)
    exact fun i hi => ih (slot + 1) (m.installOne root slot native) i (hone i hi)

theorem lasting_scopes : Lasting Machine.ScopesLast where
  refl _ := fun _ hi => hi
  trans h h' := fun i hi => h' i (h i hi)
  step m hc := fun _ hi => Nat.lt_of_lt_of_le hi ((Gains.lockstep {}).step (d := 0) hc m).size
  write _ _ := fun _ hi => hi
  enter parent bindings _ := fun _ hi => Store.has_add ⟨bindings, some parent⟩ hi
  leave _ := fun _ hi => hi
  reset natives _ := fun i hi =>
    Machine.ScopesLast.install _ 0 natives _ i (Store.has_add ⟨[], none⟩ hi)

/-- Whatever is asked, the scopes that have been made are there afterwards. -/
theorem Host.scopesLast_serve (host : Host) (room : Nat) (r : Request) (m : Machine) :
    m.ScopesLast (host.serve room r m).state := by
  have hhistory := lasting_scopes.task host room (.request r) m
  have herase := congrFun ((Task.request r).trace_erase host room) m
  rw [Traced.history, herase, List.cons_append, List.pairwise_cons] at hhistory
  exact hhistory.1 _ (List.mem_append_right _ (List.mem_singleton_self _))

/-! ### Sound stores -/

/-- Parents are older than their children, and the closures that are bound captured scopes that have
been made. -/
structure Store.Sound (s : Store) : Prop where
  ordered : s.Ordered
  binds : s.BindsOnly (·.Within s.Has)

namespace Store.Sound
variable {s : Store} (h : s.Sound)
include h

theorem add {scope : Scope} (hparent : ∀ p ∈ scope.parent, s.Has p)
    (hbindings : ∀ n v, scope.bindings.find? n = some v → v.Within s.Has) :
    (s.add scope).2.Sound :=
  ⟨h.ordered.add hparent, (h.binds.add hbindings).mono fun _ hv => hv.mono fun _ => has_add scope⟩

theorem root : s.root.2.Sound := h.add nofun nofun

theorem declare (id : ScopeId) (name : String) {v : Value} (hv : v.Within s.Has) :
    (s.declare id name v).Sound :=
  ⟨h.ordered.declare id name v, (h.binds.declare id name hv).mono fun _ hw =>
    hw.mono fun _ => (has_declare id name v).mpr⟩

theorem update (id : ScopeId) (name : String) {change : Value → Value}
    (hchange : ∀ v, v.Within s.Has → (change v).Within s.Has) :
    (∀ v, (s.update id name change).1 = some v → v.Within s.Has) ∧
      (s.update id name change).2.Sound := by
  obtain ⟨hvalue, hbinds⟩ := h.binds.update id name hchange
  exact ⟨hvalue, h.ordered.update id name change, hbinds.mono fun _ hw =>
    hw.mono fun _ => (has_update id name change).mpr⟩

/-- To bind a name keeps a store sound, and leads nowhere else. -/
theorem bound (binding : Binding) (id : ScopeId) (name : String) {v : Value}
    (hv : v.Within s.Has) :
    (∀ w, (Eval.bound binding id name v s).1 = some w → w.Within s.Has) ∧
      (Eval.bound binding id name v s).2.Sound := by
  cases binding with
  | declare => exact ⟨fun w hw => Option.some.inj hw ▸ hv, h.declare id name hv⟩
  | assign => exact h.update id name fun _ _ => hv
  | nullAssign =>
    refine h.update id name fun old hold => ?_
    split
    · exact hv
    · exact hold

end Store.Sound

/-! ### Sound machines -/

/-- The store is sound, the active scopes have been made, and so have those that the values lead to
that natives keep. -/
structure Machine.Sound (m : Machine) : Prop where
  store : m.store.Sound
  active : ∀ i ∈ m.stack, m.store.Has i
  kept : ∀ v ∈ m.kept, v.Within m.store.Has

theorem Machine.sound_empty : Machine.empty.Sound := by
  refine ⟨⟨Store.Built.empty.ordered, fun i n v hv => ?_⟩, nofun, nofun⟩
  simp [Store.valueAt, Machine.empty, Store.empty] at hv

namespace Machine.Sound
variable {m m' : Machine} (h : m.Sound)
include h

theorem of_store_eq (hstore : m'.store = m.store) (hstack : ∀ i ∈ m'.stack, i ∈ m.stack)
    (hkept : m'.kept = m.kept) : m'.Sound :=
  ⟨hstore ▸ h.store, fun i hi => hstore ▸ h.active i (hstack i hi),
    fun v hv => hstore ▸ h.kept v (hkept ▸ hv)⟩

theorem leave : m.leave.Sound := h.of_store_eq rfl (fun _ hi => List.mem_of_mem_tail hi) rfl

/-- Natives may keep what leads to scopes that have been made. -/
theorem exchange {kept : List Value} (hkept : ∀ v ∈ kept, v.Within m.store.Has) :
    { m with kept }.Sound := ⟨h.store, h.active, hkept⟩

theorem root : { m with store := m.store.root.2 }.Sound :=
  ⟨h.store.root, fun i hi => Store.has_add ⟨[], none⟩ (h.active i hi),
    fun v hv => (h.kept v hv).mono fun _ => Store.has_add ⟨[], none⟩⟩

theorem declare (id : ScopeId) (name : String) {v : Value} (hv : v.Within m.store.Has) :
    { m with store := m.store.declare id name v }.Sound :=
  ⟨h.store.declare id name hv, fun i hi => (Store.has_declare id name v).mpr (h.active i hi),
    fun w hw => (h.kept w hw).mono fun _ => (Store.has_declare id name v).mpr⟩

theorem enter {parent : ScopeId} (hparent : m.store.Has parent) {bindings : Bindings}
    (hbindings : ∀ n v, bindings.find? n = some v → v.Within m.store.Has) :
    (m.enter parent bindings).Sound := by
  refine ⟨h.store.add (fun p hp => Option.mem_some.mp hp ▸ hparent) hbindings, fun i hi => ?_,
    fun v hv => (h.kept v hv).mono fun _ => Store.has_add ⟨bindings, some parent⟩⟩
  obtain rfl | hi := List.mem_cons.mp hi
  · exact m.store.has_added _
  · exact Store.has_add ⟨bindings, some parent⟩ (h.active i hi)

/-- The current scope has been made. -/
theorem current {id : ScopeId} (hcurrent : Eval.current m = .ok id m') :
    m'.Sound ∧ m'.store.Has id := by
  obtain ⟨id', hhead, hcases⟩ | ⟨_, hcases⟩ := current_cases m
  · obtain ⟨rfl, rfl⟩ := EStateM.Result.ok.inj (hcases.symm.trans hcurrent)
    exact ⟨h, h.active _ (List.mem_of_mem_head? hhead)⟩
  · obtain ⟨rfl, rfl⟩ := EStateM.Result.ok.inj (hcases.symm.trans hcurrent)
    exact ⟨h.root, m.store.has_added _⟩

/-- A closure that is made alone captures a scope that has been made. -/
theorem closeAlone (f : Function) : (m.closeAlone f).2.Sound ∧
    (Value.closure (m.closeAlone f).1).Within (m.closeAlone f).2.store.Has :=
  ⟨h.root.of_store_eq rfl (fun _ hi => hi) rfl, m.store.has_added _⟩

theorem install (root : ScopeId) (slot : Nat) (natives : List Native) :
    (m.install root slot natives).Sound := by
  induction natives generalizing slot m with
  | nil => exact h
  | cons native rest ih =>
    obtain ⟨hsound, hclosure⟩ :=
      h.closeAlone (.native ⟨some slot, native.name, native.parameters⟩)
    exact ih (hsound.declare root native.name hclosure) (slot + 1)

theorem reset (natives : List Native) : (m.reset natives).Sound := by
  have hroot : { m with store := m.store.root.2, stack := [m.store.root.1] }.Sound :=
    ⟨h.store.root, List.forall_mem_singleton.mpr (m.store.has_added _), h.root.kept⟩
  exact hroot.install _ 0 natives

end Machine.Sound

end Lumen
