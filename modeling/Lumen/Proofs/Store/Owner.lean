import Lumen.Eval

/-! What writes to the store change, seen from every scope.

Scopes share the scopes around them, so one write may be seen from many scopes at once. Who sees it
is a matter of ownership: the owner of a name, as seen from a scope, is the nearest scope on the
chain from there outward that binds the name itself. A name is looked up at its owner; to overwrite
it changes it for exactly those scopes that see the same owner, and to declare it for those that
come across the declaring scope before any other that binds it (`store_laws`). -/
namespace Lumen.Store

/-! ### Chains and owners -/

/-- A scope and the scopes around it, the nearest first. -/
def chain (store : Store) (id : ScopeId) : List ScopeId :=
  match store.scopes[id]? with
  | none => []
  | some scope =>
    match scope.parent with
    | none => [id]
    | some parent => if parent < id then id :: store.chain parent else [id]
termination_by id

/-- The value that a scope itself binds a name to. -/
def valueAt (store : Store) (id : ScopeId) (name : String) : Option Value :=
  store.scopes[id]?.bind fun scope => scope.bindings.find? name

/-- The nearest scope on the chain from `id` that itself binds a name. -/
def owner (store : Store) (id : ScopeId) (name : String) : Option ScopeId :=
  (store.chain id).find? (store.declaredHere · name)

/-- From `d` outward one comes to `c`, and to no scope before it that binds the name. -/
def Exposes (store : Store) (c : ScopeId) (name : String) (d : ScopeId) : Prop :=
  c ∈ store.chain d ∧ ∀ e ∈ (store.chain d).takeWhile (· ≠ c), store.declaredHere e name = false

instance (store : Store) (c : ScopeId) (name : String) (d : ScopeId) :
    Decidable (store.Exposes c name d) := inferInstanceAs (Decidable (_ ∧ _))

variable (store : Store)

theorem declaredHere_eq (id : ScopeId) (name : String) :
    store.declaredHere id name = (store.valueAt id name).isSome := by
  unfold declaredHere valueAt
  cases store.scopes[id]? <;> rfl

theorem lt_of_mem_chain {c d : ScopeId} (h : c ∈ store.chain d) : c < store.scopes.size := by
  fun_induction store.chain d with
  | case1 => cases h
  | case2 id scope hscope | case4 id scope hscope =>
    obtain rfl := List.mem_singleton.mp h
    exact (Array.getElem?_eq_some_iff.mp hscope).1
  | case3 id scope hscope parent hparent hlt ih =>
    obtain rfl | h := List.mem_cons.mp h
    · exact (Array.getElem?_eq_some_iff.mp hscope).1
    · exact ih h

/-- An owner is found where a search would look for it. -/
theorem owner_eq (id : ScopeId) (name : String) :
    store.owner id name =
      match store.scopes[id]? with
      | none => none
      | some scope =>
        match scope.bindings.find? name with
        | some _ => some id
        | none =>
          match scope.parent with
          | none => none
          | some parent => if parent < id then store.owner parent name else none := by
  unfold owner
  rw [chain]
  cases hscope : store.scopes[id]? with
  | none => rfl
  | some scope =>
    have hhere : store.declaredHere id name = (scope.bindings.find? name).isSome := by
      simp only [declaredHere, hscope]
    dsimp only
    cases hvalue : scope.bindings.find? name <;> cases scope.parent <;> dsimp only
    all_goals try split
    all_goals simp [hhere, hvalue]

theorem exposes_iff {c d : ScopeId} {name : String} : store.Exposes c name d ↔
    ∃ near far, store.chain d = near ++ c :: far ∧
      ∀ e ∈ near, store.declaredHere e name = false := by
  unfold Exposes
  generalize store.chain d = scopes
  constructor
  · rintro ⟨hmem, hnear⟩
    induction scopes with
    | nil => cases hmem
    | cons e scopes ih =>
      by_cases hec : e = c
      · exact ⟨[], scopes, by rw [hec]; rfl, List.forall_mem_nil _⟩
      · simp only [ne_eq, hec, not_false_eq_true, decide_true, List.takeWhile_cons_of_pos,
          List.forall_mem_cons] at hnear
        obtain ⟨near, far, rfl, hbefore⟩ :=
          ih ((List.mem_cons.mp hmem).resolve_left (Ne.symm hec)) hnear.2
        exact ⟨e :: near, far, rfl, List.forall_mem_cons.mpr ⟨hnear.1, hbefore⟩⟩
  · rintro ⟨near, far, rfl, hnear⟩
    refine ⟨List.mem_append_right near List.mem_cons_self, fun e he => hnear e ?_⟩
    clear hnear
    induction near with
    | nil => simp at he
    | cons a near ih =>
      rw [List.cons_append, List.takeWhile_cons] at he
      split at he
      · exact List.mem_cons.mpr ((List.mem_cons.mp he).imp_right ih)
      · cases he

theorem owner_eq_some_iff {o d : ScopeId} {name : String} :
    store.owner d name = some o ↔ store.declaredHere o name ∧ store.Exposes o name d := by
  simp only [owner, List.find?_eq_some_iff_append, exposes_iff, Bool.not_eq_eq_eq_not,
    Bool.not_true]

/-- A name has the value that it has at its owner. -/
theorem lookup_eq_owner (id : ScopeId) (name : String) :
    store.lookup id name = (store.owner id name).bind (store.valueAt · name) := by
  fun_induction store.lookup id name with
  | case1 id hscope => simp [owner_eq, hscope]
  | case2 id scope hscope v hv => simp [owner_eq, hscope, hv, valueAt]
  | case3 id scope hscope hv hparent => simp [owner_eq, hscope, hv, hparent]
  | case4 id scope hscope hv parent hparent hlt ih =>
    rw [ih, store.owner_eq id]
    simp [hscope, hv, hparent, hlt]
  | case5 id scope hscope hv parent hparent hlt =>
    rw [owner_eq]
    simp [hscope, hv, hparent, hlt]

theorem lookup_eq_none_iff {id : ScopeId} {name : String} :
    store.lookup id name = none ↔ store.owner id name = none := by
  rw [lookup_eq_owner]
  cases howner : store.owner id name with
  | none => simp
  | some o =>
    have hhere := (store.owner_eq_some_iff.mp howner).1
    rw [declaredHere_eq] at hhere
    simp [Option.isSome_iff_ne_none.mp hhere]

/-! ### Declarations -/

section Declare
variable (c d : ScopeId) (n m : String) (v : Value)

theorem getElem?_declare : (store.declare c n v).scopes[d]? =
    store.scopes[d]?.map fun scope =>
      if d = c then { scope with bindings := scope.bindings.insert n v } else scope := by
  simp only [declare, Array.getElem?_modify, eq_comm (a := c)]
  split <;> simp

theorem valueAt_declare_self {c : ScopeId} (h : c < store.scopes.size) :
    (store.declare c n v).valueAt c n = some v := by
  simp [valueAt, getElem?_declare, h, Bindings.find?_insert]

theorem valueAt_declare_of_ne (h : ¬(m = n ∧ d = c)) :
    (store.declare c n v).valueAt d m = store.valueAt d m := by
  rw [valueAt, getElem?_declare, valueAt]
  cases store.scopes[d]? with
  | none => rfl
  | some scope =>
    by_cases hscope : d = c
    · have hname : m ≠ n := fun hname => h ⟨hname, hscope⟩
      simp [hscope, Bindings.find?_insert, hname]
    · simp [hscope]

theorem chain_declare : (store.declare c n v).chain d = store.chain d := by
  induction d using Nat.strongRecOn with
  | ind d ih =>
    rw [chain, chain, getElem?_declare]
    cases store.scopes[d]? with
    | none => rfl
    | some scope =>
      have hparent : (if d = c then { scope with bindings := scope.bindings.insert n v }
          else scope).parent = scope.parent := by
        split <;> rfl
      simp only [Option.map_some, hparent]
      cases scope.parent with
      | none => rfl
      | some parent =>
        dsimp only
        split
        · next hlt => rw [ih parent hlt]
        · rfl

theorem declaredHere_declare_of_ne (h : ¬(m = n ∧ d = c)) :
    (store.declare c n v).declaredHere d m = store.declaredHere d m := by
  rw [declaredHere_eq, declaredHere_eq, valueAt_declare_of_ne _ _ _ _ _ _ h]

/-- A scope that declares a name becomes its owner for the scopes that it is exposed to. -/
theorem owner_declare_of_exposes (h : store.Exposes c n d) :
    (store.declare c n v).owner d n = some c := by
  obtain ⟨near, far, hchain, hnear⟩ := store.exposes_iff.mp h
  have hc : (store.declare c n v).declaredHere c n := by
    rw [declaredHere_eq, store.valueAt_declare_self n v (store.lt_of_mem_chain h.1)]
    rfl
  rw [owner, chain_declare, hchain]
  clear hchain
  induction near with
  | nil => simp [hc]
  | cons e near ih =>
    obtain ⟨he, hnear⟩ := List.forall_mem_cons.mp hnear
    by_cases hec : e = c
    · simp [hec, hc]
    · have hne : (store.declare c n v).declaredHere e n = false := by
        rw [declaredHere_declare_of_ne _ _ _ _ _ _ fun h => hec h.2, he]
      simpa [hne] using ih hnear

theorem owner_declare_of_not_exposes (h : ¬store.Exposes c n d) :
    (store.declare c n v).owner d n = store.owner d n := by
  have hkept : ∀ near far, store.chain d = near ++ far →
      (∀ e ∈ near, store.declaredHere e n = false) →
      far.find? ((store.declare c n v).declaredHere · n) = far.find? (store.declaredHere · n) := by
    intro near far hchain hnear
    induction far generalizing near with
    | nil => rfl
    | cons e far ih =>
      have hec : e ≠ c := fun hec =>
        h (store.exposes_iff.mpr ⟨near, far, hec ▸ hchain, hnear⟩)
      have hsame := store.declaredHere_declare_of_ne c e n n v fun h => hec h.2
      cases hhere : store.declaredHere e n with
      | true => simp [hsame, hhere]
      | false =>
        have hrest := ih (near ++ [e]) (by simp [hchain])
          (List.forall_mem_append.mpr ⟨hnear, List.forall_mem_singleton.mpr hhere⟩)
        simpa [hsame, hhere] using hrest
  rw [owner, owner, chain_declare]
  exact hkept [] (store.chain d) rfl (List.forall_mem_nil _)

/-- What a declaration changes, and for whom. -/
theorem lookup_declare : (store.declare c n v).lookup d m =
    if m = n ∧ store.Exposes c n d then some v else store.lookup d m := by
  rw [lookup_eq_owner, lookup_eq_owner]
  by_cases hname : m = n
  · subst hname
    by_cases hexposes : store.Exposes c m d
    · simp [store.owner_declare_of_exposes _ _ _ v hexposes, hexposes,
        store.valueAt_declare_self m v (store.lt_of_mem_chain hexposes.1)]
    · rw [store.owner_declare_of_not_exposes _ _ _ v hexposes]
      simp only [hexposes, and_false, if_false]
      cases howner : store.owner d m with
      | none => rfl
      | some o =>
        have hne : o ≠ c := fun hoc => hexposes (hoc ▸ (store.owner_eq_some_iff.mp howner).2)
        exact store.valueAt_declare_of_ne c o m m v fun h => hne h.2
  · have hsame : ∀ e, (store.declare c n v).valueAt e m = store.valueAt e m :=
      fun e => store.valueAt_declare_of_ne c e n m v fun h => hname h.1
    have howner : (store.declare c n v).owner d m = store.owner d m := by
      simp only [owner, chain_declare, declaredHere_eq, hsame]
    simp only [howner, hname, false_and, if_false, hsame]

end Declare

/-! ### Overwriting -/

theorem update_of_no_owner {c : ScopeId} {n : String} (h : store.owner c n = none)
    (change : Value → Value) : store.update c n change = (none, store) := by
  fun_induction store.update c n change with
  | case1 => rfl
  | case2 id scope hscope v hv => simp [owner_eq, hscope, hv] at h
  | case3 => rfl
  | case4 id scope hscope hv parent hparent hlt ih =>
    rw [owner_eq] at h
    exact ih (by simpa [hscope, hv, hparent, hlt] using h)
  | case5 => rfl

/-- The nearest binding is overwritten where it stands. -/
theorem update_of_owner {c o : ScopeId} {n : String} (h : store.owner c n = some o)
    (change : Value → Value) : ∃ old, store.valueAt o n = some old ∧
      store.update c n change = (some (change old), store.declare o n (change old)) := by
  fun_induction store.update c n change with
  | case1 id hscope => simp [owner_eq, hscope] at h
  | case2 id scope hscope v hv =>
    obtain rfl : id = o := by simpa [owner_eq, hscope, hv] using h
    exact ⟨v, by simp [valueAt, hscope, hv], rfl⟩
  | case3 id scope hscope hv hparent => simp [owner_eq, hscope, hv, hparent] at h
  | case4 id scope hscope hv parent hparent hlt ih =>
    rw [owner_eq] at h
    exact ih (by simpa [hscope, hv, hparent, hlt] using h)
  | case5 id scope hscope hv parent hparent hlt =>
    rw [owner_eq] at h
    simp [hscope, hv, hparent, hlt] at h

/-- What is left when the nearest binding of `n`, as seen from `c`, is overwritten: the answer and
the store. -/
structure Overwritten (c : ScopeId) (n : String) (change : Value → Value)
    (result : Option Value × Store) : Prop where
  /-- It fails for want of an owner only, -/
  fails : result.1 = none ↔ store.owner c n = none
  /-- and then nothing is changed. -/
  unchanged : result.1 = none → result.2 = store
  /-- The new value is made from the one that was there. -/
  value : ∀ v, result.1 = some v → ∃ old, store.lookup c n = some old ∧ v = change old
  /-- It is seen by those who see the same owner, and they see nothing else that is new. -/
  lookup : ∀ v, result.1 = some v → ∀ d m, result.2.lookup d m =
    if m = n ∧ store.owner d n = store.owner c n then some v else store.lookup d m

theorem overwritten_update (c : ScopeId) (n : String) (change : Value → Value) :
    store.Overwritten c n change (store.update c n change) := by
  cases howner : store.owner c n with
  | none =>
    rw [store.update_of_no_owner howner]
    exact ⟨by simp [howner], fun _ => rfl, nofun, nofun⟩
  | some o =>
    obtain ⟨old, hold, hupdate⟩ := store.update_of_owner howner change
    rw [hupdate]
    refine ⟨by simp [howner], nofun, fun v hv => ⟨old, ?_, (Option.some.inj hv).symm⟩, ?_⟩
    · rw [lookup_eq_owner, howner]
      exact hold
    · intro v hv d m
      obtain rfl := Option.some.inj hv
      have hhere := (store.owner_eq_some_iff.mp howner).1
      have hsees : store.Exposes o n d ↔ store.owner d n = some o := by
        simp [owner_eq_some_iff, hhere]
      simp only [lookup_declare, hsees, howner]

/-! ### What is bound -/

/-- Whatever any scope binds a name to is in `Q`. -/
def BindsOnly (Q : Value → Prop) (s : Store) : Prop := ∀ i n v, s.valueAt i n = some v → Q v

section BindsOnly
variable {Q : Value → Prop} {s : Store} (h : s.BindsOnly Q)
include h

theorem BindsOnly.mono {Q' : Value → Prop} (hQ : ∀ v, Q v → Q' v) : s.BindsOnly Q' :=
  fun i n v hv => hQ v (h i n v hv)

theorem BindsOnly.add {scope : Scope} (hscope : ∀ n v, scope.bindings.find? n = some v → Q v) :
    (s.add scope).2.BindsOnly Q := by
  intro i n v hv
  simp only [valueAt, Store.add, Array.getElem?_push] at hv
  split at hv
  · exact hscope n v hv
  · exact h i n v hv

theorem BindsOnly.declare (id : ScopeId) (name : String) {v : Value} (hv : Q v) :
    (s.declare id name v).BindsOnly Q := by
  intro i n w hw
  by_cases hhere : n = name ∧ i = id
  · obtain ⟨rfl, rfl⟩ := hhere
    by_cases hlt : i < s.scopes.size
    · rw [s.valueAt_declare_self n v hlt] at hw
      exact Option.some.inj hw ▸ hv
    · simp [valueAt, getElem?_declare, hlt] at hw
  · rw [s.valueAt_declare_of_ne id i name n v hhere] at hw
    exact h i n w hw

theorem BindsOnly.lookup {id : ScopeId} {name : String} {v : Value}
    (hv : s.lookup id name = some v) : Q v := by
  rw [lookup_eq_owner] at hv
  obtain ⟨o, _, hvalue⟩ := Option.bind_eq_some_iff.mp hv
  exact h o name v hvalue

theorem BindsOnly.update (id : ScopeId) (name : String) {change : Value → Value}
    (hchange : ∀ v, Q v → Q (change v)) :
    (∀ v, (s.update id name change).1 = some v → Q v) ∧
      (s.update id name change).2.BindsOnly Q := by
  cases howner : s.owner id name with
  | none =>
    rw [s.update_of_no_owner howner]
    exact ⟨nofun, h⟩
  | some o =>
    obtain ⟨old, hold, hupdate⟩ := s.update_of_owner howner change
    have hnew := hchange old (h o name old hold)
    rw [hupdate]
    exact ⟨fun v hv => Option.some.inj hv ▸ hnew, h.declare o name hnew⟩

end BindsOnly

/-! ### Stores that are built up -/

/-- Stores that are made from nothing, by making scopes and binding names in them. -/
inductive Built : Store → Prop
  | empty : Built .empty
  | root {s : Store} : Built s → Built s.root.2
  | child {s : Store} {parent : ScopeId} : Built s → parent < s.scopes.size →
    Built (s.child parent).2
  | declare {s : Store} (id : ScopeId) (name : String) (v : Value) : Built s →
    Built (s.declare id name v)
  | assign {s : Store} (id : ScopeId) (name : String) (v : Value) : Built s →
    Built (s.assign id name v).2
  | update {s : Store} (id : ScopeId) (name : String) (change : Value → Value) : Built s →
    Built (s.update id name change).2

/-- Parents are older than their children. -/
def Ordered (s : Store) : Prop :=
  ∀ (i : ScopeId) (scope : Scope), s.scopes[i]? = some scope → ∀ p ∈ scope.parent, p < i

variable {store}

theorem Ordered.add (h : store.Ordered) {scope : Scope}
    (hparent : ∀ p ∈ scope.parent, p < store.scopes.size) : (store.add scope).2.Ordered := by
  intro i scope' hscope
  simp only [Store.add, Array.getElem?_push] at hscope
  split at hscope
  · next heq =>
    obtain rfl := Option.some.inj hscope
    exact heq ▸ hparent
  · exact h i scope' hscope

theorem Ordered.declare (h : store.Ordered) (id : ScopeId) (name : String) (v : Value) :
    (store.declare id name v).Ordered := by
  intro i scope hscope
  rw [getElem?_declare] at hscope
  obtain ⟨old, hold, rfl⟩ := Option.map_eq_some_iff.mp hscope
  have hparent := h i old hold
  split
  · exact hparent
  · exact hparent

theorem Ordered.update (h : store.Ordered) (id : ScopeId) (name : String)
    (change : Value → Value) : (store.update id name change).2.Ordered := by
  cases howner : store.owner id name with
  | none =>
    rw [store.update_of_no_owner howner]
    exact h
  | some o =>
    obtain ⟨old, _, hupdate⟩ := store.update_of_owner howner change
    rw [hupdate]
    exact h.declare o name _

theorem Built.ordered (h : store.Built) : store.Ordered := by
  induction h with
  | empty =>
    intro i scope hscope
    simp [Store.empty] at hscope
  | root _ ih => exact ih.add nofun
  | child _ hlt ih => exact ih.add fun p hp => Option.mem_some.mp hp ▸ hlt
  | declare id name v _ ih => exact ih.declare id name v
  | assign id name v _ ih => exact ih.update id name _
  | update id name change _ ih => exact ih.update id name change

/-- Around a scope are the scopes around its parent and that one itself. -/
theorem Ordered.chain_eq (h : store.Ordered) {c : ScopeId} {scope : Scope}
    (hscope : store.scopes[c]? = some scope) :
    store.chain c = c :: scope.parent.elim [] store.chain := by
  rw [chain, hscope]
  have hlt := h c scope hscope
  cases hparent : scope.parent with
  | none => simp [hparent]
  | some parent => simp [hparent, hlt parent hparent]

end Lumen.Store

namespace Lumen
open Eval

theorem Eval.modifyGet_eq {α : Type} (f : Machine → α × Machine) (m : Machine) :
    (modifyGet f : Eval α) m = .ok (f m).1 (f m).2 := rfl

/-- To assign where there is null: the right-hand side is done, and then the nearest binding is
overwritten if what it holds now is null. -/
theorem Statement.exec_nullAssign {limits : Limits} {serve : Request → Eval Value}
    {value : Statement} {m m₁ m₂ : Machine} {v : Value} {c : ScopeId}
    (hvalue : value.exec limits serve m = .ok v m₁) (hcurrent : current m₁ = .ok c m₂)
    (n : String) (position : Position) :
    (Statement.bind .nullAssign n value position).exec limits serve m =
      match m₂.store.update c n fun old => if old.isNull then v else old with
      | (some w, store) => .ok w { m₂ with store }
      | (none, store) => .error (.error (.runtime position (.undefined n))) { m₂ with store } := by
  simp only [Statement.exec, bindName, Bind.bind, EStateM.bind, hvalue, hcurrent, bindName.change,
    Store.nullAssign, modifyGet_eq]
  cases m₂.store.update c n _ with
  | mk found store => cases found <;> rfl

/-- **The laws of the store.** Let a store be built up in any way. The scopes around a scope are its
parent and the scopes around that one, and
* a name has the value that it has at its owner, and none without an owner;
* to assign a name, or to change its value, fails without an owner and then changes nothing; else
  the new value is seen by exactly those scopes that see the same owner;
* a declared value is seen by exactly those scopes that the declaring scope is exposed to;
* to assign where there is null is such a change, made to the store that the right-hand side has
  left. -/
theorem store_laws {s : Store} (hbuilt : s.Built) (c : ScopeId) (n : String) :
    (∀ scope, s.scopes[c]? = some scope → s.chain c = c :: scope.parent.elim [] s.chain) ∧
    (s.lookup c n = (s.owner c n).bind (s.valueAt · n) ∧
      (s.lookup c n = none ↔ s.owner c n = none)) ∧
    (∀ v, s.Overwritten c n (fun _ => v) (s.assign c n v)) ∧
    (∀ change, s.Overwritten c n change (s.update c n change)) ∧
    (∀ v d m, (s.declare c n v).lookup d m =
      if m = n ∧ s.Exposes c n d then some v else s.lookup d m) ∧
    ∀ (limits : Limits) (serve : Request → Eval Value) (value : Statement) (position : Position)
      (m m₁ : Machine),
      (∀ u, value.exec limits serve m = .error u m₁ →
        (Statement.bind .nullAssign n value position).exec limits serve m = .error u m₁) ∧
      ∀ v m₂, value.exec limits serve m = .ok v m₁ → current m₁ = .ok c m₂ → m₂.store = s →
        (Statement.bind .nullAssign n value position).exec limits serve m =
          match s.update c n fun old => if old.isNull then v else old with
          | (some w, store) => .ok w { m₂ with store }
          | (none, _) => .error (.error (.runtime position (.undefined n))) m₂ := by
  refine ⟨fun scope => hbuilt.ordered.chain_eq, ⟨s.lookup_eq_owner c n, s.lookup_eq_none_iff⟩,
    fun v => s.overwritten_update c n _, s.overwritten_update c n,
    fun v d m => s.lookup_declare c d n m v, fun limits serve value position m m₁ => ⟨?_, ?_⟩⟩
  · intro u hvalue
    simp only [Statement.exec, bind, EStateM.bind, hvalue]
  · intro v m₂ hvalue hcurrent hstore
    subst hstore
    rw [Statement.exec_nullAssign hvalue hcurrent]
    have hunchanged :=
      (m₂.store.overwritten_update c n fun old => if old.isNull then v else old).unchanged
    generalize m₂.store.update c n _ = result at hunchanged
    obtain ⟨_ | w, store⟩ := result
    · rw [show store = m₂.store from hunchanged rfl]
    · rfl

/-! ### Two scopes side by side -/

/-- Two scopes inside a root where `x` is null, of which the first one binds `x` for itself. -/
def Store.forked : Store :=
  let root := Store.empty.root.2.declare 0 "x" .null
  ((root.child 0).2.child 0).2.declare 1 "x" (.integer 1)

theorem Store.forked_built : Store.forked.Built :=
  .declare 1 "x" _ (.child (.child (.declare 0 "x" .null (.root .empty)) (by decide)) (by decide))

/-- The statement `{ x := 5; 7 }`. -/
def assignAside : Statement :=
  let assign := Statement.bind .assign "x" (.expression (.constant (.integer 5) ⟨1, 14⟩)) ⟨1, 9⟩
  .expression (.block ⟨[assign, .expression (.constant (.integer 7) ⟨1, 17⟩)], ⟨1, 7⟩⟩)

/-- What that statement leaves when it is done in the second scope: the scope of the block is there,
and `x` is 5 in the root. -/
def Store.assignedAside : Store := ((Store.forked.child 2).2.assign 3 "x" (.integer 5)).2

theorem Store.assignedAside_built : Store.assignedAside.Built :=
  .assign 3 "x" _ (.child Store.forked_built (by decide))

/-- From the second scope, `x` is the one of the root: what is assigned to it is seen from there and
from the root, but not from the first scope. And `x ??= { x := 5; 7 }` leaves it at 5, since it is
not null any more when the right-hand side is done. -/
theorem store_laws_forked :
    let assigned := (Store.forked.assign 2 "x" (.integer 3)).2
    assigned.lookup 0 "x" = some (.integer 3) ∧ assigned.lookup 2 "x" = some (.integer 3) ∧
      assigned.lookup 1 "x" = Store.forked.lookup 1 "x" ∧
      ∃ m, (Statement.bind .nullAssign "x" assignAside ⟨1, 1⟩).exec {} (fun _ => throw .exhausted)
        ⟨.forked, [2, 0], 0, #[], []⟩ = .ok (.integer 5) m := by
  intro assigned
  obtain ⟨_, _, hassign, _⟩ := store_laws Store.forked_built 2 "x"
  obtain ⟨hfails, _, hvalue, hlookup⟩ := hassign (.integer 3)
  obtain ⟨v, hv⟩ : ∃ v, (Store.forked.assign 2 "x" (.integer 3)).1 = some v := by
    refine Option.ne_none_iff_exists'.mp fun hnone => ?_
    exact absurd (hfails.mp hnone) (by decide +kernel)
  obtain ⟨_, _, rfl⟩ := hvalue v hv
  have hseen := hlookup _ hv
  refine ⟨(hseen 0 "x").trans (if_pos (by decide +kernel)),
    (hseen 2 "x").trans (if_pos (by decide +kernel)),
    (hseen 1 "x").trans (if_neg (by decide +kernel)), ?_⟩
  obtain ⟨_, ⟨_, hnone⟩, _, hupdate, _, hexec⟩ := store_laws Store.assignedAside_built 2 "x"
  have haside : assignAside.exec {} (fun _ => throw .exhausted) ⟨.forked, [2, 0], 0, #[], []⟩ =
      .ok (.integer 7) ⟨.assignedAside, [2, 0], 0, #[], []⟩ := by with_unfolding_all rfl
  have hfive : Store.assignedAside.lookup 2 "x" = some (.integer 5) := by with_unfolding_all rfl
  rw [(hexec {} _ assignAside ⟨1, 1⟩ _ _).2 _ _ haside rfl rfl]
  obtain ⟨hfails, _, hvalue, _⟩ :=
    hupdate fun old => if old.isNull then Value.integer 7 else old
  generalize Store.update 2 "x" _ Store.assignedAside = result at hfails hvalue
  obtain ⟨_ | w, store⟩ := result
  · rw [hnone.mpr (hfails.mp rfl)] at hfive
    cases hfive
  · obtain ⟨old, hold, rfl⟩ := hvalue w rfl
    obtain rfl := Option.some.inj (hfive.symm.trans hold)
    exact ⟨_, rfl⟩

end Lumen
