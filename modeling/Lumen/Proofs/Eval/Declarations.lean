import Lumen.Proofs.Eval.Lasting
import Lumen.Proofs.Eval.Stack
import Lumen.Proofs.Store.Owner

/-! Which names a statement declares, and where.

A declaration binds a name in the scope that is current. Blocks, iterations and calls have a scope
of their own, so what is declared in them is gone with it; the guard of a loop, the branches of a
condition without a block, and what stands behind a binding or a break are done in the scope of the
statement itself. So a statement can give names to the current scope only, and only those that it
declares outside of every block, function and loop body (`Statement.declared`), however deep the
calls go that it makes and however they end. No scope ever loses a name
(`declarations_stay_local`). -/
namespace Lumen
open Eval

/-! ### The names of a scope -/

namespace Store
variable {store : Store} {c i : ScopeId} {name n : String}

theorem lt_of_declaredHere (h : store.declaredHere i n) : i < store.scopes.size := by
  unfold declaredHere at h
  split at h
  · cases h
  · next scope hscope => exact (Array.getElem?_eq_some_iff.mp hscope).1

theorem declaredHere_add (scope : Scope) (h : i < store.scopes.size) :
    (store.add scope).2.declaredHere i n = store.declaredHere i n := by
  simp only [declaredHere, add, Array.getElem?_push, Nat.ne_of_lt h, if_false]

theorem declaredHere_declare (h : store.declaredHere i n) (v : Value) :
    (store.declare c name v).declaredHere i n := by
  by_cases hhere : n = name ∧ i = c
  · obtain ⟨rfl, rfl⟩ := hhere
    rw [declaredHere_eq, store.valueAt_declare_self n v (lt_of_declaredHere h)]
    rfl
  · rwa [store.declaredHere_declare_of_ne c i name n v hhere]

theorem of_declaredHere_declare {v : Value} (h : (store.declare c name v).declaredHere i n) :
    store.declaredHere i n ∨ n = name ∧ i = c := by
  by_cases hhere : n = name ∧ i = c
  · exact .inr hhere
  · rw [store.declaredHere_declare_of_ne c i name n v hhere] at h
    exact .inl h

@[simp] theorem size_declare (store : Store) (c : ScopeId) (name : String) (v : Value) :
    (store.declare c name v).scopes.size = store.scopes.size := by
  simp [declare]

theorem size_update (store : Store) (c : ScopeId) (name : String) (change : Value → Value) :
    (store.update c name change).2.scopes.size = store.scopes.size := by
  cases howner : store.owner c name with
  | none => rw [store.update_of_no_owner howner]
  | some o =>
    obtain ⟨old, _, hupdate⟩ := store.update_of_owner howner change
    rw [hupdate, size_declare]

/-- To overwrite a name declares nothing. -/
theorem declaredHere_update (change : Value → Value) :
    (store.update c name change).2.declaredHere i n = store.declaredHere i n := by
  cases howner : store.owner c name with
  | none => rw [store.update_of_no_owner howner]
  | some o =>
    obtain ⟨old, hold, hupdate⟩ := store.update_of_owner howner change
    rw [hupdate]
    by_cases hhere : n = name ∧ i = o
    · obtain ⟨rfl, rfl⟩ := hhere
      have hbefore : store.declaredHere i n := by
        rw [declaredHere_eq, hold]
        rfl
      rw [hbefore, declaredHere_declare hbefore]
    · exact store.declaredHere_declare_of_ne o i name n _ hhere

end Store

/-! ### The current scope -/

namespace Eval

/-- The current scope is the one on top of the stack, or else a new root. -/
theorem current_cases (m : Machine) :
    (∃ id, m.stack.head? = some id ∧ current m = .ok id m) ∨
      m.stack = [] ∧
        current m = .ok m.store.scopes.size { m with store := m.store.root.2 } := by
  unfold current
  cases m.stack with
  | nil => exact .inr ⟨rfl, rfl⟩
  | cons id rest => exact .inl ⟨id, rfl, rfl⟩

theorem current_ok (m : Machine) : ∃ id m', current m = .ok id m' := by
  obtain ⟨id, _, hcurrent⟩ | ⟨_, hcurrent⟩ := current_cases m
  · exact ⟨id, m, hcurrent⟩
  · exact ⟨_, _, hcurrent⟩

/-- A name bound in the scope `id`, as its binding says: the value that it has then, and the
store. -/
def bound (binding : Binding) (id : ScopeId) (name : String) (v : Value) (store : Store) :
    Option Value × Store :=
  match binding with
  | .declare => (some v, store.declare id name v)
  | .assign => store.assign id name v
  | .nullAssign => store.nullAssign id name v

section Bound
variable {m m₁ : Machine} {id : ScopeId} (h : current m = .ok id m₁) (binding : Binding)
  (name : String) (v : Value) (position : Position)
include h

theorem bindName_eq : bindName binding name v position m =
    match bound binding id name v m₁.store with
    | (some w, store) => .ok w { m₁ with store }
    | (none, store) => .error (.error (.runtime position (.undefined name))) { m₁ with store } := by
  have hchange : ∀ update : Store → Option Value × Store,
      bindName.change name position update m₁ =
        match update m₁.store with
        | (some w, store) => .ok w { m₁ with store }
        | (none, store) =>
          .error (.error (.runtime position (.undefined name))) { m₁ with store } := by
    intro update
    simp only [bindName.change, bind, EStateM.bind, modifyGet_eq]
    cases update m₁.store with
    | mk found store => cases found <;> rfl
  simp only [bindName, bind, EStateM.bind, h]
  cases binding with
  | declare => rfl
  | assign => exact hchange _
  | nullAssign => exact hchange _

omit binding v in
theorem lookup_eq : lookup name position m =
    match m₁.store.lookup id name with
    | some v => .ok v m₁
    | none => .error (.error (.runtime position (.undefined name))) m₁ := by
  simp only [lookup, bind, EStateM.bind, h]
  show (match m₁.store.lookup id name with
    | some v => pure v
    | none => fail position (.undefined name) : Eval Value) m₁ = _
  cases m₁.store.lookup id name <;> rfl

theorem bindName_state : (bindName binding name v position m).state =
    { m₁ with store := (bound binding id name v m₁.store).2 } := by
  rw [bindName_eq h]
  cases bound binding id name v m₁.store with
  | mk found store => cases found <;> rfl

end Bound

/-- What a single step leaves: the scopes as they were, or the same but for the current one, which
may be new, or a machine where a name has been bound. -/
theorem Primitive.state_cases {α : Type} {c : Eval α} (hc : Primitive c) (m : Machine) :
    ∃ id m₁, Eval.current m = .ok id m₁ ∧
      (((c m).state.stack = m.stack ∧ (c m).state.store = m.store) ∨
      ((c m).state.stack = m₁.stack ∧ (c m).state.store = m₁.store) ∨
      ∃ binding name v,
        (c m).state = { m₁ with store := (bound binding id name v m₁.store).2 }) := by
  obtain ⟨id, m₁, h⟩ := current_ok m
  refine ⟨id, m₁, h, ?_⟩
  cases hc with
  | pure a => exact .inl ⟨rfl, rfl⟩
  | raise e => exact .inl ⟨rfl, rfl⟩
  | breakOut v position => exact .inl ⟨rfl, rfl⟩
  | exchange update => exact .inl ⟨rfl, rfl⟩
  | current =>
    rw [h]
    exact .inr (.inl ⟨rfl, rfl⟩)
  | surroundings =>
    simp only [Eval.surroundings, bind, EStateM.bind, h]
    exact .inr (.inl ⟨rfl, rfl⟩)
  | lookup name position =>
    have hstate : (Eval.lookup name position m).state = m₁ := by
      rw [lookup_eq h]
      cases m₁.store.lookup id name <;> rfl
    rw [hstate]
    exact .inr (.inl ⟨rfl, rfl⟩)
  | bindName binding name v position =>
    exact .inr (.inr ⟨binding, name, v, bindName_state h binding name v position⟩)
  | close f =>
    simp only [Eval.close, bind, EStateM.bind, h]
    exact .inr (.inl ⟨rfl, rfl⟩)

end Eval

/-! ### What machines gain -/

/-- No scope has lost a name. -/
def Machine.NamesLast (m m' : Machine) : Prop :=
  ∀ i n, m.store.declaredHere i n → m'.store.declaredHere i n

/-- No scope has lost a name, and of the scopes that were there, at most the current one has got
new names, which are in `names`. -/
structure Machine.Gains (names : String → Prop) (m m' : Machine) : Prop where
  stack : m'.stack = m.stack
  size : m.store.scopes.size ≤ m'.store.scopes.size
  kept : m.NamesLast m'
  gained : ∀ i < m.store.scopes.size, ∀ n, m'.store.declaredHere i n →
    m.store.declaredHere i n ∨ m.stack.head? = some i ∧ names n

namespace Machine.Gains
variable {names names' : String → Prop} {m m' m'' : Machine}

theorem of_store_eq (hstack : m'.stack = m.stack) (hstore : m'.store = m.store) :
    m.Gains names m' := by
  refine ⟨hstack, Nat.le_of_eq (hstore ▸ rfl), fun i n hn => ?_, fun i _ n hn => ?_⟩
  · rwa [hstore]
  · rw [hstore] at hn
    exact .inl hn

theorem trans (h : m.Gains names m') (h' : m'.Gains names m'') : m.Gains names m'' := by
  refine ⟨h'.stack.trans h.stack, Nat.le_trans h.size h'.size,
    fun i n hn => h'.kept i n (h.kept i n hn), fun i hi n hn => ?_⟩
  obtain hn | ⟨hhead, hname⟩ := h'.gained i (Nat.lt_of_lt_of_le hi h.size) n hn
  · exact h.gained i hi n hn
  · exact .inr ⟨h.stack ▸ hhead, hname⟩

theorem mono (h : m.Gains names m') (hnames : ∀ n, names n → names' n) : m.Gains names' m' :=
  { h with gained := fun i hi n hn => (h.gained i hi n hn).imp_right fun hgained =>
      ⟨hgained.1, hnames n hgained.2⟩ }

theorem add (scope : Scope) : m.Gains names { m with store := (m.store.add scope).2 } := by
  refine ⟨rfl, by simp [Store.add], fun i n hn => ?_, fun i hi n hn => ?_⟩
  · rwa [Store.declaredHere_add scope (Store.lt_of_declaredHere hn)]
  · rw [Store.declaredHere_add scope hi] at hn
    exact .inl hn

/-- What is gained in a new scope is gone with it. -/
theorem leave {parent : ScopeId} {bindings : Bindings}
    (h : (m.enter parent bindings).Gains names m') : m.Gains names' m'.leave := by
  have hadd : m.Gains names' { m with store := (m.store.add ⟨bindings, some parent⟩).2 } :=
    add ⟨bindings, some parent⟩
  refine ⟨?_, Nat.le_trans hadd.size h.size, fun i n hn => h.kept i n (hadd.kept i n hn),
    fun i hi n hn => ?_⟩
  · rw [stack_leave, h.stack, tail_enter]
  · obtain hn | ⟨hhead, _⟩ := h.gained i (Nat.lt_of_lt_of_le hi hadd.size) n hn
    · exact hadd.gained i hi n hn
    · -- The scope that is current inside is newer than those that were there.
      obtain rfl : m.store.scopes.size = i := Option.some.inj hhead
      exact absurd hi (Nat.lt_irrefl _)

theorem current {id : ScopeId} (h : Eval.current m = .ok id m') :
    m.Gains names m' ∧ (m.stack.head? = some id ∨ m.store.scopes.size ≤ id) := by
  obtain ⟨id', hhead, hcurrent⟩ | ⟨_, hcurrent⟩ := Eval.current_cases m
  · obtain ⟨rfl, rfl⟩ := EStateM.Result.ok.inj (hcurrent.symm.trans h)
    exact ⟨of_store_eq rfl rfl, .inl hhead⟩
  · obtain ⟨rfl, rfl⟩ := EStateM.Result.ok.inj (hcurrent.symm.trans h)
    exact ⟨add ⟨[], none⟩, .inr (Nat.le_refl _)⟩

theorem declare {id : ScopeId} (h : Eval.current m = .ok id m') {name : String}
    (hname : names name) (v : Value) :
    m.Gains names { m' with store := m'.store.declare id name v } := by
  obtain ⟨hgains, hid⟩ : m.Gains names m' ∧ _ := current h
  refine ⟨hgains.stack, ?_, fun i n hn => Store.declaredHere_declare (hgains.kept i n hn) v,
    fun i hi n hn => ?_⟩
  · rw [Store.size_declare]
    exact hgains.size
  · obtain hn | ⟨rfl, rfl⟩ := Store.of_declaredHere_declare hn
    · exact hgains.gained i hi n hn
    · exact .inr ⟨hid.resolve_right (Nat.not_le.mpr hi), hname⟩

theorem update {id : ScopeId} (h : Eval.current m = .ok id m') (name : String)
    (change : Value → Value) :
    m.Gains names { m' with store := (m'.store.update id name change).2 } := by
  have hgains : m.Gains names m' := (current h).1
  refine ⟨hgains.stack, ?_, fun i n hn => ?_, fun i hi n hn => ?_⟩
  · rw [Store.size_update]
    exact hgains.size
  · rw [Store.declaredHere_update]
    exact hgains.kept i n hn
  · rw [Store.declaredHere_update] at hn
    exact hgains.gained i hi n hn

theorem bound {id : ScopeId} (h : Eval.current m = .ok id m') (binding : Binding) (name : String)
    (v : Value) (hname : binding = .declare → names name) :
    m.Gains names { m' with store := (Eval.bound binding id name v m'.store).2 } := by
  cases binding with
  | declare => exact declare h (hname rfl) v
  | assign => exact update h name _
  | nullAssign => exact update h name _

end Machine.Gains

/-! ### What computations gain -/

/-- Wherever it starts and however it ends, the computation gives names in `names` to the current
scope at most. -/
def Eval.Gains (names : String → Prop) {α : Type} (c : Eval α) : Prop :=
  ∀ m : Machine, m.Gains names (c m).state

/-- Every name. -/
def anything (_ : String) : Prop := True

/-- No name. -/
def nothing (_ : String) : Prop := False

namespace Eval.Gains
variable {names names' : String → Prop} {α β : Type}

/-- A computation that leaves the stack and the store alone. -/
theorem still {c : Eval α} (hstack : ∀ m, (c m).state.stack = m.stack)
    (hstore : ∀ m, (c m).state.store = m.store) : Gains names c :=
  fun m => .of_store_eq (hstack m) (hstore m)

theorem pure (a : α) : Gains names (Pure.pure a) := still (fun _ => rfl) fun _ => rfl

theorem throw (u : Unwind) : Gains names (MonadExcept.throw u : Eval α) :=
  still (fun _ => rfl) fun _ => rfl

theorem fail (position : Position) (cause : RuntimeCause) :
    Gains names (Eval.fail position cause : Eval α) := throw _

theorem ofExcept (r : Except Error α) : Gains names (Eval.ofExcept r) := by
  cases r with
  | ok a => exact pure a
  | error e => exact throw _

theorem truth (position : Position) (v : Value) : Gains names (Eval.truth position v) :=
  ofExcept _

theorem mono {c : Eval α} (hc : Gains names c) (hnames : ∀ n, names n → names' n) :
    Gains names' c := fun m => (hc m).mono hnames

/-- What gains nothing gains at most whatever one likes. -/
theorem some {c : Eval α} (hc : Gains nothing c) : Gains names c := hc.mono fun _ => False.elim

theorem follow {c : Eval α} {next : Result α → Eval β} (hc : Gains names c)
    (hnext : ∀ r, Gains names (next r)) : Gains names (c.follow next) :=
  fun m => (hc m).trans (hnext (c m) (c m).state)

theorem bind {c : Eval α} {f : α → Eval β} (hc : Gains names c) (hf : ∀ a, Gains names (f a)) :
    Gains names (c >>= f) := by
  rw [bind_eq_follow]
  refine hc.follow fun r => ?_
  cases r with
  | ok a m => exact hf a
  | error u m => exact throw u

/-! #### Names -/

theorem current : Gains names Eval.current := by
  intro m
  obtain ⟨id, m', hcurrent⟩ := current_ok m
  rw [hcurrent]
  exact (Machine.Gains.current hcurrent).1

theorem get : Gains names (MonadState.get : Eval Machine) := still (fun _ => rfl) fun _ => rfl

theorem lookup (name : String) (position : Position) : Gains names (Eval.lookup name position) := by
  refine current.bind fun id => get.bind fun m => ?_
  cases m.store.lookup id name with
  | none => exact fail position _
  | some v => exact pure v

theorem close (f : Function) : Gains names (Eval.close f) :=
  current.bind fun _ => still (fun _ => rfl) fun _ => rfl

theorem bindName (binding : Binding) (name : String) (v : Value) (position : Position)
    (hname : binding = .declare → names name) :
    Gains names (Eval.bindName binding name v position) := by
  intro m
  obtain ⟨id, m', hcurrent⟩ := current_ok m
  rw [bindName_state hcurrent]
  exact .bound hcurrent binding name v hname

/-! #### Scopes, operators and loops -/

theorem within {c : Eval α} (limits : Limits) (parent : ScopeId) (bindings : Bindings)
    (position : Position) (hc : Gains anything c) :
    Gains names (Eval.within limits parent bindings position c) := by
  intro m
  by_cases hfull : limits.maxDepth ≤ m.stack.length
  · rw [within_of_full hfull]
    exact .of_store_eq rfl rfl
  · rw [within_of_room hfull, EStateM.Result.state_withState]
    exact (hc _).leave

theorem inChild {c : Eval α} (limits : Limits) (position : Position) (hc : Gains anything c) :
    Gains names (Eval.inChild limits position c) :=
  current.bind fun id => within limits id [] position hc

theorem combine (operator : Operator) {left right : Eval Value} (leftAt rightAt position : Position)
    (hleft : Gains names left) (hright : Gains names right) :
    Gains names (Eval.combine operator left right leftAt rightAt position) := by
  have htruth : Gains names (combine.rightTruth right rightAt) :=
    hright.bind fun v => (truth rightAt v).bind fun _ => pure _
  refine hleft.bind fun v => ?_
  cases operator with
  | or =>
    refine (truth leftAt v).bind fun b => ?_
    cases b
    · exact htruth
    · exact pure _
  | and =>
    refine (truth leftAt v).bind fun b => ?_
    cases b
    · exact pure _
    · exact htruth
  | nullCoalescing =>
    dsimp only
    split
    · exact hright
    · exact pure v
  | _ => exact hright.bind fun w => ofExcept _

theorem repeatWhile {guard : Eval Bool} {body : Eval Value} (position : Position) (limit : Nat)
    (last : Value) (hguard : Gains names guard) (hbody : Gains names body) :
    Gains names (Eval.repeatWhile guard body position limit last) := by
  induction limit generalizing last with
  | zero =>
    rw [repeatWhile_eq_follow]
    refine hguard.follow fun r => ?_
    rcases r with ⟨_ | _, m⟩ | ⟨_ | _ | _, m⟩
    · exact pure last
    · exact fail position _
    · exact pure _
    · exact throw _
    · exact throw _
  | succ limit ih =>
    rw [repeatWhile_eq_follow]
    refine hguard.follow fun r => ?_
    rcases r with ⟨_ | _, m⟩ | ⟨_ | _ | _, m⟩
    · exact pure last
    · refine hbody.follow fun r => ?_
      rcases r with ⟨v, m⟩ | ⟨_ | _ | _, m⟩
      · exact ih v
      · exact pure _
      · exact throw _
      · exact throw _
    · exact pure _
    · exact throw _
    · exact throw _

/-- Whatever is evaluated, other scopes than the current one gain no names, if natives only call
closures. -/
theorem lockstep (limits : Limits) :
    Lockstep limits limits Request.IsCall fun _ _ c _ => Gains anything c where
  step hc := by
    intro m
    obtain ⟨id, m₁, hcurrent, ⟨hstack, hstore⟩ | ⟨hstack, hstore⟩ | ⟨binding, name, v, heq⟩⟩ :=
      hc.state_cases m
    · exact .of_store_eq hstack hstore
    · exact (Machine.Gains.current hcurrent).1.trans (.of_store_eq hstack hstore)
    · rw [heq]
      exact .bound hcurrent binding name v fun _ => trivial
  bind hc hf := hc.bind hf
  within parent bindings position hc := within limits parent bindings position hc
  repeatWhile position last hguard hbody := repeatWhile position _ last hguard hbody
  boundary hc := by
    rw [boundary_eq_follow]
    refine hc.follow fun r => ?_
    rcases r with ⟨v, m⟩ | ⟨_ | _ | _, m⟩
    · exact pure v
    all_goals exact throw _
  locatedAt position hc := by
    rw [locatedAt_eq_follow]
    refine hc.follow fun r => ?_
    rcases r with ⟨v, m⟩ | ⟨_ | _ | _, m⟩
    · exact pure v
    all_goals exact throw _
  write line := still (fun _ => rfl) fun _ => rfl
  answer _ hc hf := hc.follow fun r => by
    rcases r with ⟨v, m⟩ | ⟨_ | e | _, m⟩
    · exact hf (.ok v)
    · exact throw _
    · exact hf (.error e)
    · exact throw _
  afresh _ hasked _ := hasked.elim

end Eval.Gains

/-! ### What trees declare -/

mutual

/-- The names that a statement declares in the scope that it is done in: those of the declarations
that stand in no block, in no function and in no body of a loop. -/
def Statement.declared : Statement → List String
  | .bind .declare name value _ => name :: value.declared
  | .bind .assign _ value _ => value.declared
  | .bind .nullAssign _ value _ => value.declared
  | .condition branches none _ => declaredInBranches branches
  | .condition branches (some otherwise) _ => declaredInBranches branches ++ otherwise.declared
  | .loop guard _ _ => guard.declared
  | .breakOut none _ => []
  | .breakOut (some value) _ => value.declared
  | .expression _ => []

def declaredInBranches : List Branch → List String
  | [] => []
  | ⟨guard, body⟩ :: rest => guard.declared ++ body.declared ++ declaredInBranches rest

end

section Trees
variable {host : Host}

theorem Host.gains_anything (hasks : host.Asks Request.IsCall) (room d : Nat) (r : Request)
    (hr : r.IsCall) : Gains anything (host.serve room r) :=
  (Gains.lockstep host.limits).serve hasks (fun _ => .throw _) room d r (.inl hr)

/-- A call declares in a scope of its own. -/
theorem Host.gains_call (hasks : host.Asks Request.IsCall) (room : Nat) (c : Closure)
    (arguments : List Value) (position : Position) (label : String) :
    Gains nothing (host.serve room (.call c arguments position label)) := by
  cases room with
  | zero => exact .throw _
  | succ room =>
    rw [Host.serve, Host.call]
    split
    · exact .fail position _
    · refine .within _ _ _ position ?_
      exact @Lockstep.function _ _ _ _ (Gains.lockstep host.limits) host.natives _
        (host.serveTrace room)
        (fun d r hr => Host.gains_anything hasks room d r (or_self_iff.mp hr))
        hasks 0 position c.function

/-- A block declares in a scope of its own. -/
theorem Block.gains (hasks : host.Asks Request.IsCall) (room : Nat) (b : Block) :
    Gains nothing (b.eval host.limits (host.serve room)) := by
  obtain ⟨ss, position⟩ := b
  simp only [Block.eval]
  refine .inChild _ position ?_
  exact @Lockstep.statements _ _ _ _ (Gains.lockstep host.limits) _ (host.serveTrace room)
    (Host.gains_anything hasks room) 0 .null ss

mutual

theorem Expression.gains (hasks : host.Asks Request.IsCall) (room : Nat) : (e : Expression) →
    Gains nothing (e.eval host.limits (host.serve room))
  | .binary operator left right position => by
    simp only [Expression.eval]
    exact .combine operator _ _ position (left.gains hasks room) (right.gains hasks room)
  | .negate operand position => by
    simp only [Expression.eval]
    exact (operand.gains hasks room).bind fun _ => .ofExcept _
  | .constant value _ => by
    simp only [Expression.eval]
    exact .pure _
  | .reference name position => by
    simp only [Expression.eval]
    exact .lookup name position
  | .block b => by
    simp only [Expression.eval]
    exact b.gains hasks room
  | .lambda f => by
    simp only [Expression.eval]
    exact .close _
  | .call callee given position => by
    simp only [Expression.eval]
    refine (callee.gains hasks room).bind fun v => ?_
    cases v with
    | closure c =>
      exact (gains_arguments hasks room given).bind fun vs =>
        Host.gains_call hasks room c vs position _
    | _ => exact .fail position _

theorem gains_arguments (hasks : host.Asks Request.IsCall) (room : Nat) : (es : List Expression) →
    Gains nothing (evalArguments host.limits (host.serve room) es)
  | [] => by
    simp only [evalArguments]
    exact .pure _
  | e :: rest => by
    simp only [evalArguments]
    exact (e.gains hasks room).bind fun _ => (gains_arguments hasks room rest).bind fun _ => .pure _

end

mutual

theorem Statement.gains (hasks : host.Asks Request.IsCall) (room : Nat) {names : String → Prop} :
    (s : Statement) → (∀ n ∈ s.declared, names n) →
    Gains names (s.exec host.limits (host.serve room))
  | .bind binding name value position, hnames => by
    simp only [Statement.exec]
    cases binding with
    | declare =>
      simp only [Statement.declared, List.forall_mem_cons] at hnames
      exact (value.gains hasks room hnames.2).bind fun v =>
        .bindName _ name v position fun _ => hnames.1
    | _ =>
      simp only [Statement.declared] at hnames
      exact (value.gains hasks room hnames).bind fun v => .bindName _ name v position nofun
  | .condition bs none _, hnames => by
    simp only [Statement.exec, Statement.declared] at hnames ⊢
    exact (gains_branches hasks room bs hnames).bind fun _ => .pure _
  | .condition bs (some otherwise) _, hnames => by
    simp only [Statement.exec, Statement.declared, List.forall_mem_append] at hnames ⊢
    refine (gains_branches hasks room bs hnames.1).bind fun v => ?_
    cases v with
    | none => exact otherwise.gains hasks room hnames.2
    | some v => exact .pure v
  | .loop guard body position, hnames => by
    simp only [Statement.exec, Statement.declared] at hnames ⊢
    exact .repeatWhile position _ _ ((guard.gains hasks room hnames).bind fun _ => .truth _ _)
      (.inChild _ position (body.gains hasks room fun _ _ => trivial))
  | .breakOut none position, _ => by
    simp only [Statement.exec]
    exact .throw _
  | .breakOut (some value) position, hnames => by
    simp only [Statement.exec, Statement.declared] at hnames ⊢
    exact (value.gains hasks room hnames).bind fun _ => .throw _
  | .expression e, _ => by
    simp only [Statement.exec]
    exact (e.gains hasks room).some

theorem gains_branches (hasks : host.Asks Request.IsCall) (room : Nat) {names : String → Prop} :
    (bs : List Branch) →
    (∀ n ∈ declaredInBranches bs, names n) →
    Gains names (execBranches host.limits (host.serve room) bs)
  | [], _ => by
    simp only [execBranches]
    exact .pure _
  | ⟨guard, body⟩ :: rest, hnames => by
    simp only [execBranches, declaredInBranches, List.forall_mem_append] at hnames ⊢
    refine (guard.gains hasks room hnames.1.1).bind fun v => (Gains.truth _ v).bind fun b => ?_
    cases b
    · exact gains_branches hasks room rest hnames.2
    · exact (body.gains hasks room hnames.1.2).bind fun _ => .pure _

end

end Trees

/-! ### Names last -/

namespace Machine.NamesLast
variable {m m' m'' : Machine}

theorem trans (h : m.NamesLast m') (h' : m'.NamesLast m'') : m.NamesLast m'' :=
  fun i n hn => h' i n (h i n hn)

theorem add (scope : Scope) (m : Machine) :
    m.NamesLast { m with store := (m.store.add scope).2 } :=
  (Gains.add scope : m.Gains nothing _).kept

theorem install (root : ScopeId) (slot : Nat) (natives : List Native) (m : Machine) :
    m.NamesLast (m.install root slot natives) := by
  induction natives generalizing slot m with
  | nil => exact fun _ _ hn => hn
  | cons native rest ih =>
    rw [install_cons]
    have hone : m.NamesLast (m.installOne root slot native) := fun i n hn =>
      Store.declaredHere_declare (add ⟨[], none⟩ m i n hn) _
    exact hone.trans (ih (slot + 1) _)

end Machine.NamesLast

/-- A scope that has a name keeps it. -/
theorem lasting_names : Lasting Machine.NamesLast where
  refl _ := fun _ _ hn => hn
  trans := .trans
  step m hc := ((Gains.lockstep {}).step (d := 0) hc m).kept
  write _ _ := fun _ _ hn => hn
  enter parent bindings m := .add ⟨bindings, some parent⟩ m
  leave _ := fun _ _ hn => hn
  reset natives m := fun i n hn =>
    Machine.NamesLast.install _ 0 natives _ i n (Machine.NamesLast.add ⟨[], none⟩ m i n hn)

/-- **Declarations stay where they are made.** Let natives use the interpreter for calls only.
However a statement ends, all scopes but the current one have exactly the names that they had before
it, and the current one has got no others than those that the statement declares outside of blocks,
functions and loop bodies. An expression gives no names to any scope that was there. Whatever is
evaluated, by any natives, a name that a scope has at one time it has at all later times. -/
theorem declarations_stay_local {host : Host} (hasks : host.Asks Request.IsCall) (room : Nat)
    (m : Machine) :
    (∀ s : Statement, ∀ i < m.store.scopes.size, ∀ n,
      let m' := (s.exec host.limits (host.serve room) m).state
      (m.store.declaredHere i n → m'.store.declaredHere i n) ∧
      (m.stack.head? ≠ some i → m'.store.declaredHere i n = m.store.declaredHere i n) ∧
      (m'.store.declaredHere i n → m.store.declaredHere i n ∨ n ∈ s.declared)) ∧
    (∀ e : Expression, ∀ i < m.store.scopes.size, ∀ n,
      (e.eval host.limits (host.serve room) m).state.store.declaredHere i n =
        m.store.declaredHere i n) ∧
    ∀ t : Task, (t.trace host room).erase = t.run host room ∧
      ((t.trace host room).history m).Pairwise fun earlier later =>
        ∀ i n, earlier.store.declaredHere i n → later.store.declaredHere i n := by
  refine ⟨fun s i hi n => ?_, fun e i hi n => ?_, fun t =>
    ⟨t.trace_erase host room, lasting_names.task host room t m⟩⟩
  · have hgains : m.Gains (· ∈ s.declared) _ := s.gains hasks room (fun _ hn => hn) m
    refine ⟨hgains.kept i n, fun hhead => Bool.eq_iff_iff.mpr ⟨fun hn => ?_, hgains.kept i n⟩,
      fun hn => (hgains.gained i hi n hn).imp_right And.right⟩
    exact (hgains.gained i hi n hn).resolve_right fun hgained => hhead hgained.1
  · have hgains := e.gains hasks room m
    refine Bool.eq_iff_iff.mpr ⟨fun hn => ?_, hgains.kept i n⟩
    exact (hgains.gained i hi n hn).resolve_right And.right

/-! ### A loop that declares in its guard and in its body -/

/-- The statement `x = loop g = true break z = 5`, with a loop whose guard is done in the scope of
the statement and whose body is not. -/
def declaringLoop : Statement :=
  let guard := Statement.bind .declare "g" (.expression (.constant (.boolean true) ⟨1, 14⟩)) ⟨1, 10⟩
  let z := Statement.bind .declare "z" (.expression (.constant (.integer 5) ⟨1, 29⟩)) ⟨1, 25⟩
  .bind .declare "x" (.loop guard (.breakOut (some z) ⟨1, 19⟩) ⟨1, 5⟩) ⟨1, 1⟩

/-- The current scope has got `x` and `g`, but not `z`, and the scope of the native is as empty as
it was. -/
theorem declarations_stay_local_loop :
    let host : Host := ⟨[Native.attempt], {}⟩
    let m := Machine.empty.reset host.natives
    let m' := (declaringLoop.exec host.limits (host.serve 1) m).state
    m.stack = [0] ∧ m'.store.declaredHere 0 "x" ∧ m'.store.declaredHere 0 "g" ∧
      ¬m'.store.declaredHere 0 "z" ∧ m'.store.declaredHere 0 "try" ∧
      ∀ n, m'.store.declaredHere 1 n = m.store.declaredHere 1 n := by
  intro host m m'
  have hasks : host.Asks Request.IsCall := catchingHost_asks
  obtain ⟨hstatement, _, _⟩ := declarations_stay_local hasks 1 m
  have hlocal := hstatement declaringLoop
  refine ⟨rfl, by decide +kernel, by decide +kernel, fun hz => ?_, ?_, fun n => ?_⟩
  · have hdeclared := (hlocal 0 (by decide) "z").2.2 hz
    revert hdeclared
    decide +kernel
  · exact (hlocal 0 (by decide) "try").1 (by decide +kernel)
  · exact (hlocal 1 (by decide) n).2.1 (by decide)

end Lumen
