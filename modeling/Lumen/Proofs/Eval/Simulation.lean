import Lumen.Native.Console
import Lumen.Proofs.Eval.Lockstep
import Lumen.Proofs.Eval.Pairing

/-! Two evaluations that correspond.

If trees are alike and machines correspond, so do the evaluations: both succeed with values that
correspond or fail with the same cause, on machines that correspond again (`runs_statement`,
`serves_serve`, `serve_execute`). Every construction of the evaluator keeps this. A tree is
evaluated only inside a scope that was entered since the two began, so the scope on top of the
stack is always shared; a call may come from any scope, since it enters the one that its closure
captured. -/
namespace EStateM.Result.Alike
variable {ε σ α : Type} {S S' : σ → σ → Prop} {E : ε → ε → Prop} {Q : α → α → Prop}
  {r r' : Result ε σ α}

theorem state (h : r.Alike S E Q r') : S r.state r'.state := by
  cases h with
  | ok _ hs => exact hs
  | error _ hs => exact hs

theorem withState (h : r.Alike S E Q r') {s s' : σ} (hs : S' s s') :
    (r.withState s).Alike S' E Q (r'.withState s') := by
  cases h with
  | ok ha _ => exact .ok ha hs
  | error he _ => exact .error he hs

theorem mono (h : r.Alike S E Q r') (hS : ∀ s s', S s s' → S' s s') : r.Alike S' E Q r' := by
  cases h with
  | ok ha hs => exact .ok ha (hS _ _ hs)
  | error he hs => exact .error he (hS _ _ hs)

end EStateM.Result.Alike

namespace Lumen
open Eval

namespace Pairing

inductive Unwinds (L : Pairing) : Unwind → Unwind → Prop
  | breakOut {v v' : Value} {p p' : Position} :
    L.Values v v' → L.place p p' → Unwinds L (.breakOut v p) (.breakOut v' p')
  | error {e e' : Error} : L.Errors e e' → Unwinds L (.error e) (.error e')
  | exhausted : Unwinds L .exhausted .exhausted

/-- The computations correspond on machines that are `d` scopes deeper than at the beginning. -/
abbrev Runs (L : Pairing) (d : Nat) {α : Type} (Q : α → α → Prop) : Eval α → Eval α → Prop :=
  EStateM.Alike (L.Machines d) L.Unwinds Q

variable {L : Pairing} {d : Nat} {α β : Type} {Q : α → α → Prop} {R : β → β → Prop}

/-! ### Steps -/

theorem runs_ofExcept {r r' : Except Error α} (h : r.Alike L.Errors Q r') :
    L.Runs d Q (ofExcept r) (ofExcept r') := by
  cases h with
  | ok ha => exact .pure ha
  | error he => exact .throw (.error he)

theorem runs_fail {p p' : Position} (hp : L.place p p') (cause : RuntimeCause) :
    L.Runs d Q (fail p cause) (fail p' cause) := .throw (.error (.runtime cause hp))

theorem runs_truth {p p' : Position} (hp : L.place p p') {v v' : Value} (hv : L.Values v v') :
    L.Runs d Eq (truth p v) (truth p' v') := runs_ofExcept (hv.toBoolean hp)

/-- Inside a scope that was entered since the beginning, the current scope is shared. -/
theorem runs_current :
    L.Runs (d + 1) (fun id id' => id' = id + L.scopeShift ∧ L.shared id) current current := by
  intro m m' h
  obtain ⟨inner, hlength, hshared, hleft, hright⟩ := h.stack
  cases inner with
  | nil => cases hlength
  | cons id inner =>
    rw [List.cons_append] at hleft
    rw [List.map_cons, List.cons_append] at hright
    simp only [current, hleft, hright]
    exact .ok ⟨rfl, hshared id List.mem_cons_self⟩ h

theorem runs_get : L.Runs d (L.Machines d) get get := fun _ _ h => .ok h h

/-- The outcome of a search for a name. -/
theorem runs_found {p p' : Position} (hp : L.place p p') (cause : RuntimeCause) :
    ∀ {v v' : Option Value}, Option.Rel L.Values v v' →
      L.Runs d L.Values (match v with | some v => pure v | none => fail p cause)
        (match v' with | some v => pure v | none => fail p' cause)
  | _, _, .some hv => .pure hv
  | _, _, .none => runs_fail hp cause

theorem runs_lookup (name : String) {p p' : Position} (hp : L.place p p') :
    L.Runs (d + 1) L.Values (lookup name p) (lookup name p') := by
  refine .bind runs_current fun id id' hid => .bind runs_get fun m m' h => ?_
  obtain ⟨rfl, hshared⟩ := hid
  exact runs_found hp _ (h.store.lookup name hshared)

/-- The names that a native sees have values that correspond. -/
theorem runs_surroundings :
    L.Runs (d + 1) (fun f f' => ∀ name, Option.Rel L.Values (f name) (f' name)) surroundings
      surroundings := by
  refine .bind runs_current fun id id' hid => .bind runs_get fun m m' h => .pure fun name => ?_
  obtain ⟨rfl, hshared⟩ := hid
  exact h.store.lookup name hshared

theorem runs_change (name : String) {p p' : Position} (hp : L.place p p')
    {update update' : Store → Option Value × Store}
    (h : ∀ s s', L.Stores s s' →
      Option.Rel L.Values (update s).1 (update' s').1 ∧ L.Stores (update s).2 (update' s').2) :
    L.Runs d L.Values (bindName.change name p update) (bindName.change name p' update') := by
  refine .bind (Q := Option.Rel L.Values) ?_ fun v v' hv => runs_found hp _ hv
  intro m m' hm
  obtain ⟨hresult, hstore⟩ := h _ _ hm.store
  exact .ok hresult (hm.withStore hstore)

theorem runs_bindName (binding : Binding) (name : String) {v v' : Value} (hv : L.Values v v')
    {p p' : Position} (hp : L.place p p') :
    L.Runs (d + 1) L.Values (bindName binding name v p) (bindName binding name v' p') := by
  refine .bind runs_current fun id id' hid => ?_
  obtain ⟨rfl, hshared⟩ := hid
  cases binding with
  | declare =>
    refine .bind_of_eq ?_ fun _ => .pure hv
    exact fun m m' h => .ok rfl (h.withStore (h.store.declare hshared name hv))
  | assign =>
    exact runs_change name hp fun s s' h => h.update name (fun _ _ _ => hv) hshared
  | nullAssign =>
    refine runs_change name hp fun s s' h => h.update name (fun old old' hold => ?_) hshared
    rw [hold.isNull]
    split
    · exact hv
    · exact hold

theorem runs_close {f f' : Function} (hf : f.Alike L.place f') :
    L.Runs (d + 1) L.Values (close f) (close f') := by
  refine .bind runs_current fun id id' hid m m' h => ?_
  obtain ⟨rfl, hshared⟩ := hid
  exact .ok (.closure ⟨h.nextClosure, hf, rfl, hshared⟩)
    ⟨⟨h.store, by simp [h.nextClosure, Nat.add_right_comm], h.kept, h.written⟩, h.stack⟩

theorem runs_exchange {update update' : List Value → List Value}
    (h : ∀ kept kept', L.kept kept kept' → L.kept (update kept) (update' kept')) :
    L.Runs d L.kept (exchange update) (exchange update') := fun _ _ hm =>
  .ok hm.kept (hm.exchange (h _ _ hm.kept))

/-! ### Scopes -/

theorem Machines.enter {m m' : Machine} (h : L.Machines d m m') {parent : ScopeId}
    (hparent : L.shared parent) {bs bs' : Bindings} (hbs : L.Bound bs bs') :
    L.Machines (d + 1) (m.enter parent bs) (m'.enter (parent + L.scopeShift) bs') := by
  have hscope : L.Scopes ⟨bs, some parent⟩ ⟨bs', some (parent + L.scopeShift)⟩ := by
    refine ⟨hbs, rfl, fun p hp => ?_⟩
    obtain rfl := Option.mem_some.mp hp
    exact hparent
  obtain ⟨hid, hshared, hstore⟩ := h.store.add hscope
  obtain ⟨inner, hlength, hinner, hleft, hright⟩ := h.stack
  refine ⟨⟨hstore, h.nextClosure, h.kept, h.written⟩, (m.store.add ⟨bs, some parent⟩).1 :: inner,
    congrArg (· + 1) hlength, List.forall_mem_cons.mpr ⟨hshared, hinner⟩, ?_, ?_⟩
  · exact congrArg (List.cons _) hleft
  · rw [List.map_cons, ← hid]
    exact congrArg (List.cons _) hright

theorem Machines.leave {m m' : Machine} (h : L.Machines (d + 1) m m') :
    L.Machines d m.leave m'.leave := by
  obtain ⟨inner, hlength, hinner, hleft, hright⟩ := h.stack
  cases inner with
  | nil => cases hlength
  | cons id inner =>
    refine ⟨⟨h.store, h.nextClosure, h.kept, h.written⟩, inner, Nat.succ.inj hlength, ?_, ?_, ?_⟩
    · exact (List.forall_mem_cons.mp hinner).2
    · rw [Machine.stack_leave, hleft]
      rfl
    · rw [Machine.stack_leave, hright]
      rfl

theorem runs_within (limits : Limits) {parent : ScopeId} (hparent : L.shared parent)
    {bs bs' : Bindings} (hbs : L.Bound bs bs') {p p' : Position} (hp : L.place p p')
    {c c' : Eval α} (hc : L.Runs (d + 1) Q c c') :
    L.Runs d Q (within limits parent bs p c)
      (within limits (parent + L.scopeShift) bs' p' c') := by
  intro m m' h
  by_cases hfull : limits.maxDepth ≤ m.stack.length
  · rw [within_of_full hfull, within_of_full (h.length_stack ▸ hfull)]
    exact .error (.error (.runtime _ hp)) h
  · rw [within_of_room hfull, within_of_room (h.length_stack ▸ hfull)]
    have hresult := hc _ _ (h.enter hparent hbs)
    exact hresult.withState hresult.state.leave

theorem runs_inChild (limits : Limits) {p p' : Position} (hp : L.place p p') {c c' : Eval α}
    (hc : L.Runs (d + 2) Q c c') :
    L.Runs (d + 1) Q (inChild limits p c) (inChild limits p' c') := by
  refine .bind runs_current fun id id' hid => ?_
  obtain ⟨rfl, hshared⟩ := hid
  exact runs_within limits hshared .nil hp hc

/-! ### Operators, loops and boundaries -/

theorem Runs.follow {c c' : Eval α} {next next' : Eval.Result α → Eval β} (hc : L.Runs d Q c c')
    (hnext : ∀ r r', r.Alike (L.Machines d) L.Unwinds Q r' → L.Runs d R (next r) (next' r')) :
    L.Runs d R (c.follow next) (c'.follow next') := by
  intro m m' h
  have hresult := hc m m' h
  exact hnext _ _ hresult _ _ hresult.state

theorem runs_combine (operator : Operator) {left left' right right' : Eval Value}
    (hleft : L.Runs d L.Values left left') (hright : L.Runs d L.Values right right')
    {lp lp' rp rp' p p' : Position} (hlp : L.place lp lp') (hrp : L.place rp rp')
    (hp : L.place p p') :
    L.Runs d L.Values (combine operator left right lp rp p)
      (combine operator left' right' lp' rp' p') := by
  have htruth : L.Runs d L.Values (combine.rightTruth right rp) (combine.rightTruth right' rp') :=
    .bind hright fun v v' hv => .bind (runs_truth hrp hv) fun b b' hb => .pure (hb ▸ .boolean b)
  refine .bind hleft fun v v' hv => ?_
  cases operator with
  | or =>
    refine .bind_of_eq (runs_truth hlp hv) fun b => ?_
    cases b
    · exact htruth
    · exact .pure (.boolean true)
  | and =>
    refine .bind_of_eq (runs_truth hlp hv) fun b => ?_
    cases b
    · exact .pure (.boolean false)
    · exact htruth
  | nullCoalescing =>
    dsimp only
    rw [hv.isNull]
    split
    · exact hright
    · exact .pure hv
  | _ => exact .bind hright fun w w' hw => runs_ofExcept (alike_binary hv hw hp _)

/-- What is done after the guard of a loop. -/
theorem runs_turn {guard guard' : Eval Bool} (hguard : L.Runs d Eq guard guard')
    {last last' : Value} (hlast : L.Values last last') {more more' : Eval Value}
    (hmore : L.Runs d L.Values more more') :
    L.Runs d L.Values
      (guard.follow fun
        | .error (.breakOut v _) _ => pure v
        | .error u _ => throw u
        | .ok false _ => pure last
        | .ok true _ => more)
      (guard'.follow fun
        | .error (.breakOut v _) _ => pure v
        | .error u _ => throw u
        | .ok false _ => pure last'
        | .ok true _ => more') := by
  refine Runs.follow hguard fun r r' hr => ?_
  cases hr with
  | @ok b b' _ _ hb _ =>
    subst hb
    cases b
    · exact .pure hlast
    · exact hmore
  | error hu _ =>
    cases hu with
    | breakOut hv _ => exact .pure hv
    | error he => exact .throw (.error he)
    | exhausted => exact .throw .exhausted

theorem runs_repeatWhile {guard guard' : Eval Bool} (hguard : L.Runs d Eq guard guard')
    {body body' : Eval Value} (hbody : L.Runs d L.Values body body') {p p' : Position}
    (hp : L.place p p') (limit : Nat) {last last' : Value} (hlast : L.Values last last') :
    L.Runs d L.Values (repeatWhile guard body p limit last)
      (repeatWhile guard' body' p' limit last') := by
  induction limit generalizing last last' with
  | zero =>
    rw [repeatWhile_eq_follow, repeatWhile_eq_follow]
    exact runs_turn hguard hlast (runs_fail hp _)
  | succ limit ih =>
    rw [repeatWhile_eq_follow, repeatWhile_eq_follow]
    refine runs_turn hguard hlast (Runs.follow hbody fun r r' hr => ?_)
    cases hr with
    | ok hv _ => exact ih hv
    | error hu _ =>
      cases hu with
      | breakOut hv _ => exact .pure hv
      | error he => exact .throw (.error he)
      | exhausted => exact .throw .exhausted

section Ends
variable {c c' : Eval Value} (hc : L.Runs d L.Values c c')
include hc

theorem runs_boundary : L.Runs d L.Values (boundary c) (boundary c') := by
  rw [boundary_eq_follow, boundary_eq_follow]
  refine Runs.follow hc fun r r' hr => ?_
  cases hr with
  | ok hv _ => exact .pure hv
  | error hu _ =>
    cases hu with
    | breakOut _ hp => exact runs_fail hp _
    | error he => exact .throw (.error he)
    | exhausted => exact .throw .exhausted

theorem runs_locatedAt {p p' : Position} (hp : L.place p p') :
    L.Runs d L.Values (locatedAt p c) (locatedAt p' c') := by
  rw [locatedAt_eq_follow, locatedAt_eq_follow]
  refine Runs.follow hc fun r r' hr => ?_
  cases hr with
  | ok hv _ => exact .pure hv
  | error hu _ =>
    cases hu with
    | breakOut hv hq => exact .throw (.breakOut hv hq)
    | error he =>
      refine .throw (.error ?_)
      cases he with
      | runtime cause hq => exact .runtime cause (L.located hq hp)
      | unreadable words => exact .unreadable words
      | lex cause hq => exact .lex cause hq
      | parse cause hq => exact .parse cause hq
    | exhausted => exact .throw .exhausted

theorem runs_answer {next next' : Except Error Value → Eval Value}
    (hnext : ∀ a a', a.Alike L.Errors L.Values a' → L.Runs d L.Values (next a) (next' a')) :
    L.Runs d L.Values (answer c next) (answer c' next') := by
  refine Runs.follow hc fun r r' hr => ?_
  cases hr with
  | ok hv _ => exact hnext _ _ (.ok hv)
  | error hu _ =>
    cases hu with
    | breakOut hv hp => exact .throw (.breakOut hv hp)
    | error he => exact hnext _ _ (.error he)
    | exhausted => exact .throw .exhausted

end Ends

/-! ### Trees -/

/-- Calls of closures that correspond, with arguments that do. -/
inductive Requests (L : Pairing) : Request → Request → Prop
  | call {c c' : Closure} {vs vs' : List Value} {p p' : Position} (label : String) :
    L.Closures c c' → List.Forall₂ L.Values vs vs' → L.place p p' →
    Requests L (.call c vs p label) (.call c' vs' p' label)

/-- Calls that correspond are answered alike, from any depth. -/
def Serves (L : Pairing) (serve serve' : Request → Eval Value) : Prop :=
  ∀ d r r', L.Requests r r' → L.Runs d L.Values (serve r) (serve' r')

section Trees
variable {limits : Limits} {serve serve' : Request → Eval Value}

mutual

/-- **Statements that are alike are executed alike**, as soon as calls that correspond are answered
so. The scope of the statement was entered since the beginning. -/
theorem runs_statement (hserve : L.Serves serve serve') (d : Nat) :
    (s : Statement) → {s' : Statement} → s.Alike L.place s' →
      L.Runs (d + 1) L.Values (s.exec limits serve) (s'.exec limits serve')
  | .bind binding name value _, _, .bind _ _ hvalue hp => by
    simp only [Statement.exec]
    exact .bind (runs_statement hserve d value hvalue) fun v v' hv =>
      runs_bindName binding name hv hp
  | .condition bs none _, _, .condition hbs .none _ => by
    simp only [Statement.exec]
    refine .bind (runs_branches hserve d bs hbs) fun v v' hv => .pure ?_
    cases hv with
    | none => exact .null
    | some hv => exact hv
  | .condition bs (some otherwise) _, _, .condition hbs (.some hotherwise) _ => by
    simp only [Statement.exec]
    refine .bind (runs_branches hserve d bs hbs) fun v v' hv => ?_
    cases hv with
    | none => exact runs_statement hserve d otherwise hotherwise
    | some hv => exact .pure hv
  | .loop guard body _, _, .loop hguard hbody hp => by
    simp only [Statement.exec]
    refine runs_repeatWhile ?_ (runs_inChild limits hp (runs_statement hserve (d + 1) body hbody))
      hp limits.maxIterations .null
    exact .bind (runs_statement hserve d guard hguard) fun v v' hv => runs_truth hguard.position hv
  | .breakOut none _, _, .breakOut .none hp => by
    simp only [Statement.exec]
    exact .throw (.breakOut .null hp)
  | .breakOut (some value) _, _, .breakOut (.some hvalue) hp => by
    simp only [Statement.exec]
    exact .bind (runs_statement hserve d value hvalue) fun v v' hv => .throw (.breakOut hv hp)
  | .expression e, _, .expression he => by
    simp only [Statement.exec]
    exact runs_expression hserve d e he

theorem runs_expression (hserve : L.Serves serve serve') (d : Nat) :
    (e : Expression) → {e' : Expression} → e.Alike L.place e' →
      L.Runs (d + 1) L.Values (e.eval limits serve) (e'.eval limits serve')
  | .binary operator left right _, _, .binary _ hleft hright hp => by
    simp only [Expression.eval]
    exact runs_combine operator (runs_expression hserve d left hleft)
      (runs_expression hserve d right hright) hleft.position hright.position hp
  | .negate operand _, _, .negate hoperand hp => by
    simp only [Expression.eval]
    exact .bind (runs_expression hserve d operand hoperand) fun v v' hv =>
      runs_ofExcept (hv.negate hp)
  | .constant value _, _, .constant _ _ => by
    simp only [Expression.eval]
    exact .pure (.literal value)
  | .reference name _, _, .reference _ hp => by
    simp only [Expression.eval]
    exact runs_lookup name hp
  | .block ⟨ss, _⟩, _, .block (.mk hss hp) => by
    simp only [Expression.eval, Block.eval]
    exact runs_inChild limits hp (runs_statements hserve (d + 1) ss hss .null)
  | .lambda f, _, .lambda hf => by
    simp only [Expression.eval]
    exact runs_close (.lambda hf)
  | .call callee given _, _, .call hcallee hgiven hp => by
    simp only [Expression.eval]
    refine .bind (runs_expression hserve d callee hcallee) fun v v' hv => ?_
    cases hv with
    | closure hc =>
      refine .bind (runs_arguments hserve d given hgiven) fun vs vs' hvs => ?_
      rw [← hcallee.calleeLabel]
      exact hserve _ _ _ (.call _ hc hvs hp)
    | _ => exact runs_fail hp _

theorem runs_statements (hserve : L.Serves serve serve') (d : Nat) :
    (ss : List Statement) → {ss' : List Statement} → List.Forall₂ (Statement.Alike L.place) ss ss' →
      {last last' : Value} → L.Values last last' →
      L.Runs (d + 1) L.Values (execAll limits serve last ss) (execAll limits serve' last' ss')
  | [], _, .nil, _, _, hlast => by
    simp only [execAll]
    exact .pure hlast
  | s :: rest, _, .cons hs hrest, _, _, _ => by
    simp only [execAll]
    exact .bind (runs_statement hserve d s hs) fun v v' hv => runs_statements hserve d rest hrest hv

theorem runs_branches (hserve : L.Serves serve serve') (d : Nat) :
    (bs : List Branch) → {bs' : List Branch} → List.Forall₂ (Branch.Alike L.place) bs bs' →
      L.Runs (d + 1) (Option.Rel L.Values) (execBranches limits serve bs)
        (execBranches limits serve' bs')
  | [], _, .nil => by
    simp only [execBranches]
    exact .pure .none
  | ⟨guard, body⟩ :: rest, _, .cons (.mk hguard hbody) hrest => by
    simp only [execBranches]
    refine .bind (runs_statement hserve d guard hguard) fun v v' hv =>
      .bind_of_eq (runs_truth hguard.position hv) fun b => ?_
    cases b
    · exact runs_branches hserve d rest hrest
    · exact .bind (runs_statement hserve d body hbody) fun v v' hv => .pure (.some hv)

theorem runs_arguments (hserve : L.Serves serve serve') (d : Nat) :
    (es : List Expression) → {es' : List Expression} →
      List.Forall₂ (Expression.Alike L.place) es es' →
      L.Runs (d + 1) (List.Forall₂ L.Values) (evalArguments limits serve es)
        (evalArguments limits serve' es')
  | [], _, .nil => by
    simp only [evalArguments]
    exact .pure .nil
  | e :: rest, _, .cons he hrest => by
    simp only [evalArguments]
    exact .bind (runs_expression hserve d e he) fun v v' hv =>
      .bind (runs_arguments hserve d rest hrest) fun vs vs' hvs => .pure (.cons hv hvs)

end

theorem runs_block (limits : Limits) (hserve : L.Serves serve serve') (d : Nat) {b b' : Block}
    (hb : b.Alike L.place b') :
    L.Runs (d + 1) L.Values (b.eval limits serve) (b'.eval limits serve') := by
  have hblock : L.Runs (d + 1) L.Values ((Expression.block b).eval limits serve)
      ((Expression.block b').eval limits serve') := runs_expression hserve d _ (.block hb)
  simpa only [Expression.eval] using hblock

end Trees

/-! ### Calls -/

/-- Routines that write the same, keep values that correspond, ask for calls that correspond, and
go on so as long as the answers do. -/
inductive Routines (L : Pairing) : Routine → Routine → Prop
  | finish {r r' : Except Error Value} :
    r.Alike L.Errors L.Values r' → Routines L (.finish r) (.finish r')
  | write {next next' : Routine} (line : Line) :
    Routines L next next' → Routines L (.write line next) (.write line next')
  | keep {update update' : List Value → List Value} {next next' : List Value → Routine} :
    (∀ kept kept', L.kept kept kept' → L.kept (update kept) (update' kept')) →
    (∀ kept kept', L.kept kept kept' → Routines L (next kept) (next' kept')) →
    Routines L (.keep update next) (.keep update' next')
  | request {r r' : Request} {next next' : Except Error Value → Routine} :
    L.Requests r r' → (∀ a a', a.Alike L.Errors L.Values a' → Routines L (next a) (next' a')) →
    Routines L (.request r next) (.request r' next')

/-- The natives of a host do the same wherever they see values that correspond. -/
def Natives (L : Pairing) (host : Host) : Prop :=
  ∀ native ∈ host.natives, ∀ lookup lookup' : String → Option Value,
    (∀ name, Option.Rel L.Values (lookup name) (lookup' name)) →
    L.Routines (native.body lookup) (native.body lookup')

theorem values_argument {lookup lookup' : String → Option Value}
    (h : ∀ name, Option.Rel L.Values (lookup name) (lookup' name)) (name : String) :
    L.Values (Native.argument lookup name) (Native.argument lookup' name) := by
  have hname := h name
  unfold Native.argument
  generalize lookup name = v, lookup' name = v' at hname
  cases hname with
  | none => exact .null
  | some hv => exact hv

theorem Natives.routine {host : Host} (h : L.Natives host) (n : NativeRef)
    {lookup lookup' : String → Option Value}
    (hlookup : ∀ name, Option.Rel L.Values (lookup name) (lookup' name)) :
    L.Routines (host.routine n lookup) (host.routine n lookup') := by
  obtain ⟨native, hnative, heq⟩ | heq := host.routine_cases n
  · rw [heq, heq]
    exact h native hnative lookup lookup' hlookup
  · rw [heq, heq]
    exact .finish (.ok .null)

section Calls
variable {serve serve' : Request → Eval Value} (hserve : L.Serves serve serve')
include hserve

theorem runs_routine {routine routine' : Routine} (h : L.Routines routine routine') (d : Nat) :
    L.Runs d L.Values (routine.run serve) (routine'.run serve') := by
  induction h with
  | finish hr => exact runs_ofExcept hr
  | write line _ ih =>
    refine .bind_of_eq ?_ fun _ => ih
    exact fun m m' h => .ok rfl (h.write line)
  | keep hupdate _ ih => exact .bind (runs_exchange hupdate) ih
  | request hr _ ih =>
    rw [Routine.run_request, Routine.run_request]
    exact runs_answer (hserve d _ _ hr) ih

variable {host : Host} (hnatives : L.Natives host)
include hnatives

theorem runs_body {f f' : Function} (hf : f.Alike L.place f') {p p' : Position}
    (hp : L.place p p') (d : Nat) :
    L.Runs (d + 1) L.Values (host.body serve p f) (host.body serve' p' f') := by
  cases hf with
  | lambda hf =>
    cases hf with
    | mk parameters hbody _ => exact runs_boundary (runs_statement hserve d _ hbody)
  | native n =>
    rw [Host.body_native, Host.body_native]
    exact runs_locatedAt (.bind runs_surroundings fun lookup lookup' hlookup =>
      runs_routine hserve (hnatives.routine n hlookup) (d + 1)) hp

/-- A call enters the scope that its closure captured, wherever it comes from. -/
theorem runs_call {c c' : Closure} (hc : L.Closures c c') {vs vs' : List Value}
    (hvs : List.Forall₂ L.Values vs vs') {p p' : Position} (hp : L.place p p') (label : String)
    (d : Nat) :
    L.Runs d L.Values (host.call serve c vs p label) (host.call serve' c' vs' p' label) := by
  have hparameters : c.parameters = c'.parameters := hc.function.parameters
  unfold Host.call
  rw [hparameters, hvs.length_eq, hc.captured]
  split
  · exact runs_fail hp _
  · exact runs_within host.limits hc.shared (.ofArguments _ hvs) hp
      (runs_body hserve hnatives hc.function hp d)

end Calls

/-- **A host answers calls that correspond alike**, with the same room for nested ones. -/
theorem serves_serve {host : Host} (hnatives : L.Natives host) (room : Nat) :
    L.Serves (host.serve room) (host.serve room) := by
  induction room with
  | zero => exact fun d r r' _ => .throw .exhausted
  | succ room ih =>
    intro d r r' hr
    cases hr with
    | call label hc hvs hp => exact runs_call ih hnatives hc hvs hp label d

/-! ### Programs -/

theorem Heaps.installOne {m m' : Machine} (h : L.Heaps m m') {root : ScopeId}
    (hroot : L.shared root) (slot : Nat) (native : Native) :
    L.Heaps (m.installOne root slot native)
      (m'.installOne (root + L.scopeShift) slot native) := by
  obtain ⟨hid, hshared, hstore⟩ := h.store.root
  refine ⟨hstore.declare hroot native.name (.closure ?_), ?_, h.kept, h.written⟩
  · exact ⟨h.nextClosure, .native _, hid, hshared⟩
  · simp [Machine.installOne, h.nextClosure, Nat.add_right_comm]

theorem Heaps.install {m m' : Machine} (h : L.Heaps m m') {root : ScopeId}
    (hroot : L.shared root) (slot : Nat) (natives : List Native) :
    L.Heaps (m.install root slot natives) (m'.install (root + L.scopeShift) slot natives) := by
  induction natives generalizing slot m m' with
  | nil => exact h
  | cons native rest ih =>
    rw [Machine.install_cons, Machine.install_cons]
    exact ih (h.installOne hroot slot native) (slot + 1)

section Afresh
variable (hleft : L.left.stack = []) (hright : L.right.stack = [])
include hleft hright

/-- A reset leaves one scope active on both sides, and it is shared. -/
theorem Heaps.reset {m m' : Machine} (h : L.Heaps m m') (natives : List Native) :
    L.Machines 1 (m.reset natives) (m'.reset natives) := by
  obtain ⟨hid, hshared, hstore⟩ := h.store.root
  have hroot : L.Heaps { m with store := m.store.root.2, stack := [m.store.root.1] }
      { m' with store := m'.store.root.2, stack := [m'.store.root.1] } :=
    ⟨hstore, h.nextClosure, h.kept, h.written⟩
  have hinstalled := hroot.install hshared 0 natives
  rw [← hid] at hinstalled
  refine ⟨hinstalled, [m.store.root.1], rfl, List.forall_mem_singleton.mpr hshared, ?_, ?_⟩
  · rw [hleft, Machine.reset, (Machine.install_frame _ _ _ _).1]
    rfl
  · rw [hright, Machine.reset, (Machine.install_frame _ _ _ _).1, hid]
    rfl

/-- **Programs that are alike are executed alike**, whatever is active before. -/
theorem serve_execute {host : Host} (hnatives : L.Natives host) (room : Nat) {b b' : Block}
    (hb : b.Alike L.place b') {m m' : Machine} (h : L.Heaps m m') :
    (host.serve (room + 1) (.execute b) m).Alike (L.Machines 1) L.Unwinds L.Values
      (host.serve (room + 1) (.execute b') m') := by
  have hresult := runs_boundary (runs_block host.limits (serves_serve hnatives room) 0 hb) _ _
    (h.reset hleft hright host.natives)
  rw [Host.serve, Host.serve, Host.execute_eq, Host.execute_eq]
  exact hresult.withState (hresult.state.reset hleft hright host.natives)

end Afresh

end Pairing

end Lumen
