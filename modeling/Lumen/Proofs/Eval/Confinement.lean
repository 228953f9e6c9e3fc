import Lumen.Proofs.Eval.Seals

/-! Evaluations that hand on nothing but closures that are shut.

As an evaluation goes on there are more closures, and those that are shut stay so. A computation
that is `Confined` may begin with any machine that is tight for some closures `S`; it passes tight
machines only, and what it ends with is shut on the machine that it leaves. What comes after it
begins there, with the closures that are shut by then in place of `S`. Every construction of the
evaluator keeps to that, and so do all trees (`confined_statement`) as soon as the answers to
requests do.

Two computations are compared on the way: one with its trace, and another one that does the same on
tight machines. -/
namespace Lumen
open Eval

/-! ### Ends -/

/-- No break with a native closure, or with one in `P`. -/
def Unwind.Natives (P : Closure → Prop) : Unwind → Prop
  | breakOut v _ => v.Natives P
  | error _ => True
  | exhausted => True

/-- The machine that is left is tight, and what is handed on is in `Q` for the closures that are
shut there. -/
def Eval.Hands {α : Type} (S : Closure → Prop) (Q : (Closure → Prop) → α → Prop) : Result α → Prop
  | .ok a m => m.Tight S ∧ Q m.Shut a
  | .error u m => m.Tight S ∧ u.Natives m.Shut

namespace Eval.Hands
variable {α : Type} {S S' : Closure → Prop} {Q : (Closure → Prop) → α → Prop} {r : Result α}

theorem tight (h : Hands S Q r) : r.state.Tight S := by
  cases r with
  | ok a m => exact h.1
  | error u m => exact h.1

theorem mono (h : Hands S' Q r) (hS : ∀ c, S c → S' c) : Hands S Q r := by
  cases r with
  | ok a m => exact ⟨h.1.mono hS, h.2⟩
  | error u m => exact ⟨h.1.mono hS, h.2⟩

/-- On a machine that stays tight, what was shut is shut. -/
theorem withState {r : Result Value} {m : Machine} (h : Hands S Value.Natives r)
    (hm : ∀ S, r.state.Tight S → m.Tight S) : Hands S Value.Natives (r.withState m) := by
  have hshut := (hm _ h.tight.own).shut
  cases r with
  | ok v m' => exact ⟨hm S h.1, h.2.mono fun c _ => hshut c⟩
  | error u m' =>
    refine ⟨hm S h.1, ?_⟩
    cases u with
    | breakOut v position => exact Value.Natives.mono h.2 fun c _ => hshut c
    | _ => trivial

end Eval.Hands

/-! ### Confined computations -/

/-- From `m` on, `c` does what `t` does; the machines that are passed are tight, and what it ends
with is shut. -/
structure ConfinedAt {α : Type} (S : Closure → Prop) (Q : (Closure → Prop) → α → Prop)
    (t : Traced α) (c : Eval α) (m : Machine) : Prop where
  same : t.erase m = c m
  passed : ∀ m' ∈ (t m).2, m'.Tight S
  ends : Hands S Q (c m)

/-- From every machine on that is tight. -/
def Confined {α : Type} (S : Closure → Prop) (Q : (Closure → Prop) → α → Prop) (t : Traced α)
    (c : Eval α) : Prop :=
  ∀ m, m.Tight S → ConfinedAt S Q t c m

section Follow
variable {α β : Type} {S : Closure → Prop} {Q : (Closure → Prop) → α → Prop}
  {R : (Closure → Prop) → β → Prop}

/-- What comes next begins with the closures that are shut by then. -/
theorem ConfinedAt.follow {t : Traced α} {c : Eval α} {m : Machine} (h : ConfinedAt S Q t c m)
    {next' : Result α → Traced β} {next : Result α → Eval β}
    (hnext : ∀ r, Hands S Q r → Confined r.state.Shut R (next' r) (next r)) :
    ConfinedAt S R (t.follow next') (c.follow next) m := by
  have htight := h.ends.tight
  have hrest := hnext (c m) h.ends (c m).state htight.own
  refine ⟨?_, fun m' hm' => ?_, hrest.ends.mono htight.shut⟩
  · rw [Traced.erase_follow, Eval.follow, h.same]
    exact hrest.same
  · have hpassed : ((t.follow next') m).2 =
        (t m).2 ++ (next' (t.erase m) (t.erase m).state).2 := rfl
    rw [hpassed, h.same] at hm'
    rcases List.mem_append.mp hm' with hm' | hm'
    · exact h.passed m' hm'
    · exact (hrest.passed m' hm').mono htight.shut

end Follow

namespace Confined
variable {α β : Type} {S : Closure → Prop} {Q : (Closure → Prop) → α → Prop}
  {R : (Closure → Prop) → β → Prop}

theorem follow {t : Traced α} {c : Eval α} (h : Confined S Q t c) {next' : Result α → Traced β}
    {next : Result α → Eval β}
    (hnext : ∀ r, Hands S Q r → Confined r.state.Shut R (next' r) (next r)) :
    Confined S R (t.follow next') (c.follow next) := fun m hm => (h m hm).follow hnext

/-! #### Single steps -/

theorem step {c : Eval α} (hc : ∀ m, m.Tight S → Hands S Q (c m)) :
    Confined S Q (.step c) c := by
  refine fun m hm => ⟨rfl, fun m' hm' => ?_, hc m hm⟩
  simp only [Traced.step, List.mem_cons, List.not_mem_nil, or_false] at hm'
  rcases hm' with rfl | rfl
  · exact hm
  · exact (hc m hm).tight

theorem pure {a : α} (ha : ∀ S' : Closure → Prop, (∀ c, S c → S' c) → Q S' a) :
    Confined S Q (Pure.pure a) (Pure.pure a) :=
  step fun m hm => ⟨hm, ha m.Shut hm.shut⟩

theorem value {v : Value} (hv : v.Natives S) :
    Confined S Value.Natives (Pure.pure v) (Pure.pure v) :=
  pure fun _ hS => hv.mono fun c _ => hS c

theorem throw {u : Unwind} (hu : u.Natives S) :
    Confined S Q (.step (MonadExcept.throw u)) (MonadExcept.throw u) := by
  refine step fun m hm => ⟨hm, ?_⟩
  cases u with
  | breakOut v position => exact Value.Natives.mono hu fun c _ => hm.shut c
  | _ => trivial

theorem fail (position : Position) (cause : RuntimeCause) :
    Confined S Q (.step (Eval.fail position cause)) (Eval.fail position cause) :=
  throw trivial

/-- Results that are never closures. -/
theorem ofExcept {p : Position} {r : Except Error Value}
    (hr : ∀ P : Closure → Prop, FailsAt p (Value.Natives P) r) :
    Confined S Value.Natives (.step (Eval.ofExcept r)) (Eval.ofExcept r) := by
  cases r with
  | ok v => exact value (hr S)
  | error e => exact throw trivial

theorem truth (position : Position) (v : Value) :
    Confined S (fun _ _ => True) (.step (Eval.truth position v)) (Eval.truth position v) := by
  unfold Eval.truth
  cases v.toBoolean position with
  | ok b => exact pure fun _ _ => trivial
  | error e => exact throw trivial

theorem bind {t : Traced α} {c : Eval α} (h : Confined S Q t c) {g : α → Traced β}
    {f : α → Eval β}
    (hf : ∀ S' : Closure → Prop, (∀ c, S c → S' c) → ∀ a, Q S' a → Confined S' R (g a) (f a)) :
    Confined S R (t >>= g) (c >>= f) := by
  rw [bind_eq_follow]
  refine h.follow fun r hr => ?_
  cases r with
  | ok a m => exact hf m.Shut hr.1.shut a hr.2
  | error u m => exact throw hr.2

/-! #### Names -/

theorem current : Confined S (fun _ _ => True) (.step Eval.current) Eval.current := by
  refine step fun m hm => ?_
  obtain ⟨id, m', hcurrent⟩ := current_ok m
  rw [hcurrent]
  exact ⟨hm.current hcurrent, trivial⟩

theorem lookup (name : String) (position : Position) :
    Confined S Value.Natives (.step (Eval.lookup name position)) (Eval.lookup name position) := by
  refine step fun m hm => ?_
  obtain ⟨id, m', hcurrent⟩ := current_ok m
  have hm' := hm.current hcurrent
  rw [lookup_eq hcurrent]
  cases hv : m'.store.lookup id name with
  | none => exact ⟨hm', trivial⟩
  | some v => exact ⟨hm', hm'.binds.lookup hv⟩

theorem bindName (binding : Binding) (name : String) {v : Value} (hv : v.Natives S)
    (position : Position) :
    Confined S Value.Natives (.step (Eval.bindName binding name v position))
      (Eval.bindName binding name v position) := by
  refine step fun m hm => ?_
  obtain ⟨id, m', hcurrent⟩ := current_ok m
  obtain ⟨htight, hvalue⟩ := hm.bound hcurrent binding name (hv.mono fun c _ => hm.shut c)
  rw [bindName_eq hcurrent]
  generalize bound binding id name v m'.store = result at htight hvalue
  obtain ⟨_ | w, store⟩ := result
  · exact ⟨htight, trivial⟩
  · exact ⟨htight, hvalue w rfl⟩

theorem close (f : Lambda) :
    Confined S Value.Natives (.step (Eval.close (.lambda f))) (Eval.close (.lambda f)) := by
  refine step fun m hm => ?_
  obtain ⟨id, m', hcurrent⟩ := current_ok m
  simp only [Eval.close, Bind.bind, EStateM.bind, hcurrent]
  refine ⟨(hm.current hcurrent).of_store_eq rfl (fun _ hi => hi) rfl, ?_⟩
  rintro ⟨n, hn⟩
  cases hn

/-- What natives keep is shut, and stays so if they keep nothing else that is not. -/
theorem exchange {update : List Value → List Value}
    (h : ∀ S' : Closure → Prop, (∀ c, S c → S' c) → ∀ kept : List Value,
      (∀ v ∈ kept, v.Natives S') → ∀ v ∈ update kept, v.Natives S') :
    Confined S (fun P kept => ∀ v ∈ kept, v.Natives P) (.step (Eval.exchange update))
      (Eval.exchange update) := by
  refine step fun m hm => ⟨hm.exchange (h m.Shut hm.shut m.kept hm.kept), fun v hv => ?_⟩
  exact (hm.kept v hv).mono fun _ _ hc => hc.of_store_eq rfl fun _ hj => hj

/-! #### Scopes, operators and loops -/

theorem within (limits : Limits) (parent : ScopeId) {bindings : Bindings}
    (hbindings : ∀ n v, bindings.find? n = some v → v.Natives S) (position : Position)
    {t : Traced Value} {c : Eval Value}
    (h : ∀ m : Machine, m.Tight S → (m.enter parent bindings).Tight S →
      ConfinedAt S Value.Natives t c (m.enter parent bindings)) :
    Confined S Value.Natives (.within limits parent bindings position t)
      (Eval.within limits parent bindings position c) := by
  intro m hm
  by_cases hfull : limits.maxDepth ≤ m.stack.length
  · have hfail := fail (S := S) (Q := Value.Natives) position .recursionLimit m hm
    refine ⟨?_, ?_, ?_⟩
    · rw [Traced.erase_within, within_of_full hfull, within_of_full hfull]
    · simp only [Traced.within, hfull, if_true]
      exact hfail.passed
    · rw [within_of_full hfull]
      exact hfail.ends
  · have hin : (m.enter parent bindings).Tight S := hm.enter parent fun n v hv =>
      (hbindings n v hv).mono fun c _ => hm.shut c
    have hbody := h m hm hin
    have hout := hbody.ends.tight
    refine ⟨?_, fun m' hm' => ?_, ?_⟩
    · rw [Traced.erase_within, within_of_room hfull, within_of_room hfull, hbody.same]
    · rw [Traced.within_passed hfull, hbody.same] at hm'
      simp only [List.mem_cons, List.mem_append, List.not_mem_nil, or_false] at hm'
      rcases hm' with rfl | rfl | hm' | rfl | rfl
      · exact hm
      · exact hin
      · exact hbody.passed m' hm'
      · exact hout
      · exact hout.leave
    · rw [within_of_room hfull]
      exact hbody.ends.withState fun _ htight => htight.leave

theorem inChild (limits : Limits) (position : Position) {t : Traced Value} {c : Eval Value}
    (h : ∀ S, Confined S Value.Natives t c) :
    Confined S Value.Natives (.inChild limits position t) (Eval.inChild limits position c) := by
  refine current.bind fun S' _ id _ => within limits id (fun n v hv => ?_) position
    fun m _ hin => h S' _ hin
  cases hv

theorem combine (operator : Operator) {left right : Eval Value} {left' right' : Traced Value}
    (leftAt rightAt position : Position) (hleft : ∀ S, Confined S Value.Natives left' left)
    (hright : ∀ S, Confined S Value.Natives right' right) :
    Confined S Value.Natives (.combine operator left' right' leftAt rightAt position)
      (Eval.combine operator left right leftAt rightAt position) := by
  have htruth : ∀ S, Confined S Value.Natives (Traced.combine.rightTruth right' rightAt)
      (combine.rightTruth right rightAt) := fun S =>
    (hright S).bind fun _ _ v _ => (truth rightAt v).bind fun _ _ _ _ => value trivial
  refine (hleft S).bind fun S' _ v hv => ?_
  cases operator with
  | or =>
    refine (truth leftAt v).bind fun S'' _ b _ => ?_
    cases b
    · exact htruth S''
    · exact value trivial
  | and =>
    refine (truth leftAt v).bind fun S'' _ b _ => ?_
    cases b
    · exact value trivial
    · exact htruth S''
  | nullCoalescing =>
    cases v.isNull
    · exact value hv
    · exact hright S'
  | _ => exact (hright S').bind fun _ _ w _ => ofExcept fun P => .binary _ v w

theorem repeatWhile {guard : Eval Bool} {guard' : Traced Bool} {body : Eval Value}
    {body' : Traced Value} (position : Position) (limit : Nat) {last : Value}
    (hguard : ∀ S, Confined S (fun _ _ => True) guard' guard)
    (hbody : ∀ S, Confined S Value.Natives body' body) (hlast : last.Natives S) :
    Confined S Value.Natives (.repeatWhile guard' body' position limit last)
      (Eval.repeatWhile guard body position limit last) := by
  induction limit generalizing S last with
  | zero =>
    rw [Traced.repeatWhile, repeatWhile_eq_follow]
    refine (hguard S).follow fun r hr => ?_
    have hlast := hlast.mono fun c _ => hr.tight.shut c
    rcases r with ⟨_ | _, m⟩ | ⟨_ | _ | _, m⟩
    · exact value hlast
    · exact fail position _
    · exact value hr.2
    · exact throw trivial
    · exact throw trivial
  | succ limit ih =>
    rw [Traced.repeatWhile, repeatWhile_eq_follow]
    refine (hguard S).follow fun r hr => ?_
    have hlast := hlast.mono fun c _ => hr.tight.shut c
    rcases r with ⟨_ | _, m⟩ | ⟨_ | _ | _, m⟩
    · exact value hlast
    · refine (hbody m.Shut).follow fun r hr => ?_
      rcases r with ⟨v, m⟩ | ⟨_ | _ | _, m⟩
      · exact ih hr.2
      · exact value hr.2
      · exact throw trivial
      · exact throw trivial
    · exact value hr.2
    · exact throw trivial
    · exact throw trivial

/-! #### Boundaries, natives and programs -/

theorem boundary {t : Traced Value} {c : Eval Value} (h : Confined S Value.Natives t c) :
    Confined S Value.Natives t.boundary (Eval.boundary c) := by
  rw [boundary_eq_follow]
  refine h.follow fun r hr => ?_
  rcases r with ⟨v, m⟩ | ⟨_ | _ | _, m⟩
  · exact value hr.2
  · exact fail _ _
  · exact throw trivial
  · exact throw trivial

/-- A native goes on with the closures that it had, and with the one that it may be answered. -/
theorem answer {t : Traced Value} {c : Eval Value} (h : Confined S Value.Natives t c)
    {g : Except Error Value → Traced Value} {f : Except Error Value → Eval Value}
    (hf : ∀ S' : Closure → Prop, (∀ c, S c → S' c) → ∀ a, (∀ v, a = .ok v → v.Natives S') →
      Confined S' Value.Natives (g a) (f a)) :
    Confined S Value.Natives (t.answer g) (Eval.answer c f) := by
  refine h.follow fun r hr => ?_
  rcases r with ⟨v, m⟩ | ⟨_ | e | _, m⟩
  · exact hf m.Shut hr.1.shut (.ok v) fun w hw => Except.ok.inj hw ▸ hr.2
  · exact throw hr.2
  · exact hf m.Shut hr.1.shut (.error e) nofun
  · exact throw trivial

theorem afresh (natives : List Native) {t : Traced Value} {c : Eval Value}
    (h : Confined S Value.Natives t c) :
    Confined S Value.Natives (t.afresh natives) (Eval.afresh natives c) := by
  intro m hm
  have hbody := h _ (hm.reset natives)
  have hout := hbody.ends.tight
  refine ⟨?_, fun m' hm' => ?_, hbody.ends.withState fun _ htight => htight.reset natives⟩
  · rw [Traced.erase_afresh, Eval.afresh, Eval.afresh, hbody.same]
  · rw [Traced.afresh_passed, hbody.same] at hm'
    simp only [List.mem_cons, List.mem_append, List.not_mem_nil, or_false] at hm'
    rcases hm' with rfl | rfl | hm' | rfl | rfl
    · exact hm
    · exact hm.reset natives
    · exact hbody.passed m' hm'
    · exact hout
    · exact hout.reset natives

end Confined

theorem ConfinedAt.locatedAt {S : Closure → Prop} {t : Traced Value} {c : Eval Value} {m : Machine}
    (h : ConfinedAt S Value.Natives t c m) (position : Position) :
    ConfinedAt S Value.Natives (t.locatedAt position) (Eval.locatedAt position c) m := by
  rw [locatedAt_eq_follow]
  refine h.follow fun r hr => ?_
  rcases r with ⟨v, m⟩ | ⟨_ | _ | _, m⟩
  · exact .value hr.2
  · exact .throw hr.2
  · exact .throw trivial
  · exact .throw trivial

/-! ### Trees -/

section Trees
variable {limits : Limits} {serve : Request → Eval Value} {serve' : Request → Traced Value}

/-- A request that hands on no native closures but those in `P`. -/
def Request.Natives (P : Closure → Prop) : Request → Prop
  | .call c arguments _ _ => (Value.closure c).Natives P ∧ ∀ v ∈ arguments, v.Natives P
  | .execute _ => True

/-- Requests for closures that are shut are answered with such closures. -/
def ConfinedAnswers (serve' : Request → Traced Value) (serve : Request → Eval Value) : Prop :=
  ∀ S r, r.Natives S → Confined S Value.Natives (serve' r) (serve r)

mutual

/-- **Trees hand on nothing but closures that are shut**, as soon as the answers to requests do. -/
theorem confined_statement (hserve : ConfinedAnswers serve' serve) (S : Closure → Prop) :
    (s : Statement) →
    Confined S Value.Natives (s.trace limits serve') (s.exec limits serve)
  | .bind binding name value position => by
    simp only [Statement.exec, Statement.trace]
    exact (confined_statement hserve S value).bind fun _ _ v hv =>
      .bindName binding name hv position
  | .condition bs none _ => by
    simp only [Statement.exec, Statement.trace]
    refine (confined_branches hserve S bs).bind fun _ _ v hv => .value ?_
    cases v with
    | none => trivial
    | some v => exact hv v rfl
  | .condition bs (some otherwise) _ => by
    simp only [Statement.exec, Statement.trace]
    refine (confined_branches hserve S bs).bind fun S' _ v hv => ?_
    cases v with
    | none => exact confined_statement hserve S' otherwise
    | some v => exact .value (hv v rfl)
  | .loop guard body position => by
    simp only [Statement.exec, Statement.trace]
    refine .repeatWhile position _ (fun S => ?_) (fun S => ?_) trivial
    · exact (confined_statement hserve S guard).bind fun _ _ v _ => .truth guard.position v
    · exact .inChild limits position fun S => confined_statement hserve S body
  | .breakOut none position => by
    simp only [Statement.exec, Statement.trace]
    exact .throw trivial
  | .breakOut (some value) position => by
    simp only [Statement.exec, Statement.trace]
    exact (confined_statement hserve S value).bind fun _ _ v hv => .throw hv
  | .expression e => by
    simp only [Statement.exec, Statement.trace]
    exact confined_expression hserve S e

theorem confined_expression (hserve : ConfinedAnswers serve' serve) (S : Closure → Prop) :
    (e : Expression) →
    Confined S Value.Natives (e.trace limits serve') (e.eval limits serve)
  | .binary operator left right position => by
    simp only [Expression.eval, Expression.trace]
    exact .combine operator _ _ position (fun S => confined_expression hserve S left)
      fun S => confined_expression hserve S right
  | .negate operand position => by
    simp only [Expression.eval, Expression.trace]
    exact (confined_expression hserve S operand).bind fun _ _ v _ => .ofExcept fun P => .negate v
  | .constant value _ => by
    simp only [Expression.eval, Expression.trace]
    exact .value value.over
  | .reference name position => by
    simp only [Expression.eval, Expression.trace]
    exact .lookup name position
  | .block b => by
    simp only [Expression.eval, Expression.trace]
    exact confined_block hserve S b
  | .lambda f => by
    simp only [Expression.eval, Expression.trace]
    exact .close f
  | .call callee arguments position => by
    simp only [Expression.eval, Expression.trace]
    refine (confined_expression hserve S callee).bind fun S' _ v hv => ?_
    cases v with
    | closure c =>
      -- The callee is still shut when its arguments have been evaluated.
      exact (confined_arguments hserve S' arguments).bind fun S'' hS vs hvs =>
        hserve S'' _ ⟨hv.mono fun c _ => hS c, hvs⟩
    | _ => exact .fail position _

theorem confined_block (hserve : ConfinedAnswers serve' serve) (S : Closure → Prop) :
    (b : Block) →
    Confined S Value.Natives (b.trace limits serve') (b.eval limits serve)
  | ⟨ss, position⟩ => by
    simp only [Block.eval, Block.trace]
    exact .inChild limits position fun S => confined_statements hserve S ss trivial

theorem confined_statements (hserve : ConfinedAnswers serve' serve) (S : Closure → Prop) :
    (ss : List Statement) → {last : Value} → last.Natives S →
    Confined S Value.Natives (traceAll limits serve' last ss) (execAll limits serve last ss)
  | [], _, hlast => by
    simp only [execAll, traceAll]
    exact .value hlast
  | s :: rest, _, _ => by
    simp only [execAll, traceAll]
    exact (confined_statement hserve S s).bind fun S' _ v hv =>
      confined_statements hserve S' rest hv

theorem confined_branches (hserve : ConfinedAnswers serve' serve) (S : Closure → Prop) :
    (bs : List Branch) →
    Confined S (fun P found => ∀ v, found = some v → v.Natives P)
      (traceBranches limits serve' bs) (execBranches limits serve bs)
  | [] => by
    simp only [execBranches, traceBranches]
    exact .pure fun _ _ => nofun
  | ⟨guard, body⟩ :: rest => by
    simp only [execBranches, traceBranches]
    refine (confined_statement hserve S guard).bind fun _ _ v _ =>
      (Confined.truth guard.position v).bind fun S' _ b _ => ?_
    cases b
    · exact confined_branches hserve S' rest
    · refine (confined_statement hserve S' body).bind fun _ _ v hv => .pure fun _ hS w hw => ?_
      exact Option.some.inj hw ▸ hv.mono fun c _ => hS c

theorem confined_arguments (hserve : ConfinedAnswers serve' serve) (S : Closure → Prop) :
    (es : List Expression) →
    Confined S (fun P vs => ∀ v ∈ vs, v.Natives P)
      (traceArguments limits serve' es) (evalArguments limits serve es)
  | [] => by
    simp only [evalArguments, traceArguments]
    exact .pure fun _ _ => List.forall_mem_nil _
  | e :: rest => by
    simp only [evalArguments, traceArguments]
    refine (confined_expression hserve S e).bind fun S' _ v hv =>
      (confined_arguments hserve S' rest).bind fun S'' hS vs hvs => .pure fun _ hS' => ?_
    refine List.forall_mem_cons.mpr ⟨hv.mono fun c _ hc => hS' c (hS c hc), fun w hw => ?_⟩
    exact (hvs w hw).mono fun c _ => hS' c

end

end Trees

end Lumen
