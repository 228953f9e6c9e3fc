import Lumen.Proofs.Eval.Natives
import Lumen.Proofs.Eval.Policy
import Lumen.Proofs.Eval.Trace

/-! Programs keep to what their code allows.

On a machine that fits a policy, every construction of the evaluator breaks and fails only as the
policy allows, and leaves a machine that fits (`Policy.Ensures`). So trees do
(`ensures_statement`): inside a loop a break may stand anywhere, and elsewhere it must be a stray
one. So do calls, as long as the natives keep to the policy (`serves_serve`), and programs
(`serve_execute`). -/
namespace EStateM.Result
variable {ε σ α : Type}

/-- A value in `Q` or an error in `E`, in a state in `S`. -/
def Holds (S : σ → Prop) (E : ε → Prop) (Q : α → Prop) : Result ε σ α → Prop
  | ok a s => Q a ∧ S s
  | error e s => E e ∧ S s

variable {S S' : σ → Prop} {E E' : ε → Prop} {Q : α → Prop} {r : Result ε σ α}

theorem Holds.state (h : r.Holds S E Q) : S r.state := by
  cases r with
  | ok a s => exact h.2
  | error e s => exact h.2

theorem Holds.withState (h : r.Holds S E Q) {s : σ} (hs : S' s) :
    (r.withState s).Holds S' E Q := by
  cases r with
  | ok a _ => exact ⟨h.1, hs⟩
  | error e _ => exact ⟨h.1, hs⟩

theorem Holds.mono (h : r.Holds S E Q) (hE : ∀ e, E e → E' e) : r.Holds S E' Q := by
  cases r with
  | ok a s => exact h
  | error e s => exact ⟨hE e h.1, h.2⟩

end EStateM.Result

namespace Lumen
open Eval

namespace Policy
variable {P : Policy}

/-! ### Computations -/

/-- A break that may leave what is in a loop, or else must be a stray one. -/
def Breaks (P : Policy) (looped : Bool) (p : Position) : Prop :=
  P.place p ∧ (looped = false → P.stray p)

/-- No break leaves a call. -/
def noBreak (_ : Position) : Prop := False

/-- A break at a place in `brk`, or an error in `err`. -/
def Unwinds (P : Policy) (brk : Position → Prop) (err : Error → Prop) : Unwind → Prop
  | .breakOut v p => P.Knows v ∧ brk p
  | .error e => err e
  | .exhausted => True

/-- On a machine that fits, the computation gives a value in `Q`, or breaks or fails as `brk` and
`err` allow, and leaves a machine that fits. -/
def Ensures (P : Policy) (brk : Position → Prop) (err : Error → Prop) {α : Type} (Q : α → Prop)
    (c : Eval α) : Prop :=
  ∀ m, P.Fits m → (c m).Holds P.Fits (P.Unwinds brk err) Q

theorem Fits.enter {m : Machine} (h : P.Fits m) {parent : ScopeId} (hparent : P.base ≤ parent)
    {bs : Bindings} (hbs : P.Bound bs) : P.Fits (m.enter parent bs) :=
  ⟨h.store.add (fun _ hp => Option.mem_some.mp hp ▸ hparent) hbs,
    List.forall_mem_cons.mpr ⟨h.store.size, h.stack⟩, h.kept⟩

namespace Ensures
variable {brk brk' : Position → Prop} {err err' : Error → Prop} {α β : Type} {Q : α → Prop}
  {R : β → Prop}

theorem pure {a : α} (ha : Q a) : P.Ensures brk err Q (Pure.pure a) := fun _ hm => ⟨ha, hm⟩

theorem throw {u : Unwind} (hu : P.Unwinds brk err u) :
    P.Ensures brk err Q (MonadExcept.throw u) := fun _ hm => ⟨hu, hm⟩

theorem fail {p : Position} {cause : RuntimeCause} (h : err (.runtime p cause)) :
    P.Ensures brk err Q (Eval.fail p cause) := throw h

theorem mono {c : Eval α} (hc : P.Ensures brk err Q c) (hbrk : ∀ p, brk p → brk' p)
    (herr : ∀ e, err e → err' e) : P.Ensures brk' err' Q c := by
  intro m hm
  refine (hc m hm).mono fun u hu => ?_
  cases u with
  | breakOut v p => exact ⟨hu.1, hbrk p hu.2⟩
  | error e => exact herr e hu
  | exhausted => trivial

theorem follow {c : Eval α} {next : Eval.Result α → Eval β} (hc : P.Ensures brk err Q c)
    (hnext : ∀ r, r.Holds P.Fits (P.Unwinds brk err) Q → P.Ensures brk' err' R (next r)) :
    P.Ensures brk' err' R (c.follow next) :=
  fun m hm => hnext _ (hc m hm) _ (hc m hm).state

theorem bind {c : Eval α} {f : α → Eval β} (hc : P.Ensures brk err Q c)
    (hf : ∀ a, Q a → P.Ensures brk err R (f a)) : P.Ensures brk err R (c >>= f) := by
  rw [bind_eq_follow]
  refine hc.follow fun r hr => ?_
  cases r with
  | ok a m => exact hf a hr.1
  | error u m => exact throw hr.1

theorem ofExcept {p : Position} (hp : ∀ e : Error, e.IsOrdinaryAt p → err e)
    {r : Except Error α} (hr : FailsAt p Q r) : P.Ensures brk err Q (Eval.ofExcept r) := by
  cases r with
  | ok a => exact pure hr
  | error e => exact throw (hp e hr)

/-! ### Names -/

theorem current : P.Ensures brk err (P.base ≤ ·) Eval.current := by
  intro m hm
  unfold Eval.current
  split
  · next id rest hstack => exact ⟨hm.stack id (hstack ▸ List.mem_cons_self), hm⟩
  · exact ⟨hm.store.size, hm.store.root, hm.stack, hm.kept⟩

theorem get : P.Ensures brk err P.Fits (MonadState.get : Eval Machine) := fun _ hm => ⟨hm, hm⟩

/-- The names that a native sees have values that are known. -/
theorem surroundings :
    P.Ensures brk err (fun lookup => ∀ name v, lookup name = some v → P.Knows v)
      Eval.surroundings :=
  current.bind fun _ hid => get.bind fun _ hm => pure fun _ _ hv => hm.store.lookup hid hv

variable {p : Position} (hp : ∀ e : Error, e.IsOrdinaryAt p → err e)
include hp

theorem truth (v : Value) : P.Ensures brk err (fun _ => True) (Eval.truth p v) :=
  ofExcept hp (.toBoolean v)

theorem lookup (name : String) : P.Ensures brk err P.Knows (Eval.lookup name p) := by
  refine current.bind fun id hid => get.bind fun m hm => ?_
  cases hv : m.store.lookup id name with
  | none => exact fail (hp _ ⟨rfl, trivial⟩)
  | some v => exact pure (hm.store.lookup hid hv)

theorem change (name : String) {update : Store → Option Value × Store}
    (h : ∀ s, P.Stored s → (∀ v, (update s).1 = some v → P.Knows v) ∧ P.Stored (update s).2) :
    P.Ensures brk err P.Knows (bindName.change name p update) := by
  refine bind (Q := fun found => ∀ v, found = some v → P.Knows v) ?_ fun found hfound => ?_
  · intro m hm
    obtain ⟨hfound, hstore⟩ := h m.store hm.store
    exact ⟨hfound, hstore, hm.stack, hm.kept⟩
  · cases found with
    | none => exact fail (hp _ ⟨rfl, trivial⟩)
    | some v => exact pure (hfound v rfl)

theorem bindName (binding : Binding) (name : String) {v : Value} (hv : P.Knows v) :
    P.Ensures brk err P.Knows (Eval.bindName binding name v p) := by
  refine current.bind fun id hid => ?_
  cases binding with
  | declare =>
    refine bind (Q := fun _ => True) (fun m hm => ?_) fun _ _ => pure hv
    exact ⟨trivial, hm.store.declare id name hv, hm.stack, hm.kept⟩
  | assign => exact change hp name fun s hs => hs.update hid name fun _ _ => hv
  | nullAssign =>
    refine change hp name fun s hs => hs.update hid name fun old hold => ?_
    split
    · exact hv
    · exact hold

omit hp in
theorem close {f : Function} (hf : P.Code f) : P.Ensures brk err P.Knows (Eval.close f) :=
  current.bind fun _ hid _ hm => ⟨⟨hf, hid⟩, hm.store, hm.stack, hm.kept⟩

omit hp in
theorem exchange {update : List Value → List Value}
    (h : ∀ kept : List Value, (∀ v ∈ kept, P.kept v) → ∀ v ∈ update kept, P.kept v) :
    P.Ensures brk err (fun kept => ∀ v ∈ kept, P.kept v) (Eval.exchange update) :=
  fun m hm => ⟨hm.kept, hm.store, hm.stack, h m.kept hm.kept⟩

/-! ### Scopes -/

theorem within (limits : Limits) {parent : ScopeId} (hparent : P.base ≤ parent) {bs : Bindings}
    (hbs : P.Bound bs) {c : Eval α} (hc : P.Ensures brk err Q c) :
    P.Ensures brk err Q (Eval.within limits parent bs p c) := by
  intro m hm
  by_cases hfull : limits.maxDepth ≤ m.stack.length
  · rw [within_of_full hfull]
    exact ⟨hp _ ⟨rfl, trivial⟩, hm⟩
  · rw [within_of_room hfull]
    have hresult := hc _ (hm.enter hparent hbs)
    exact hresult.withState ⟨hresult.state.store, fun id hid =>
      hresult.state.stack id (List.mem_of_mem_tail hid), hresult.state.kept⟩

theorem inChild (limits : Limits) {c : Eval α} (hc : P.Ensures brk err Q c) :
    P.Ensures brk err Q (Eval.inChild limits p c) :=
  current.bind fun _ hid => within hp limits hid (List.forall_mem_nil _) hc

/-! ### Operators, loops and boundaries -/

theorem combine {lp rp : Position}
    (hlp : ∀ e : Error, e.IsOrdinaryAt lp → err e) (hrp : ∀ e : Error, e.IsOrdinaryAt rp → err e)
    (operator : Operator) {left right : Eval Value} (hleft : P.Ensures brk err P.Knows left)
    (hright : P.Ensures brk err P.Knows right) :
    P.Ensures brk err P.Knows (Eval.combine operator left right lp rp p) := by
  have htruth : P.Ensures brk err P.Knows (combine.rightTruth right rp) :=
    hright.bind fun v _ => (truth hrp v).bind fun _ _ => pure trivial
  refine hleft.bind fun v hv => ?_
  cases operator with
  | or =>
    refine (truth hlp v).bind fun b _ => ?_
    cases b
    · exact htruth
    · exact pure trivial
  | and =>
    refine (truth hlp v).bind fun b _ => ?_
    cases b
    · exact pure trivial
    · exact htruth
  | nullCoalescing =>
    dsimp only
    split
    · exact hright
    · exact pure hv
  | _ => exact hright.bind fun w _ => ofExcept hp (.binary _ v w)

/-- A loop lets no break of its guard or of its body out. -/
theorem repeatWhile {guard : Eval Bool} (hguard : P.Ensures brk err (fun _ => True) guard)
    {body : Eval Value} (hbody : P.Ensures brk err P.Knows body) (limit : Nat) {last : Value}
    (hlast : P.Knows last) :
    P.Ensures brk' err P.Knows (Eval.repeatWhile guard body p limit last) := by
  induction limit generalizing last with
  | zero =>
    rw [repeatWhile_eq_follow]
    refine hguard.follow fun r hr => ?_
    rcases r with ⟨_ | _, m⟩ | ⟨_ | _ | _, m⟩
    · exact pure hlast
    · exact fail (hp _ ⟨rfl, trivial⟩)
    · exact pure hr.1.1
    · exact throw hr.1
    · exact throw trivial
  | succ limit ih =>
    rw [repeatWhile_eq_follow]
    refine hguard.follow fun r hr => ?_
    rcases r with ⟨_ | _, m⟩ | ⟨_ | _ | _, m⟩
    · exact pure hlast
    · -- The guard holds: the body runs, and the loop goes on with a smaller limit.
      refine hbody.follow fun r hr => ?_
      rcases r with ⟨v, m⟩ | ⟨_ | _ | _, m⟩
      · exact ih hr.1
      · exact pure hr.1.1
      · exact throw hr.1
      · exact throw trivial
    · exact pure hr.1.1
    · exact throw hr.1
    · exact throw trivial

omit hp in
/-- A break that leaves a function is a stray one. -/
theorem boundary {c : Eval Value} (hc : P.Ensures (P.Breaks false) P.raised P.Knows c) :
    P.Ensures noBreak P.raised P.Knows (Eval.boundary c) := by
  rw [boundary_eq_follow]
  refine hc.follow fun r hr => ?_
  rcases r with ⟨v, m⟩ | ⟨_ | _ | _, m⟩
  · exact pure hr.1
  · exact fail (P.strayed hr.1.2.1 (hr.1.2.2 rfl))
  · exact throw hr.1
  · exact throw trivial

omit hp in
theorem locatedAt {c : Eval Value} (hc : P.Ensures noBreak P.passed P.Knows c)
    (hpassed : ∀ e, P.passed e → err (e.locatedAt p)) :
    P.Ensures noBreak err P.Knows (Eval.locatedAt p c) := by
  rw [locatedAt_eq_follow]
  refine hc.follow fun r hr => ?_
  rcases r with ⟨v, m⟩ | ⟨_ | _ | _, m⟩
  · exact pure hr.1
  · exact hr.1.2.elim
  · exact throw (hpassed _ hr.1)
  · exact throw trivial

end Ensures

/-! ### Trees -/

/-- Calls of code that is known keep to the policy, wherever they come from. -/
def Serves (P : Policy) (serve : Request → Eval Value) : Prop :=
  ∀ c vs p label err, P.Known c → (∀ v ∈ vs, P.Knows v) → Blames P.raised P.passed err p →
    P.Ensures noBreak err P.Knows (serve (.call c vs p label))

section Trees
variable {limits : Limits} {serve : Request → Eval Value}

theorem ordinary {p : Position} (hp : P.place p) (e : Error) (he : e.IsOrdinaryAt p) :
    P.raised e := (P.code hp).ordinary e he

mutual

/-- **Code keeps to the policy**, as soon as the calls that it makes do. -/
theorem ensures_statement (hserve : P.Serves serve) : (s : Statement) → (looped : Bool) →
    s.Alike (fun p _ => P.place p) s → (∀ p ∈ s.strayBreaks looped, P.stray p) →
    P.Ensures (P.Breaks looped) P.raised P.Knows (s.exec limits serve)
  | .bind binding name value _, looped, .bind _ _ hvalue hp, hstray => by
    simp only [Statement.exec, Statement.strayBreaks] at hstray ⊢
    exact (ensures_statement hserve value looped hvalue hstray).bind fun v hv =>
      .bindName (ordinary hp) binding name hv
  | .condition bs none _, looped, .condition hbs .none _, hstray => by
    simp only [Statement.exec, Statement.strayBreaks] at hstray ⊢
    refine (ensures_branches hserve bs looped hbs hstray).bind fun v hv => .pure ?_
    cases v with
    | none => trivial
    | some v => exact hv v rfl
  | .condition bs (some otherwise) _, looped, .condition hbs (.some hotherwise) _, hstray => by
    simp only [Statement.exec, Statement.strayBreaks, List.forall_mem_append] at hstray ⊢
    refine (ensures_branches hserve bs looped hbs hstray.1).bind fun v hv => ?_
    cases v with
    | none => exact ensures_statement hserve otherwise looped hotherwise hstray.2
    | some v => exact .pure (hv v rfl)
  | .loop guard body _, looped, .loop hguard hbody hp, hstray => by
    -- The guard and the body may break anywhere, for the loop lets none of their breaks out.
    simp only [Statement.exec, Statement.strayBreaks, List.forall_mem_append] at hstray ⊢
    refine .repeatWhile (ordinary hp) ?_
      (.inChild (ordinary hp) limits (ensures_statement hserve body true hbody hstray.2))
      limits.maxIterations trivial
    exact (ensures_statement hserve guard true hguard hstray.1).bind fun v _ =>
      .truth (ordinary hguard.position) v
  | .breakOut none p, looped, .breakOut .none hp, hstray => by
    simp only [Statement.exec, Statement.strayBreaks] at hstray ⊢
    refine .throw ⟨trivial, hp, fun hlooped => hstray p ?_⟩
    simp [hlooped]
  | .breakOut (some value) p, looped, .breakOut (.some hvalue) hp, hstray => by
    simp only [Statement.exec, Statement.strayBreaks, List.forall_mem_append] at hstray ⊢
    refine (ensures_statement hserve value looped hvalue hstray.1).bind fun v hv =>
      .throw ⟨hv, hp, fun hlooped => hstray.2 p ?_⟩
    simp [hlooped]
  | .expression e, looped, .expression he, hstray => by
    simp only [Statement.exec, Statement.strayBreaks] at hstray ⊢
    exact ensures_expression hserve e looped he hstray

theorem ensures_expression (hserve : P.Serves serve) : (e : Expression) → (looped : Bool) →
    e.Alike (fun p _ => P.place p) e → (∀ p ∈ e.strayBreaks looped, P.stray p) →
    P.Ensures (P.Breaks looped) P.raised P.Knows (e.eval limits serve)
  | .binary operator left right _, looped, .binary _ hleft hright hp, hstray => by
    simp only [Expression.eval, Expression.strayBreaks, List.forall_mem_append] at hstray ⊢
    exact .combine (ordinary hp) (ordinary hleft.position) (ordinary hright.position) operator
      (ensures_expression hserve left looped hleft hstray.1)
      (ensures_expression hserve right looped hright hstray.2)
  | .negate operand _, looped, .negate hoperand hp, hstray => by
    simp only [Expression.eval, Expression.strayBreaks] at hstray ⊢
    exact (ensures_expression hserve operand looped hoperand hstray).bind fun v _ =>
      .ofExcept (ordinary hp) (.negate v)
  | .constant value _, looped, _, _ => by
    simp only [Expression.eval]
    exact .pure value.over
  | .reference name _, looped, .reference _ hp, _ => by
    simp only [Expression.eval]
    exact .lookup (ordinary hp) name
  | .block ⟨ss, _⟩, looped, .block (.mk hss hp), hstray => by
    simp only [Expression.eval, Block.eval, Expression.strayBreaks, Block.strayBreaks] at hstray ⊢
    exact .inChild (ordinary hp) limits (ensures_statements hserve ss looped hss hstray trivial)
  | .lambda f, looped, .lambda hf, hstray => by
    -- The body is not run here; what is known about it goes with the closure.
    simp only [Expression.eval, Expression.strayBreaks] at hstray ⊢
    exact .close ⟨.lambda hf, hstray⟩
  | .call callee given p, looped, .call hcallee hgiven hp, hstray => by
    simp only [Expression.eval, Expression.strayBreaks, List.forall_mem_append] at hstray ⊢
    refine (ensures_expression hserve callee looped hcallee hstray.1).bind fun v hv => ?_
    cases v with
    | closure c =>
      refine (ensures_arguments hserve given looped hgiven hstray.2).bind fun vs hvs => ?_
      exact (hserve c vs p _ _ hv hvs (P.code hp)).mono (fun _ h => h.elim) fun _ he => he
    | _ => exact .fail (ordinary hp _ ⟨rfl, trivial⟩)

theorem ensures_statements (hserve : P.Serves serve) : (ss : List Statement) → (looped : Bool) →
    List.Forall₂ (Statement.Alike fun p _ => P.place p) ss ss →
    (∀ p ∈ strayBreaksOfStatements looped ss, P.stray p) → {last : Value} → P.Knows last →
    P.Ensures (P.Breaks looped) P.raised P.Knows (execAll limits serve last ss)
  | [], looped, _, _, _, hlast => by
    simp only [execAll]
    exact .pure hlast
  | s :: rest, looped, .cons hs hrest, hstray, _, _ => by
    simp only [execAll, strayBreaksOfStatements, List.forall_mem_append] at hstray ⊢
    exact (ensures_statement hserve s looped hs hstray.1).bind fun v hv =>
      ensures_statements hserve rest looped hrest hstray.2 hv

theorem ensures_branches (hserve : P.Serves serve) : (bs : List Branch) → (looped : Bool) →
    List.Forall₂ (Branch.Alike fun p _ => P.place p) bs bs →
    (∀ p ∈ strayBreaksOfBranches looped bs, P.stray p) →
    P.Ensures (P.Breaks looped) P.raised (fun found => ∀ v, found = some v → P.Knows v)
      (execBranches limits serve bs)
  | [], looped, _, _ => by
    simp only [execBranches]
    refine .pure fun v hv => ?_
    cases hv
  | ⟨guard, body⟩ :: rest, looped, .cons (.mk hguard hbody) hrest, hstray => by
    simp only [execBranches, strayBreaksOfBranches, List.forall_mem_append] at hstray ⊢
    refine (ensures_statement hserve guard looped hguard hstray.1.1).bind fun v _ =>
      (Ensures.truth (ordinary hguard.position) v).bind fun b _ => ?_
    cases b
    · exact ensures_branches hserve rest looped hrest hstray.2
    · exact (ensures_statement hserve body looped hbody hstray.1.2).bind fun v hv =>
        .pure fun w hw => Option.some.inj hw ▸ hv

theorem ensures_arguments (hserve : P.Serves serve) : (es : List Expression) → (looped : Bool) →
    List.Forall₂ (Expression.Alike fun p _ => P.place p) es es →
    (∀ p ∈ strayBreaksOfArguments looped es, P.stray p) →
    P.Ensures (P.Breaks looped) P.raised (fun vs => ∀ v ∈ vs, P.Knows v)
      (evalArguments limits serve es)
  | [], looped, _, _ => by
    simp only [evalArguments]
    exact .pure (List.forall_mem_nil _)
  | e :: rest, looped, .cons he hrest, hstray => by
    simp only [evalArguments, strayBreaksOfArguments, List.forall_mem_append] at hstray ⊢
    exact (ensures_expression hserve e looped he hstray.1).bind fun v hv =>
      (ensures_arguments hserve rest looped hrest hstray.2).bind fun vs hvs =>
        .pure (List.forall_mem_cons.mpr ⟨hv, hvs⟩)

end

end Trees

/-! ### Natives -/

variable {host : Host}

/-- The natives keep to the policy. -/
abbrev Natives (P : Policy) (host : Host) : Prop :=
  host.Obeys P.Knows P.kept P.passed (Request.Calls P.Knows P.asked)

section Calls
variable {serve : Request → Eval Value} (hserve : P.Serves serve)
include hserve

theorem ensures_routine {routine : Routine}
    (h : routine.Obeys P.Knows P.kept P.passed (Request.Calls P.Knows P.asked)) :
    P.Ensures noBreak P.passed P.Knows (routine.run serve) := by
  induction routine with
  | finish r =>
    cases r with
    | ok v => exact .pure h
    | error e => exact .throw h
  | write line next ih =>
    refine .bind (Q := fun _ => True) (fun m hm => ?_) fun _ _ => ih h
    exact ⟨trivial, hm.store, hm.stack, hm.kept⟩
  | keep update next ih =>
    refine .bind (.exchange fun kept hkept => (h kept hkept).1) fun kept hkept => ?_
    exact ih kept (h kept hkept).2
  | request r next ih =>
    obtain ⟨hr, hnext⟩ := h
    rw [Routine.run_request]
    cases r with
    | call c vs p label =>
      obtain ⟨hc, hvs, hp⟩ := hr
      refine (hserve c vs p label P.passed hc hvs (P.native hp)).follow fun r hr => ?_
      rcases r with ⟨v, m⟩ | ⟨_ | e | _, m⟩
      · exact ih (.ok v) (hnext (.ok v) hr.1)
      · exact hr.1.2.elim
      · exact ih (.error e) (hnext (.error e) hr.1)
      · exact .throw trivial
    | execute program => exact hr.elim

theorem ensures_lambda {f : Lambda} (hf : P.Code (.lambda f)) (limits : Limits) :
    P.Ensures noBreak P.raised P.Knows (boundary (f.body.exec limits serve)) := by
  obtain ⟨hplaces, hstrays⟩ := hf
  cases hplaces with
  | lambda hf =>
    cases hf with
    | @mk body _ _ _ parameters hbody _ =>
      simp only [Function.strayBreaks, Lambda.strayBreaks] at hstrays
      exact .boundary (ensures_statement hserve body false hbody hstrays)

variable (hnatives : P.Natives host)
include hnatives

theorem ensures_body {f : Function} (hf : P.Code f) {p : Position} {err : Error → Prop}
    (hp : Blames P.raised P.passed err p) :
    P.Ensures noBreak err P.Knows (host.body serve p f) := by
  cases f with
  | lambda f => exact (ensures_lambda hserve hf host.limits).mono (fun _ h => h) hp.raised
  | native n =>
    rw [Host.body_native]
    refine .locatedAt (Ensures.surroundings.bind fun lookup hlookup => ?_) hp.passed
    exact ensures_routine hserve (hnatives.routine trivial n hlookup)

theorem ensures_call {c : Closure} (hc : P.Known c) {vs : List Value}
    (hvs : ∀ v ∈ vs, P.Knows v) {p : Position} {err : Error → Prop}
    (hp : Blames P.raised P.passed err p) (label : String) :
    P.Ensures noBreak err P.Knows (host.call serve c vs p label) := by
  unfold Host.call
  split
  · exact .fail (hp.ordinary _ ⟨rfl, trivial⟩)
  · exact .within hp.ordinary host.limits hc.captured (.ofArguments _ hvs)
      (ensures_body hserve hnatives hc.function hp)

end Calls

/-- **A host keeps to the policy** in all calls that it answers, if its natives do. -/
theorem serves_serve (hnatives : P.Natives host) (room : Nat) : P.Serves (host.serve room) := by
  induction room with
  | zero => exact fun c vs p label err _ _ _ => .throw trivial
  | succ room ih =>
    intro c vs p label err hc hvs hp
    exact ensures_call ih hnatives hc hvs hp label

/-! ### Programs -/

theorem Stored.install {root : ScopeId} (slot : Nat) (natives : List Native) {m : Machine}
    (h : P.Stored m.store) : P.Stored (m.install root slot natives).store := by
  induction natives generalizing slot m with
  | nil => exact h
  | cons native rest ih =>
    rw [Machine.install_cons]
    refine ih (slot + 1) (h.root.declare root native.name ?_)
    exact ⟨code_native _, h.size⟩

theorem Stored.reset {m : Machine} (h : P.Stored m.store) (hkept : ∀ v ∈ m.kept, P.kept v)
    (natives : List Native) : P.Fits (m.reset natives) := by
  refine ⟨h.root.install 0 natives, ?_, ?_⟩
  · rw [Machine.reset, (Machine.install_frame _ _ _ _).1]
    exact List.forall_mem_singleton.mpr h.size
  · rw [Machine.reset_kept]
    exact hkept

/-- **A program keeps to the policy**, whatever scopes there are before it that it cannot reach. -/
theorem serve_execute (hnatives : P.Natives host) (room : Nat) {program : Block}
    (hplaces : program.Alike (fun p _ => P.place p) program)
    (hstrays : ∀ p ∈ program.strayBreaks false, P.stray p) {m : Machine} (h : P.Stored m.store)
    (hkept : ∀ v ∈ m.kept, P.kept v) :
    (host.serve room (.execute program) m).Holds (fun _ => True) (P.Unwinds noBreak P.raised)
      P.Knows := by
  cases room with
  | zero => exact ⟨trivial, trivial⟩
  | succ room =>
    have hprogram : P.Ensures (P.Breaks false) P.raised P.Knows
        ((Expression.block program).eval host.limits (host.serve room)) := by
      refine ensures_expression (serves_serve hnatives room) _ false (.block hplaces) ?_
      simpa only [Expression.strayBreaks] using hstrays
    simp only [Expression.eval] at hprogram
    rw [Host.serve, Host.execute_eq]
    exact (hprogram.boundary _ (h.reset hkept host.natives)).withState trivial

end Policy

end Lumen
