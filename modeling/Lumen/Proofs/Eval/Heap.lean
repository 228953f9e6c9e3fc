import Lumen.Proofs.Eval.Seclusion
import Lumen.Proofs.Eval.Sound

/-! Evaluations that lead to no scope that has never been made.

A scene is sound if its machine is and the values that are held there lead to scopes that have been
made. Of a watched computation that begins with a sound scene all scenes are sound, up to the one
where it ends with what it hands over (`Watched.Sound`). Every construction of the evaluator keeps
to that: what comes next begins where something has ended, holding what that has handed over, and
whatever is bound, called or handed on is held (`Value.Kept`). So do all trees, as soon as the
answers to requests do (`sound_statement`). -/
namespace Lumen
open Eval

/-! ### Sound scenes -/

/-- The machine is sound, and the values that are held lead to scopes that have been made. -/
structure Scene.Sound (s : Scene) : Prop where
  machine : s.machine.Sound
  held : ∀ v ∈ s.held, v.Within s.machine.store.Has

theorem Scene.Sound.of_subset {m : Machine} {held held' : List Value} (h : Scene.Sound ⟨m, held⟩)
    (hheld : ∀ v ∈ held', v ∈ held) : Scene.Sound ⟨m, held'⟩ :=
  ⟨h.machine, fun v hv => h.held v (hheld v hv)⟩

/-- A value that leads nowhere but where the values in `held` lead. -/
def Value.Kept (held : List Value) (v : Value) : Prop :=
  ∀ Inside : ScopeId → Prop, (∀ w ∈ held, w.Within Inside) → v.Within Inside

theorem Value.kept_of_mem {held : List Value} {v : Value} (h : v ∈ held) : v.Kept held :=
  fun _ hheld => hheld v h

theorem Value.kept_of_over {held : List Value} {v : Value}
    (h : ∀ P : Closure → Prop, v.Over P) : v.Kept held := by
  intro Inside _
  have hover := h fun c => Inside c.captured
  cases v with
  | closure c => exact hover
  | _ => trivial

theorem Value.Kept.within {held : List Value} {v : Value} {m : Machine} (h : v.Kept held)
    (hm : Scene.Sound ⟨m, held⟩) : v.Within m.store.Has := h _ hm.held

/-! ### Computations that pass sound scenes -/

namespace Watched
variable {α β : Type} [Handed α]

/-- From `m` on, where the values in `held` are held, the scenes that are passed are sound, and so
is where the computation ends, with what it hands over. -/
structure SoundAt (t : Watched α) (held : List Value) (m : Machine) : Prop where
  passed : ∀ s ∈ (t held m).2, s.Sound
  ends : Scene.Sound ⟨(t held m).1.state, handed (t held m).1 ++ held⟩

/-- From every machine on that is sound with what is held. -/
def Sound (t : Watched α) (held : List Value) : Prop :=
  ∀ m, Scene.Sound ⟨m, held⟩ → t.SoundAt held m

namespace SoundAt
variable {held : List Value} {m : Machine} {t : Watched α} {c : Eval α}

theorem follow [Handed β] (h : t.SoundAt held m) {next : Result α → Watched β}
    (hnext : (next (t held m).1).SoundAt (handed (t held m).1 ++ held) (t held m).1.state) :
    (t.follow next).SoundAt held m := by
  refine ⟨fun s hs => ?_, hnext.ends.of_subset fun v hv => ?_⟩
  · exact (List.mem_append.mp hs).elim (h.passed s) (hnext.passed s)
  · obtain hv | hv := List.mem_append.mp hv
    · exact List.mem_append_left _ hv
    · exact List.mem_append_right _ (List.mem_append_right _ hv)

/-- A single step. What was held leads to scopes that are still there. -/
theorem step (hm : Scene.Sound ⟨m, held⟩) (hlast : m.ScopesLast (c m).state)
    (hstate : (c m).state.Sound)
    (hvalues : ∀ v ∈ handed (c m), v.Within (c m).state.store.Has) :
    (Watched.step c).SoundAt held m := by
  have hends : Scene.Sound ⟨(c m).state, handed (c m) ++ held⟩ := by
    refine ⟨hstate, fun v hv => ?_⟩
    obtain hv | hv := List.mem_append.mp hv
    · exact hvalues v hv
    · exact (hm.held v hv).mono hlast
  refine ⟨fun s hs => ?_, hends⟩
  simp only [Watched.step, List.mem_cons, List.not_mem_nil, or_false] at hs
  obtain rfl | rfl := hs
  · exact hm
  · exact hends

/-- With some more values that are held on the way. -/
theorem holding (hm : Scene.Sound ⟨m, held⟩) {vs : List Value}
    (hvs : ∀ v ∈ vs, v.Within m.store.Has)
    (h : Scene.Sound ⟨m, vs ++ held⟩ → t.SoundAt (vs ++ held) m) :
    (t.holding vs).SoundAt held m := by
  have hbody := h ⟨hm.machine, List.forall_mem_append.mpr ⟨hvs, hm.held⟩⟩
  refine ⟨hbody.passed, hbody.ends.of_subset fun v hv => ?_⟩
  obtain hv | hv := List.mem_append.mp hv
  · exact List.mem_append_left _ hv
  · exact List.mem_append_right _ (List.mem_append_right _ hv)

end SoundAt

namespace Sound
variable {held : List Value} {t : Watched α} {c : Eval α}

theorem follow [Handed β] (h : t.Sound held) {next : Result α → Watched β}
    (hnext : ∀ r, (next r).Sound (handed r ++ held)) : (t.follow next).Sound held := fun m hm =>
  (h m hm).follow (hnext _ _ (h m hm).ends)

/-! #### Single steps -/

/-- A computation that leaves the machine alone. -/
theorem still (hstate : ∀ m, (c m).state = m) (hvalues : ∀ m, ∀ v ∈ handed (c m), v.Kept held) :
    (step c).Sound held := by
  intro m hm
  refine .step hm ?_ ?_ fun v hv => ?_
  · rw [hstate]
    exact fun _ hi => hi
  · rw [hstate]
    exact hm.machine
  · rw [hstate]
    exact (hvalues m v hv).within hm

theorem pure {a : α} (ha : ∀ v ∈ Handed.values a, v.Kept held) :
    (step (Pure.pure a)).Sound held := still (fun _ => rfl) fun _ => ha

theorem value {v : Value} (hv : v.Kept held) : (step (Pure.pure v)).Sound held :=
  pure (List.forall_mem_singleton.mpr hv)

/-- A value that is no closure. -/
theorem constant {v : Value} (hv : ∀ P : Closure → Prop, v.Over P) :
    (step (Pure.pure v)).Sound held := value (Value.kept_of_over hv)

/-- The value that was handed over last. -/
theorem last (v : Value) : (step (Pure.pure v)).Sound (v :: held) :=
  value (Value.kept_of_mem List.mem_cons_self)

theorem throw {u : Unwind} (hu : ∀ v p, u = .breakOut v p → v.Kept held) :
    (step (MonadExcept.throw u : Eval α)).Sound held := by
  refine still (fun _ => rfl) fun m v hv => ?_
  cases u with
  | breakOut w p => exact List.mem_singleton.mp hv ▸ hu w p rfl
  | error e => cases hv
  | exhausted => cases hv

/-- What has stopped one computation stops the next one. -/
theorem rethrow [Handed β] (u : Unwind) (m : Machine) :
    (step (MonadExcept.throw u : Eval β)).Sound (handed (.error u m : Result α) ++ held) := by
  refine throw fun v p hu => Value.kept_of_mem ?_
  subst hu
  exact List.mem_append_left _ (List.mem_singleton_self v)

theorem raise (e : Error) : (step (MonadExcept.throw (.error e) : Eval α)).Sound held :=
  throw nofun

theorem exhausted : (step (MonadExcept.throw .exhausted : Eval α)).Sound held := throw nofun

theorem fail (position : Position) (cause : RuntimeCause) :
    (step (Eval.fail position cause : Eval α)).Sound held := raise _

/-- Results that are never closures. -/
theorem ofExcept {p : Position} {r : Except Error Value}
    (hr : ∀ P : Closure → Prop, FailsAt p (Value.Over P) r) :
    (step (Eval.ofExcept r)).Sound held := by
  cases r with
  | ok v => exact value (Value.kept_of_over hr)
  | error e => exact raise e

theorem truth (position : Position) (v : Value) : (step (Eval.truth position v)).Sound held := by
  unfold Eval.truth
  cases v.toBoolean position with
  | ok b => exact pure nofun
  | error e => exact raise e

end Sound

theorem SoundAt.bind [Handed β] {t : Watched α} {held : List Value} {m : Machine}
    (h : t.SoundAt held m) {g : α → Watched β}
    (hg : ∀ a m', (t held m).1 = .ok a m' → Scene.Sound ⟨m', Handed.values a ++ held⟩ →
      (g a).SoundAt (Handed.values a ++ held) m') : (t.bind g).SoundAt held m := by
  refine h.follow ?_
  have hends := h.ends
  cases hr : (t held m).1 with
  | ok a m' =>
    rw [hr] at hends
    exact hg a m' hr hends
  | error u m' =>
    rw [hr] at hends
    exact Sound.rethrow u m' m' hends

namespace Sound
variable {held : List Value} {t : Watched α} {c : Eval α}

theorem bind [Handed β] (h : t.Sound held) {g : α → Watched β}
    (hg : ∀ a, (g a).Sound (Handed.values a ++ held)) : (t.bind g).Sound held :=
  fun m hm => (h m hm).bind fun a m' _ hm' => hg a m' hm'

/-! #### Names -/

theorem primitive (hc : Primitive c) (hends : ∀ m : Machine, Scene.Sound ⟨m, held⟩ →
    (c m).state.Sound ∧ ∀ v ∈ handed (c m), v.Within (c m).state.store.Has) :
    (step c).Sound held := fun m hm =>
  .step hm (lasting_scopes.step m hc) (hends m hm).1 (hends m hm).2

theorem current : (step Eval.current).Sound held := by
  refine primitive .current fun m hm => ?_
  obtain ⟨id, m', hcurrent⟩ := current_ok m
  rw [hcurrent]
  exact ⟨(hm.machine.current hcurrent).1, nofun⟩

theorem surroundings : (step Eval.surroundings).Sound held := by
  refine primitive .surroundings fun m hm => ?_
  obtain ⟨id, m', hcurrent⟩ := current_ok m
  simp only [Eval.surroundings, Bind.bind, EStateM.bind, hcurrent]
  exact ⟨(hm.machine.current hcurrent).1, List.forall_mem_nil _⟩

theorem lookup (name : String) (position : Position) :
    (step (Eval.lookup name position)).Sound held := by
  refine primitive (.lookup name position) fun m hm => ?_
  obtain ⟨id, m', hcurrent⟩ := current_ok m
  have hm' := (hm.machine.current hcurrent).1
  rw [lookup_eq hcurrent]
  cases hv : m'.store.lookup id name with
  | none => exact ⟨hm', nofun⟩
  | some v => exact ⟨hm', List.forall_mem_singleton.mpr (hm'.store.binds.lookup hv)⟩

theorem bindName (binding : Binding) (name : String) {v : Value} (hv : v.Kept held)
    (position : Position) : (step (Eval.bindName binding name v position)).Sound held := by
  refine primitive (.bindName binding name v position) fun m hm => ?_
  obtain ⟨id, m', hcurrent⟩ := current_ok m
  have hm' := (hm.machine.current hcurrent).1
  have hlast : m.ScopesLast m' := by
    have hstep := lasting_scopes.step m Primitive.current
    rwa [hcurrent] at hstep
  obtain ⟨hvalue, hstore⟩ := hm'.store.bound binding id name ((hv.within hm).mono hlast)
  have hhas : ∀ i, m'.store.Has i ↔ (bound binding id name v m'.store).2.Has i := by
    intro i
    cases binding with
    | declare => exact (Store.has_declare id name v).symm
    | assign => exact (Store.has_update id name _).symm
    | nullAssign => exact (Store.has_update id name _).symm
  rw [bindName_eq hcurrent]
  generalize bound binding id name v m'.store = result at hvalue hstore hhas
  have hactive : ∀ i ∈ m'.stack, result.2.Has i := fun i hi => (hhas i).mp (hm'.active i hi)
  have hkept : ∀ w ∈ m'.kept, w.Within result.2.Has := fun w hw =>
    (hm'.kept w hw).mono fun i => (hhas i).mp
  obtain ⟨_ | w, store⟩ := result
  · exact ⟨⟨hstore, hactive, hkept⟩, nofun⟩
  · refine ⟨⟨hstore, hactive, hkept⟩, List.forall_mem_singleton.mpr ?_⟩
    exact (hvalue w rfl).mono fun i => (hhas i).mp

/-- A new closure captures the current scope, which has been made. -/
theorem close (f : Function) : (step (Eval.close f)).Sound held := by
  refine primitive (.close f) fun m hm => ?_
  obtain ⟨id, m', hcurrent⟩ := current_ok m
  obtain ⟨hm', hid⟩ := hm.machine.current hcurrent
  simp only [Eval.close, Bind.bind, EStateM.bind, hcurrent]
  exact ⟨hm'.of_store_eq rfl (fun _ hi => hi) rfl, List.forall_mem_singleton.mpr hid⟩

/-! #### Scopes, operators and loops -/

/-- What an evaluation has ended with is handed on when the machine has been put in order. -/
theorem after {tidy : Machine → Machine} (hlast : ∀ m : Machine, m.ScopesLast (tidy m))
    (htidy : ∀ m : Machine, m.Sound → (tidy m).Sound) (r : Result α) :
    (step fun m => r.withState (tidy m)).Sound (handed r ++ held) := by
  intro m hm
  have hstate : (r.withState (tidy m)).state = tidy m := r.state_withState (tidy m)
  have hhanded : handed (r.withState (tidy m)) = handed r := by
    rcases r with ⟨a, m'⟩ | ⟨_ | _ | _, m'⟩ <;> rfl
  refine .step hm ?_ ?_ fun v hv => ?_
  · rw [hstate]
    exact hlast m
  · rw [hstate]
    exact htidy m hm.machine
  · rw [hhanded] at hv
    rw [hstate]
    exact (hm.held v (List.mem_append_left _ hv)).mono (hlast m)

end Sound

theorem SoundAt.within {t : Watched α} {held : List Value} {m : Machine}
    (hm : Scene.Sound ⟨m, held⟩) (limits : Limits) {parent : ScopeId}
    (hparent : m.store.Has parent) {bindings : Bindings}
    (hbindings : ∀ n v, bindings.find? n = some v → v.Within m.store.Has) (position : Position)
    (h : t.Sound held) : (t.within limits parent bindings position).SoundAt held m := by
  have henter : (Watched.step (modify (·.enter parent bindings))).SoundAt held m :=
    .step hm (lasting_scopes.enter parent bindings m) (hm.machine.enter hparent hbindings) nofun
  have hleave : ∀ r : Result α,
      (Watched.step fun m => r.withState m.leave).Sound (handed r ++ held) :=
    Sound.after lasting_scopes.leave fun _ hm => hm.leave
  have hroom : ((Watched.step (modify (·.enter parent bindings))).follow fun _ =>
      t.follow fun r => .step fun m => r.withState m.leave).SoundAt held m :=
    henter.follow (h.follow hleave _ henter.ends)
  have hfull : (Watched.step (Eval.fail position .recursionLimit : Eval α)).SoundAt held m :=
    Sound.fail position _ m hm
  by_cases hlimit : limits.maxDepth ≤ m.stack.length
  · constructor <;> simp only [Watched.within, hlimit, if_true]
    · exact hfull.passed
    · exact hfull.ends
  · constructor <;> simp only [Watched.within, hlimit, if_false]
    · exact hroom.passed
    · exact hroom.ends

namespace Sound
variable {held : List Value}

theorem inChild (limits : Limits) (position : Position) {t : Watched Value} (h : t.Sound held) :
    (t.inChild limits position).Sound held := by
  intro m hm
  refine (current m hm).bind fun id m' hcurrent hm' => ?_
  exact .within hm' limits (hm.machine.current hcurrent).2 (fun n v hv => by cases hv) position h

theorem afresh (natives : List Native) {t : Watched Value} (h : t.Sound held) :
    (t.afresh natives).Sound held := by
  intro m hm
  have hreset : (step (modify (·.reset natives))).SoundAt held m :=
    .step hm (lasting_scopes.reset natives m) (hm.machine.reset natives) nofun
  have hrest := h.follow (after (lasting_scopes.reset natives) fun _ hm => hm.reset natives)
  exact hreset.follow (hrest _ hreset.ends)

theorem combine (operator : Operator) {left right : Watched Value}
    (leftAt rightAt position : Position) (hleft : left.Sound held)
    (hright : ∀ held, right.Sound held) :
    (Watched.combine operator left right leftAt rightAt position).Sound held := by
  have htruth : ∀ held, (Watched.combine.rightTruth right rightAt).Sound held := fun held =>
    (hright held).bind fun v => (truth rightAt v).bind fun _ => constant fun _ => trivial
  refine hleft.bind fun v => ?_
  cases operator with
  | or =>
    refine (truth leftAt v).bind fun b => ?_
    cases b
    · exact htruth _
    · exact constant fun _ => trivial
  | and =>
    refine (truth leftAt v).bind fun b => ?_
    cases b
    · exact constant fun _ => trivial
    · exact htruth _
  | nullCoalescing =>
    cases v.isNull
    · exact last v
    · exact hright _
  | _ => exact (hright _).bind fun w => ofExcept fun P => .binary _ v w

theorem repeatWhile {guard : Watched Bool} {body : Watched Value} (position : Position)
    (limit : Nat) {last : Value} (hguard : ∀ held, guard.Sound held)
    (hbody : ∀ held, body.Sound held) (hlast : last.Kept held) :
    (Watched.repeatWhile guard body position limit last).Sound held := by
  induction limit generalizing held last with
  | zero =>
    rw [Watched.repeatWhile]
    refine (hguard held).follow fun r => ?_
    rcases r with ⟨_ | _, m⟩ | ⟨_ | _ | _, m⟩
    · exact value hlast
    · exact fail position _
    · exact Sound.last _
    · exact raise _
    · exact exhausted
  | succ limit ih =>
    rw [Watched.repeatWhile]
    refine (hguard held).follow fun r => ?_
    rcases r with ⟨_ | _, m⟩ | ⟨_ | _ | _, m⟩
    · exact value hlast
    · refine (hbody _).follow fun r => ?_
      rcases r with ⟨v, m⟩ | ⟨_ | _ | _, m⟩
      · exact ih (Value.kept_of_mem List.mem_cons_self)
      · exact Sound.last _
      · exact raise _
      · exact exhausted
    · exact Sound.last _
    · exact raise _
    · exact exhausted

theorem boundary {t : Watched Value} (h : t.Sound held) : t.boundary.Sound held := by
  refine h.follow fun r => ?_
  rcases r with ⟨v, m⟩ | ⟨_ | _ | _, m⟩
  · exact last v
  · exact fail _ _
  · exact raise _
  · exact exhausted

theorem locatedAt {t : Watched Value} (h : t.Sound held) (position : Position) :
    (t.locatedAt position).Sound held := by
  refine h.follow fun r => ?_
  rcases r with ⟨v, m⟩ | ⟨_ | _ | _, m⟩
  · exact last v
  · exact rethrow _ m
  · exact raise _
  · exact exhausted

end Sound

end Watched

/-! ### Trees -/

/-- Requests about values that lead to scopes that have been made are answered soundly. -/
def SoundAnswers (serve : Request → Watched Value) : Prop :=
  ∀ (held : List Value) (r : Request) (m : Machine), Scene.Sound ⟨m, held⟩ →
    (∀ v ∈ r.values, v.Within m.store.Has) → (serve r).SoundAt held m

section Trees
variable {limits : Limits} {serve : Request → Watched Value}

mutual

/-- **Trees pass sound scenes only**, as soon as requests are answered soundly. -/
theorem sound_statement (hserve : SoundAnswers serve) (held : List Value) :
    (s : Statement) → (s.watch limits serve).Sound held
  | .bind binding name value position => by
    simp only [Statement.watch]
    exact (sound_statement hserve held value).bind fun v =>
      .bindName binding name (Value.kept_of_mem List.mem_cons_self) position
  | .condition bs none _ => by
    simp only [Statement.watch]
    refine (sound_branches hserve held bs).bind fun found => ?_
    cases found with
    | none => exact .constant fun _ => trivial
    | some v => exact .last v
  | .condition bs (some otherwise) _ => by
    simp only [Statement.watch]
    refine (sound_branches hserve held bs).bind fun found => ?_
    cases found with
    | none => exact sound_statement hserve _ otherwise
    | some v => exact .last v
  | .loop guard body position => by
    simp only [Statement.watch]
    refine .repeatWhile position _ (fun held => ?_) (fun held => ?_)
      (Value.kept_of_over fun _ => trivial)
    · exact (sound_statement hserve held guard).bind fun v => .truth guard.position v
    · exact .inChild limits position (sound_statement hserve held body)
  | .breakOut none position => by
    simp only [Statement.watch]
    refine .throw fun v p hu => ?_
    cases hu
    exact Value.kept_of_over fun _ => trivial
  | .breakOut (some value) position => by
    simp only [Statement.watch]
    refine (sound_statement hserve held value).bind fun v => .throw fun w p hu => ?_
    cases hu
    exact Value.kept_of_mem List.mem_cons_self
  | .expression e => by
    simp only [Statement.watch]
    exact sound_expression hserve held e

theorem sound_expression (hserve : SoundAnswers serve) (held : List Value) :
    (e : Expression) → (e.watch limits serve).Sound held
  | .binary operator left right position => by
    simp only [Expression.watch]
    exact .combine operator _ _ position (sound_expression hserve held left)
      fun held => sound_expression hserve held right
  | .negate operand position => by
    simp only [Expression.watch]
    exact (sound_expression hserve held operand).bind fun v => .ofExcept fun P => .negate v
  | .constant value _ => by
    simp only [Expression.watch]
    exact .constant fun _ => value.over
  | .reference name position => by
    simp only [Expression.watch]
    exact .lookup name position
  | .block b => by
    simp only [Expression.watch]
    exact sound_block hserve held b
  | .lambda f => by
    simp only [Expression.watch]
    exact .close (.lambda f)
  | .call callee arguments position => by
    simp only [Expression.watch]
    refine (sound_expression hserve held callee).bind fun v => ?_
    cases v with
    | closure c =>
      -- The callee is held while the arguments are evaluated, and so are they.
      refine (sound_arguments hserve _ arguments).bind fun vs m hm => ?_
      refine hserve _ _ m hm fun v hv => ?_
      obtain rfl | hv := List.mem_cons.mp hv
      · exact hm.held _ (List.mem_append_right _ List.mem_cons_self)
      · exact hm.held v (List.mem_append_left _ hv)
    | _ => exact .fail position _

theorem sound_block (hserve : SoundAnswers serve) (held : List Value) :
    (b : Block) → (b.watch limits serve).Sound held
  | ⟨ss, position⟩ => by
    simp only [Block.watch]
    exact .inChild limits position
      (sound_statements hserve held ss (Value.kept_of_over fun _ => trivial))

theorem sound_statements (hserve : SoundAnswers serve) (held : List Value) :
    (ss : List Statement) → {last : Value} → last.Kept held →
    (watchAll limits serve last ss).Sound held
  | [], _, hlast => by
    simp only [watchAll]
    exact .value hlast
  | s :: rest, _, _ => by
    simp only [watchAll]
    exact (sound_statement hserve held s).bind fun v =>
      sound_statements hserve _ rest (Value.kept_of_mem List.mem_cons_self)

theorem sound_branches (hserve : SoundAnswers serve) (held : List Value) :
    (bs : List Branch) → (watchBranches limits serve bs).Sound held
  | [] => by
    simp only [watchBranches]
    exact .pure nofun
  | ⟨guard, body⟩ :: rest => by
    simp only [watchBranches]
    refine (sound_statement hserve held guard).bind fun v =>
      (Watched.Sound.truth guard.position v).bind fun b => ?_
    cases b
    · exact sound_branches hserve _ rest
    · refine (sound_statement hserve _ body).bind fun v => .pure fun w hw => Value.kept_of_mem ?_
      exact List.mem_append_left _ hw

theorem sound_arguments (hserve : SoundAnswers serve) (held : List Value) :
    (es : List Expression) → (watchArguments limits serve es).Sound held
  | [] => by
    simp only [watchArguments]
    exact .pure nofun
  | e :: rest => by
    simp only [watchArguments]
    refine (sound_expression hserve held e).bind fun v => (sound_arguments hserve _ rest).bind
      fun vs => .pure fun w hw => Value.kept_of_mem ?_
    obtain rfl | hw := List.mem_cons.mp hw
    · exact List.mem_append_right _ List.mem_cons_self
    · exact List.mem_append_left _ hw

end

end Trees

end Lumen
