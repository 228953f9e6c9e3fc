import Lumen.Proofs.Eval.Heap

/-! The heap, with its cycles.

Closures are bound in the very scopes that they captured, so the heap is full of cycles; but no
parent is part of one, and nothing leads to a scope that has never been made. Evaluation keeps it so
at every point (`sound_statement`), provided that natives do. Those that make up no closures do
(`Native.MakesUpNothing`): such a native asks for nothing and answers with nothing but what it has
been given, and this stays good while it waits, since scopes are never removed (`sound_routine`).
By induction on the room that natives have to call back in, all requests are answered soundly, and
a host that hands over only what it has been handed gets from sound sessions to sound sessions
(`Session.Led.sound`). -/
namespace Lumen
open Eval

/-! ### Natives that make up no closures -/

/-- A routine that calls, passes on, keeps and gives back nothing that leads outside, as long as the
answers that it gets do not, and neither does what has been kept. -/
abbrev Routine.PassesOn (Inside : ScopeId → Prop) : Routine → Prop :=
  Routine.Obeys (Value.Within Inside) (Value.Within Inside) (fun _ => True)
    fun r => ∀ v ∈ r.values, v.Within Inside

/-- A native that makes up no closures: wherever the values lead that it sees and that have been kept,
what it asks for, keeps and gives back leads nowhere else. -/
def Native.MakesUpNothing (native : Native) : Prop :=
  ∀ (Inside : ScopeId → Prop) (lookup : String → Option Value),
    (∀ name v, lookup name = some v → v.Within Inside) → (native.body lookup).PassesOn Inside

/-- None of the host's natives makes up closures. -/
def Host.MakesUpNothing (host : Host) : Prop := ∀ native ∈ host.natives, native.MakesUpNothing

theorem Host.MakesUpNothing.routine {host : Host} (h : host.MakesUpNothing)
    {Inside : ScopeId → Prop} (n : NativeRef) {lookup : String → Option Value}
    (hlookup : ∀ name v, lookup name = some v → v.Within Inside) :
    (host.routine n lookup).PassesOn Inside :=
  Host.Obeys.routine (fun native hnative => h native hnative Inside) trivial n hlookup

/-- The natives of the workbench make up no closures, though they execute programs. -/
theorem workbench_makesUpNothing : ∀ native ∈ Native.workbench, native.MakesUpNothing := by
  intro native hnative Inside lookup hlookup
  have hargument : ∀ name, (Native.argument lookup name).Within Inside :=
    Native.argument_of hlookup trivial
  have hcall : ∀ vs : List Value, (∀ v ∈ vs, v.Within Inside) → ∀ c : Closure,
      Native.argument lookup "f" = .closure c → ∀ v ∈ .closure c :: vs, v.Within Inside :=
    fun vs hvs c hc => List.forall_mem_cons.mpr ⟨hc ▸ hargument "f", hvs⟩
  simp only [Native.workbench, Native.console, List.cons_append, List.nil_append, List.mem_cons,
    List.not_mem_nil, or_false] at hnative
  rcases hnative with rfl | rfl | rfl | rfl | rfl | rfl | rfl | rfl | rfl | rfl
  · trivial
  · exact hargument "value"
  · exact .callBack (hcall _ (List.forall_mem_singleton.mpr (hargument "x"))) (fun _ => trivial)
      fun _ hresult => hresult
  · exact .callBack (hcall _ (List.forall_mem_nil _)) (fun _ => trivial) fun _ hresult => hresult
  · refine .callBack (hcall _ (List.forall_mem_nil _)) (fun _ => trivial) fun answer hresult => ?_
    cases answer with
    | ok v => exact hresult
    | error e => trivial
  · trivial
  · trivial
  · trivial
  · exact hargument _
  · simp only [Native.eval]
    split
    · exact ⟨List.forall_mem_nil _, fun _ hresult => hresult⟩
    · trivial

section Natives
variable {serve : Request → Watched Value} (hserve : SoundAnswers serve)
  (hlast : ∀ r held (m : Machine), m.ScopesLast (serve r held m).1.state)
include hserve hlast

/-- Scopes that are made later are as good as those that were there, so a routine may go on with
what it has seen when it is answered. -/
theorem sound_routine {routine : Routine} {held : List Value} {m : Machine}
    (hm : Scene.Sound ⟨m, held⟩)
    (h : ∀ Inside : ScopeId → Prop, (∀ i, m.store.Has i → Inside i) → routine.PassesOn Inside) :
    (routine.watch serve).SoundAt held m := by
  have hhere := h m.store.Has fun _ hi => hi
  induction routine generalizing held m with
  | finish result =>
    cases result with
    | ok v =>
      exact .step hm (fun _ hi => hi) hm.machine (List.forall_mem_singleton.mpr hhere)
    | error e => exact Watched.Sound.raise e m hm
  | write line next ih =>
    have hwrite :
        (Watched.step (modify fun m => { m with output := m.output.push line })).SoundAt held m :=
      .step hm (fun _ hi => hi) (hm.machine.of_store_eq rfl (fun _ hi => hi) rfl) nofun
    refine hwrite.bind fun _ m' heq hm' => ?_
    obtain ⟨-, rfl⟩ := EStateM.Result.ok.inj heq
    exact ih hm' h hhere
  | keep update next ih =>
    have hexchange : (Watched.step (exchange update)).SoundAt held m :=
      .step hm (fun _ hi => hi) (hm.machine.exchange (hhere _ hm.machine.kept).1) hm.machine.kept
    refine hexchange.bind fun kept m' heq hm' => ?_
    obtain ⟨rfl, rfl⟩ := EStateM.Result.ok.inj heq
    have hrest : ∀ Inside : ScopeId → Prop, (∀ i, m.store.Has i → Inside i) →
        (next m.kept).PassesOn Inside := fun Inside hinside =>
      (h Inside hinside m.kept fun v hv => (hm.machine.kept v hv).mono hinside).2
    exact ih m.kept hm' hrest (hrest _ fun _ hi => hi)
  | request r next ih =>
    have hnext : ∀ (answer : Except Error Value) (held : List Value) (m' : Machine),
        Scene.Sound ⟨m', held⟩ → m.ScopesLast m' →
        Answers (Value.Within m'.store.Has) (fun _ => True) answer →
        ((next answer).watch serve).SoundAt held m' := by
      intro answer held m' hm' hscopes hanswer
      have hrest : ∀ Inside : ScopeId → Prop, (∀ i, m'.store.Has i → Inside i) →
          (next answer).PassesOn Inside := fun Inside hinside =>
        (h Inside fun i hi => hinside i (hscopes i hi)).2 answer
          (hanswer.mono fun v hv => hv.mono hinside)
      exact ih answer hm' hrest (hrest _ fun _ hi => hi)
    have hasked := hserve held r m hm hhere.1
    have hends := hasked.ends
    have hscopes := hlast r held m
    rw [Routine.watch, Watched.answer]
    refine hasked.follow ?_
    generalize (serve r held m).1 = result at hends hscopes ⊢
    rcases result with ⟨v, m'⟩ | ⟨_ | e | _, m'⟩
    · exact hnext (.ok v) _ m' hends hscopes (hends.held v List.mem_cons_self)
    · exact Watched.Sound.rethrow _ m' m' hends
    · exact hnext (.error e) _ m' hends hscopes trivial
    · exact Watched.Sound.rethrow _ m' m' hends

/-- A function is run soundly, be it a lambda or a native. -/
theorem sound_body {host : Host} (hnatives : host.MakesUpNothing) (position : Position)
    (held : List Value) (f : Function) : (host.bodyWatch serve position f).Sound held := by
  cases f with
  | lambda f => exact (sound_statement hserve held f.body).boundary
  | native n =>
    refine .locatedAt (fun m hm => ?_) position
    refine (Watched.Sound.surroundings m hm).bind fun lookup m' hlook hm' => ?_
    obtain ⟨id, m₁, hcurrent⟩ := current_ok m
    obtain ⟨rfl, rfl⟩ : m₁.store.lookup id = lookup ∧ m₁ = m' := by
      simp only [Watched.step, surroundings, Bind.bind, EStateM.bind, hcurrent] at hlook
      exact EStateM.Result.ok.inj hlook
    refine sound_routine hserve hlast hm' fun Inside hinside => hnatives.routine n ?_
    exact fun name v hv => (hm'.machine.store.binds.lookup hv).mono hinside

theorem sound_call {host : Host} (hnatives : host.MakesUpNothing) {held : List Value}
    {m : Machine} {c : Closure} {arguments : List Value}
    (hm : Scene.Sound ⟨m, .closure c :: arguments ++ held⟩) (position : Position)
    (label : String) : (host.callWatch serve c arguments position label).SoundAt
      (.closure c :: arguments ++ held) m := by
  unfold Host.callWatch
  split
  · exact Watched.Sound.fail position _ m hm
  · refine .within hm host.limits (hm.held (.closure c) List.mem_cons_self) (fun n v hv => ?_)
      position (sound_body hserve hlast hnatives position _ c.function)
    rw [Bindings.find?_ofArguments] at hv
    exact hm.held v (List.mem_cons_of_mem _ (List.mem_append_left _ (mem_of_given hv)))

end Natives

/-- Scopes last whatever is asked, watched or not. -/
theorem Host.scopesLast_serveWatch (host : Host) (room : Nat) (r : Request) (held : List Value)
    (m : Machine) : m.ScopesLast (host.serveWatch room r held m).1.state := by
  rw [host.serveWatch_answer]
  exact host.scopesLast_serve room r m

/-- **Requests are answered soundly** where natives make up no closures. -/
theorem Host.MakesUpNothing.soundAnswers {host : Host} (hnatives : host.MakesUpNothing)
    (room : Nat) : SoundAnswers (host.serveWatch room) := by
  induction room with
  | zero =>
    intro held r m hm hr
    exact .holding hm hr fun hm => Watched.Sound.exhausted m hm
  | succ room ih =>
    intro held r m hm hr
    cases r with
    | call c arguments position label =>
      exact .holding hm hr fun hm =>
        sound_call ih (host.scopesLast_serveWatch room) hnatives hm position label
    | execute program =>
      exact Watched.Sound.afresh host.natives (sound_block ih held program).boundary m hm

/-! ### Sessions -/

/-- The sessions that a host can get to, with the values that it has been handed on the way. It may
hand over whatever leads to scopes that have been made: there are no closures over others. -/
inductive Session.Led (host : Host) : Session → List Value → Prop
  | start : Led host (.start host) []
  /-- A program is executed, or a closure is called. -/
  | serve {s : Session} {vs : List Value} (r : Request) : Led host s vs →
    (∀ v ∈ r.values, v.Within s.machine.store.Has) →
    Led host (s.serve r).2 ((s.serve r).1.values ++ vs)
  | close {s : Session} {vs : List Value} (f : Function) : Led host s vs →
    Led host (s.close f).2 (.closure (s.close f).1 :: vs)
  | takeOutput {s : Session} {vs : List Value} : Led host s vs → Led host s.takeOutput.2 vs

theorem Outcome.mem_handed {r : Result Value} {v : Value} (h : v ∈ (Outcome.ofResult r).values) :
    v ∈ handed r := by
  rcases r with ⟨w, m⟩ | ⟨_ | _ | _, m⟩
  · exact h
  all_goals cases h

/-- All that the host has been handed leads to scopes that are still there. -/
theorem Session.Led.sound {host : Host} (hnatives : host.MakesUpNothing) {s : Session}
    {vs : List Value} (h : s.Led host vs) : s.host = host ∧ Scene.Sound ⟨s.machine, vs⟩ := by
  induction h with
  | start => exact ⟨rfl, Machine.sound_empty.reset host.natives, nofun⟩
  | @serve s vs r _ hr ih =>
    obtain ⟨rfl, hm⟩ := ih
    have hends := (hnatives.soundAnswers s.host.room vs r s.machine hm hr).ends
    rw [s.host.serveWatch_answer] at hends
    rw [Session.serve_eq]
    refine ⟨rfl, hends.of_subset fun v hv => ?_⟩
    obtain hv | hv := List.mem_append.mp hv
    · exact List.mem_append_left _ (Outcome.mem_handed hv)
    · exact List.mem_append_right _ hv
  | @close s vs f _ ih =>
    obtain ⟨hhost, hm⟩ := ih
    obtain ⟨hsound, hclosure⟩ := hm.machine.closeAlone f
    refine ⟨hhost, hsound, fun v hv => ?_⟩
    obtain rfl | hv := List.mem_cons.mp hv
    · exact hclosure
    · exact (hm.held v hv).mono fun i hi => Store.has_add ⟨[], none⟩ hi
  | takeOutput _ ih =>
    exact ⟨ih.1, ih.2.machine.of_store_eq rfl (fun _ hi => hi) rfl, ih.2.held⟩

/-! ### Cycles -/

/-- A function that is bound to a name where it is written leads back to the scope that binds it. -/
theorem Statement.exec_declare_lambda (limits : Limits) (serve : Request → Eval Value)
    {m : Machine} {id : ScopeId} (hhead : m.stack.head? = some id) (hid : m.store.Has id)
    (f : Lambda) (name : String) (position : Position) : ∃ m' c,
      (Statement.bind .declare name (.expression (.lambda f)) position).exec limits serve m =
        .ok (.closure c) m' ∧
      c.captured = id ∧ m'.store.valueAt id name = some (.closure c) := by
  obtain ⟨store, stack, nextClosure, output, kept⟩ := m
  obtain ⟨rest, rfl⟩ : ∃ rest, stack = id :: rest := by
    cases stack with
    | nil => cases hhead
    | cons i rest => exact ⟨rest, by rw [Option.some.inj hhead]⟩
  let c : Closure := ⟨nextClosure, .lambda f, id⟩
  refine ⟨⟨store.declare id name (.closure c), id :: rest, nextClosure + 1, output, kept⟩, c, ?_, rfl,
    store.valueAt_declare_self name _ hid⟩
  simp only [Statement.exec, Expression.eval]
  rfl

/-- **The heap is well-formed at all times.** Let the natives make up no closures. In every session
that can be reached, and at all points of whatever is asked of it next, however that ends (these are
the scenes that it passes, and their machines are those of its trace),
* a parent is older than its children and has been made, and so have the active scopes, those that
  closures captured that are bound anywhere or kept by natives, those of the values that are held at
  that point (the callee and the arguments of a call, operands, what a break is on its way out
  with), and those of all values that have been returned;
* so the parents of a scope are finitely many and none of them comes twice, and every search for a
  name ends, in one way only, without coming to a scope that is not there;
* the search begins at the current scope, which is there.
A function that is declared captures the scope that binds it, so cycles there are. -/
theorem heap_well_formed {host : Host} (hnatives : host.MakesUpNothing) {s : Session}
    {vs : List Value} (hs : s.Led host vs) :
    Scene.Sound ⟨s.machine, vs⟩ ∧
    (∀ room r, (∀ v ∈ r.values, v.Within s.machine.store.Has) →
      let watched := host.serveWatch room r vs s.machine
      watched.1 = host.serve room r s.machine ∧
      watched.2.map Scene.machine = ((Task.request r).trace host room s.machine).2 ∧
      (∀ scene ∈ watched.2, scene.Sound) ∧
      Scene.Sound ⟨watched.1.state, handed watched.1 ++ vs⟩) ∧
    (∀ m : Machine, m.Sound → m.store.Searchable ∧
      ∃ id m', current m = .ok id m' ∧ m'.Sound ∧ m'.store.Has id) ∧
    ∀ (limits : Limits) (serve : Request → Eval Value) (m : Machine) (id : ScopeId), m.Sound →
      m.stack.head? = some id → ∀ (f : Lambda) (name : String) (position : Position), ∃ m' c,
        (Statement.bind .declare name (.expression (.lambda f)) position).exec limits serve m =
          .ok (.closure c) m' ∧
        c.captured = id ∧ m'.store.valueAt id name = some (.closure c) := by
  obtain ⟨_, hsound⟩ := hs.sound hnatives
  refine ⟨hsound, fun room r hr => ?_, fun m hm => ⟨hm.store.ordered.searchable, ?_⟩, ?_⟩
  · have hwatches := hnatives.soundAnswers room vs r s.machine hsound hr
    exact ⟨host.serveWatch_answer room r vs s.machine,
      host.machines_serveWatch room r vs s.machine, hwatches.passed, hwatches.ends⟩
  · obtain ⟨id, m', hcurrent⟩ := current_ok m
    exact ⟨id, m', hcurrent, hm.current hcurrent⟩
  · intro limits serve m id hm hhead
    have hid : m.store.Has id := hm.active id (List.mem_of_mem_head? hhead)
    exact Statement.exec_declare_lambda limits serve hhead hid

/-- The program `f = () => f; f;`. -/
def knot : Block :=
  let f : Lambda := ⟨[], .expression (.reference "f" ⟨1, 11⟩), ⟨1, 5⟩⟩
  ⟨[.bind .declare "f" (.expression (.lambda f)) ⟨1, 1⟩, .expression (.reference "f" ⟨1, 14⟩)],
    ⟨1, 1⟩⟩

/-- A closure that is bound in the scope that it captured. -/
def Value.isTied (s : Store) (name : String) : Value → Bool
  | closure f => (s.valueAt f.captured name).any (·.same (.closure f))
  | _ => false

/-- The program returns a function that captured the scope that binds it. When a native calls it
later, all is well. -/
theorem heap_well_formed_knot :
    let host : Host := ⟨[Native.attempt, Native.eval], {}⟩
    let first := (Session.start host).execute knot
    host.MakesUpNothing ∧ ∃ f : Value, first.1.values = [f] ∧
      f.isTied first.2.machine.store "f" ∧ first.2.Led host [f] ∧
      first.2.machine.store.Searchable ∧
      let call := Closure.request ⟨2, .native ⟨some 0, "try", ["f"]⟩, 4⟩ [f] ⟨1, 1⟩
      (∀ v ∈ call.values, v.Within first.2.machine.store.Has) ∧
      ∀ scene ∈ (host.serveWatch 3 call [f] first.2.machine).2, scene.Sound := by
  intro host first
  have hnatives : host.MakesUpNothing := fun native hnative =>
    workbench_makesUpNothing native (List.mem_append_right _ (by
      simp only [host, List.mem_cons, List.not_mem_nil, or_false] at hnative
      rcases hnative with rfl | rfl <;> simp))
  obtain ⟨f, hfirst⟩ : ∃ f, first.1.values = [f] :=
    List.length_eq_one_iff.mp (by decide +kernel)
  have htied : first.1.values.all (Value.isTied first.2.machine.store "f") := by decide +kernel
  rw [hfirst, List.all_cons, List.all_nil, Bool.and_true] at htied
  have hled : first.2.Led host (first.1.values ++ []) :=
    .serve (.execute knot) .start (List.forall_mem_nil _)
  rw [hfirst] at hled
  obtain ⟨hsound, hserve, hsearch, -⟩ := heap_well_formed hnatives hled
  have hcall : ∀ v ∈ (.closure ⟨2, .native ⟨some 0, "try", ["f"]⟩, 4⟩ :: [f] : List Value),
      v.Within first.2.machine.store.Has :=
    List.forall_mem_cons.mpr ⟨(by decide +kernel : first.2.machine.store.Has 4), hsound.held⟩
  obtain ⟨-, -, hscenes, -⟩ := hserve 3 (.call _ [f] ⟨1, 1⟩ _) hcall
  exact ⟨hnatives, f, hfirst, htied, hled, (hsearch _ hsound.machine).1, hcall, hscenes⟩

end Lumen
