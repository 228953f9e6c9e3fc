import Lumen.Proofs.Eval.Lockstep

/-! The iterations of a loop and their limit.

A loop without a limit of its own goes from stage to stage: its guard, if that holds then its body,
then its guard again, until it is left for good, if ever. An iteration is started by a guard that
holds. A loop that may start so many iterations goes through the very same stages: if it is left
before it needs one iteration more, it ends as it would without a limit; and otherwise the limit
stops it in front of that iteration, with as many iterations done and one guard more evaluated
(`loop_limit_exact`). -/
namespace Lumen
open Eval

/-! ### Loops without a limit -/

/-- Where a loop stands. -/
inductive Loop.Stage where
  /-- Its guard comes next. The last iteration had the value `last`. -/
  | guard (last : Value) (m : Machine)
  /-- Its guard has held, and an iteration starts. -/
  | body (m : Machine)
  /-- It has been left. -/
  | left (r : Eval.Result Value)

namespace Loop.Stage

def isGuard : Stage → Bool
  | guard _ _ => true
  | _ => false

def isBody : Stage → Bool
  | body _ => true
  | _ => false

end Loop.Stage

/-- A guard and a body that are repeated. -/
structure Loop where
  guard : Eval Bool
  body : Eval Value

namespace Loop
variable (l : Loop)

/-- From one stage to the next. -/
def next : Stage → Stage
  | .guard last m =>
    match l.guard m with
    | .ok true m => .body m
    | .ok false m => .left (.ok last m)
    | .error (.breakOut v _) m => .left (.ok v m)
    | .error u m => .left (.error u m)
  | .body m =>
    match l.body m with
    | .ok v m => .guard v m
    | .error (.breakOut v _) m => .left (.ok v m)
    | .error u m => .left (.error u m)
  | .left r => .left r

/-- The stage that comes `k` stages later. -/
def after : Nat → Stage → Stage
  | 0, stage => stage
  | k + 1, stage => after k (l.next stage)

/-- The stages of a loop that is entered on the machine `m`. -/
def stage (m : Machine) (k : Nat) : Stage := l.after k (.guard .null m)

/-- How many of the first `k` stages are in `p`. -/
def count (m : Machine) (p : Stage → Bool) (k : Nat) : Nat :=
  (List.range k).countP fun j => p (l.stage m j)

/-- How many iterations have been started when the loop has come to stage `k`. -/
def started (m : Machine) (k : Nat) : Nat := l.count m Stage.isBody (k + 1)

theorem after_succ (k : Nat) (stage : Stage) :
    l.after (k + 1) stage = l.next (l.after k stage) := by
  induction k generalizing stage with
  | zero => rfl
  | succ k ih => exact ih (l.next stage)

theorem after_left (k : Nat) (r : Eval.Result Value) : l.after k (.left r) = .left r := by
  induction k with
  | zero => rfl
  | succ k ih => exact ih

/-- A loop that has been left stays so. -/
theorem stage_of_left {m : Machine} {j k : Nat} {r : Eval.Result Value}
    (h : l.stage m j = .left r) (hle : j ≤ k) : l.stage m k = .left r := by
  induction hle with
  | refl => exact h
  | step _ ih =>
    rw [stage, after_succ, ← stage, ih]
    rfl

/-- Guards and bodies take turns until the loop is left. -/
theorem stage_turns (m : Machine) (k : Nat) :
    (∃ r, l.stage m k = .left r) ∨ (k % 2 = 0 ∧ ∃ last m', l.stage m k = .guard last m') ∨
      (k % 2 = 1 ∧ ∃ m', l.stage m k = .body m') := by
  induction k with
  | zero => exact .inr (.inl ⟨rfl, .null, m, rfl⟩)
  | succ k ih =>
    rw [stage, after_succ, ← stage]
    obtain ⟨r, hk⟩ | ⟨hparity, last, m', hk⟩ | ⟨hparity, m', hk⟩ := ih
    · exact .inl ⟨r, by rw [hk]; rfl⟩
    · rw [hk, next]
      split
      · exact .inr (.inr ⟨by omega, _, rfl⟩)
      all_goals exact .inl ⟨_, rfl⟩
    · rw [hk, next]
      split
      · exact .inr (.inl ⟨by omega, _, _, rfl⟩)
      all_goals exact .inl ⟨_, rfl⟩

/-! ### Counting -/

theorem count_succ (m : Machine) (p : Stage → Bool) (k : Nat) :
    l.count m p (k + 1) = l.count m p k + if p (l.stage m k) then 1 else 0 := by
  simp [count, List.range_succ]

theorem count_mono (m : Machine) (p : Stage → Bool) {j k : Nat} (h : j ≤ k) :
    l.count m p j ≤ l.count m p k := (List.range_sublist.mpr h).countP_le

/-- As long as a loop is not left, every other stage is a guard, and so is the first. -/
theorem count_of_not_left {m : Machine} {k : Nat} (h : ∀ r, l.stage m k ≠ .left r) :
    l.count m Stage.isGuard k = (k + 1) / 2 ∧ l.count m Stage.isBody k = k / 2 := by
  induction k with
  | zero => exact ⟨rfl, rfl⟩
  | succ k ih =>
    have hk : ∀ r, l.stage m k ≠ .left r := fun r hr => h r (l.stage_of_left hr (Nat.le_succ k))
    obtain ⟨hguards, hbodies⟩ := ih hk
    rw [count_succ, count_succ, hguards, hbodies]
    obtain ⟨r, hr⟩ | ⟨hparity, last, m', hstage⟩ | ⟨hparity, m', hstage⟩ := l.stage_turns m k
    · exact absurd hr (hk r)
    · rw [hstage]
      simp only [Stage.isGuard, Stage.isBody, if_true, Bool.false_eq_true, if_false]
      omega
    · rw [hstage]
      simp only [Stage.isGuard, Stage.isBody, if_true, Bool.false_eq_true, if_false]
      omega

theorem count_isBody_le (m : Machine) (k : Nat) : l.count m Stage.isBody k ≤ k / 2 := by
  induction k with
  | zero => exact Nat.le_refl 0
  | succ k ih =>
    rw [count_succ]
    obtain ⟨r, hstage⟩ | ⟨hparity, last, m', hstage⟩ | ⟨hparity, m', hstage⟩ := l.stage_turns m k
    all_goals
      rw [hstage]
      simp only [Stage.isBody, if_true, Bool.false_eq_true, if_false]
      omega

/-- Where iteration `n + 1` would start, or has not been needed. -/
theorem stage_limit (m : Machine) (n : Nat) :
    (∃ r, l.stage m (2 * n + 1) = .left r) ∨ ∃ m', l.stage m (2 * n + 1) = .body m' := by
  obtain hleft | ⟨hparity, _⟩ | ⟨_, hbody⟩ := l.stage_turns m (2 * n + 1)
  · exact .inl hleft
  · omega
  · exact .inr hbody

theorem started_of_left {m : Machine} {n : Nat} {r : Eval.Result Value}
    (h : l.stage m (2 * n + 1) = .left r) : l.started m (2 * n + 1) ≤ n := by
  have hle := l.count_isBody_le m (2 * n + 1)
  rw [started, count_succ, h]
  simp only [Stage.isBody, Bool.false_eq_true, if_false]
  omega

/-- A loop that is left after at most `n` iterations does not start one more. -/
theorem stage_of_started {m : Machine} {k n : Nat} {r : Eval.Result Value}
    (hleft : l.stage m k = .left r) (hstarted : l.started m k ≤ n) :
    l.stage m (2 * n + 1) = .left r := by
  obtain hle | hlt := Nat.lt_or_ge (2 * n + 1) k
  · -- Had iteration `n + 1` started by then, it would have been counted.
    obtain ⟨r', hr'⟩ | ⟨m', hbody⟩ := l.stage_limit m n
    · rw [l.stage_of_left hr' (Nat.le_of_lt hle)] at hleft
      exact hleft ▸ hr'
    · have hcount := (l.count_of_not_left (m := m) (k := 2 * n + 1) (by simp [hbody])).2
      have hmono : l.started m (2 * n + 1) ≤ l.started m k :=
        l.count_mono m Stage.isBody (Nat.succ_le_succ (Nat.le_of_lt hle))
      rw [started, count_succ, hcount, hbody] at hmono
      simp only [Stage.isBody, if_true] at hmono
      omega
  · exact l.stage_of_left hleft hlt

/-! ### Loops with a limit -/

/-- What a limit makes of the stage where one iteration more would start. -/
def Stage.stopped (position : Position) : Stage → Eval.Result Value
  | .left r => r
  | .guard _ m | .body m => .error (.error (.runtime position .loopLimit)) m

/-- The machines that a loop passes at a stage. -/
def Stage.passed (guard : Traced Bool) (body : Traced Value) : Stage → List Machine
  | .guard _ m => (guard m).2
  | .body m => (body m).2
  | .left _ => []

/-- The machines that a loop passes in the next `n` stages. -/
def passed (guard : Traced Bool) (body : Traced Value) (n : Nat) (stage : Stage) : List Machine :=
  (List.range n).flatMap fun k => (l.after k stage).passed guard body

/-- How a loop ends that is stopped `n` stages later, with the machines that it passes. -/
def ending (guard : Traced Bool) (body : Traced Value) (position : Position) (n : Nat)
    (stage : Stage) : Eval.Result Value × List Machine :=
  let r := (l.after n stage).stopped position
  (r, l.passed guard body n stage ++ [r.state, r.state])

section Ending
variable (guard : Traced Bool) (body : Traced Value) (position : Position)

theorem ending_succ (n : Nat) (stage : Stage) : l.ending guard body position (n + 1) stage =
    ((l.ending guard body position n (l.next stage)).1,
      stage.passed guard body ++ (l.ending guard body position n (l.next stage)).2) := by
  simp only [ending, passed, List.range_succ_eq_map, List.flatMap_cons, List.flatMap_map,
    List.append_assoc]
  rfl

theorem ending_left (n : Nat) (r : Eval.Result Value) :
    l.ending guard body position n (.left r) = (r, [r.state, r.state]) := by
  simp [ending, passed, after_left, Stage.passed, Stage.stopped]

/-- A loop with a limit goes through the stages of the loop without one. -/
theorem repeatWhile_eq_ending (limit : Nat) (last : Value) (m : Machine) :
    Traced.repeatWhile guard body position limit last m =
      ending ⟨guard.erase, body.erase⟩ guard body position (2 * limit + 1) (.guard last m) := by
  induction limit generalizing last m with
  | zero =>
    rw [Traced.repeatWhile, Nat.mul_zero, ending_succ, next]
    simp only [Traced.follow, Stage.passed, Traced.erase]
    rcases guard m with ⟨⟨_ | _, m'⟩ | ⟨_ | _ | _, m'⟩, before⟩ <;> rfl
  | succ limit ih =>
    rw [Traced.repeatWhile, Nat.mul_succ, ending_succ, next]
    simp only [Traced.follow, Stage.passed, Traced.erase]
    rcases guard m with ⟨⟨_ | _, m'⟩ | ⟨_ | _ | _, m'⟩, before⟩
    case ok.true =>
      dsimp only [EStateM.Result.state_ok]
      rw [ending_succ, next]
      simp only [Traced.follow, Stage.passed, Traced.erase]
      rcases body m' with ⟨⟨v, m''⟩ | ⟨_ | _ | _, m''⟩, during⟩
      · dsimp only [EStateM.Result.state_ok]
        rw [ih]
      all_goals
        dsimp only
        rw [ending_left]
        rfl
    all_goals
      dsimp only
      rw [ending_left]
      rfl

end Ending

end Loop

/-! ### Loops of a program -/

section Statements
variable (host : Host) (room : Nat) (guard body : Statement) (position : Position)

/-- The loop of a statement without a limit of its own. Loops inside it keep theirs. -/
def Loop.unlimited : Loop where
  guard := do truth guard.position (← guard.exec host.limits (host.serve room))
  body := inChild host.limits position (body.exec host.limits (host.serve room))

/-- The guard of the loop with the machines that it passes. -/
def Loop.guardTrace : Traced Bool := do
  .step (truth guard.position (← guard.trace host.limits (host.serveTrace room)))

/-- One iteration of the loop with the machines that it passes. -/
def Loop.bodyTrace : Traced Value :=
  .inChild host.limits position (body.trace host.limits (host.serveTrace room))

theorem Loop.unlimited_eq : Loop.unlimited host room guard body position =
    ⟨(guardTrace host room guard).erase, (bodyTrace host room body position).erase⟩ := by
  have h := lockstep_erase host.limits
  have hguard := Task.trace_erase host room (.statement guard)
  have hbody := Task.trace_erase host room (.statement body)
  have htruth : (guardTrace host room guard).erase = _ :=
    h.bind (d := 0) hguard fun v => h.step (d := 0) (.truth guard.position v)
  have hchild : (bodyTrace host room body position).erase = _ := h.inChild (d := 0) position hbody
  rw [htruth, hchild]
  rfl

theorem Loop.trace_eq (m : Machine) :
    (Task.statement (.loop guard body position)).trace host room m =
      (unlimited host room guard body position).ending (guardTrace host room guard)
        (bodyTrace host room body position) position (2 * host.limits.maxIterations + 1)
        (.guard .null m) := by
  rw [unlimited_eq, ← repeatWhile_eq_ending]
  simp only [Task.trace, Statement.trace]
  rfl

/-- **The limit of a loop is exact**, for every execution of a loop on its own. If the loop without
a limit is left with no more iterations started than the limit allows, the loop ends in the same
way, on the same machine. Otherwise it fails at its own place in front of the first iteration too
many, on the machine that the loop without a limit has there, with as many iterations done as the
limit allows and one guard more evaluated. In both cases the machines that it passes are those of
the guards and bodies up to there, and no others. -/
theorem loop_limit_exact (m : Machine) :
    let limit := host.limits.maxIterations
    let loop := Task.statement (.loop guard body position)
    let reference := Loop.unlimited host room guard body position
    let r := loop.run host room m
    (∀ k ending, reference.stage m k = .left ending → reference.started m k ≤ limit →
      r = ending) ∧
    ((∀ k ending, reference.stage m k = .left ending → limit < reference.started m k) →
      ∃ m', reference.stage m (2 * limit + 1) = .body m' ∧
        r = .error (.error (.runtime position .loopLimit)) m' ∧
        (Error.runtime position .loopLimit).message = "Exceeded loop count limit" ∧
        reference.count m Loop.Stage.isGuard (2 * limit + 1) = limit + 1 ∧
        reference.count m Loop.Stage.isBody (2 * limit + 1) = limit) ∧
    loop.trace host room m = (r, (List.range (2 * limit + 1)).flatMap (fun k =>
      (reference.stage m k).passed (Loop.guardTrace host room guard)
        (Loop.bodyTrace host room body position)) ++ [r.state, r.state]) := by
  intro limit loop reference r
  have htrace := Loop.trace_eq host room guard body position m
  have hr : r = (reference.stage m (2 * limit + 1)).stopped position := by
    have herase := congrFun (Task.trace_erase host room loop) m
    rw [Traced.erase, htrace] at herase
    exact herase.symm
  refine ⟨fun k ending hleft hstarted => ?_, fun hnever => ?_, ?_⟩
  · rw [hr, reference.stage_of_started hleft hstarted]
    rfl
  · obtain ⟨m', hbody⟩ : ∃ m', reference.stage m (2 * limit + 1) = .body m' := by
      refine (reference.stage_limit m limit).resolve_left fun hends => ?_
      obtain ⟨ending, hleft⟩ := hends
      exact absurd (hnever _ _ hleft) (Nat.not_lt.mpr (reference.started_of_left hleft))
    obtain ⟨hguards, hbodies⟩ :=
      reference.count_of_not_left (m := m) (k := 2 * limit + 1) (by simp [hbody])
    refine ⟨m', hbody, ?_, rfl, by omega, by omega⟩
    rw [hr, hbody]
    rfl
  · rw [hr]
    exact htrace

end Statements

/-! ### A loop in a loop -/

/-- The statement `name < 2`. -/
def belowTwo (name : String) : Statement :=
  .expression (.binary .less (.reference name ⟨1, 1⟩) (.constant (.integer 2) ⟨1, 1⟩) ⟨1, 1⟩)

/-- The statement `name := name + 1`. -/
def addOne (name : String) : Statement :=
  .bind .assign name (.expression
    (.binary .add (.reference name ⟨1, 1⟩) (.constant (.integer 1) ⟨1, 1⟩) ⟨1, 1⟩)) ⟨1, 1⟩

/-- The statement `{ j = 0; loop j < 2 j := j + 1; i := i + 1 }`. -/
def countTwice : Statement :=
  let zero := Statement.bind .declare "j" (.expression (.constant (.integer 0) ⟨1, 1⟩)) ⟨1, 1⟩
  .expression (.block ⟨[zero, .loop (belowTwo "j") (addOne "j") ⟨1, 1⟩, addOne "i"], ⟨1, 1⟩⟩)

/-- With a limit of two, a loop starts its two iterations although a loop inside it starts two in
each of them, and ends as it does without a limit. -/
theorem loop_limit_exact_nested :
    let host : Host := ⟨[], ⟨10, 2⟩⟩
    let m : Machine := ⟨⟨#[⟨[("i", .integer 0)], none⟩]⟩, [0], 0, #[], []⟩
    let reference := Loop.unlimited host 0 (belowTwo "i") countTwice ⟨1, 1⟩
    ∃ r, reference.stage m 5 = .left r ∧ reference.started m 5 = 2 ∧
      (Task.statement (.loop (belowTwo "i") countTwice ⟨1, 1⟩)).run host 0 m = r ∧
      (r.state.store.lookup 0 "i").map Value.display = some "2" := by
  intro host m reference
  have hstarted : reference.started m 5 = 2 := by decide +kernel
  have hfound : (match reference.stage m 5 with
      | .left r => (r.state.store.lookup 0 "i").map Value.display
      | _ => none) = some "2" := by decide +kernel
  cases hstage : reference.stage m 5 with
  | left r =>
    rw [hstage] at hfound
    obtain ⟨hsame, _, _⟩ :=
      loop_limit_exact host 0 (belowTwo "i") countTwice ⟨1, 1⟩ m
    exact ⟨r, rfl, hstarted, hsame 5 r hstage (Nat.le_of_eq hstarted), hfound⟩
  | _ =>
    rw [hstage] at hfound
    cases hfound

end Lumen
