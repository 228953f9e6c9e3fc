import Lumen.Proofs.Parser.Reads

/-! Conditions, loops and functions that are read as they stand.

Their last parts are open to the right, and so is a guard in front of its body. They are read
where each part is an expression, in front of a token that does not go on with it: a guard in
front of a brace, a body in braces in front of an `else` or the end of the statement, the body
of a function in front of whatever stops an expression. A function is a factor, but only one
that stands on its own (`reads_disjunction_alone`). -/
namespace Lumen
open Parse Phrase
open Token (Kind)

namespace Grammar
variable {sub : Layers} {ts us : List Token} {t u : Token}

/-! ### Conditions and loops -/

/-- Tokens that begin with a brace. -/
def Braced (ts : List Token) : Prop := ∃ t us, ts = t :: us ∧ t.kind = .braceOpen

theorem runs_guarded {guard body : Statement} {Stops : Kind → Prop}
    (hguard : Parse.Reads sub.statement Begins (·.layer < 1) ts guard)
    (hbody : Parse.Reads sub.statement Braced Stops us body) {v : View} (ht : v.look 0 = .ok t)
    (hstop : Stops t.kind) :
    Runs sub.statement ((ts ++ us) ++ v) (.ok (guard, us ++ v)) ∧
      Runs sub.statement (us ++ v) (.ok (body, v)) := by
  have hruns := hbody.runs v t ht hstop
  obtain ⟨brace, ws, rfl, hbrace⟩ := hbody.start
  rw [← View.append_append]
  exact ⟨hguard.runs _ brace rfl (by rw [hbrace]; decide), hruns⟩

theorem reads_loop {guard body : Statement} {Stops : Kind → Prop} (ht : t.kind = .loopWord)
    (hguard : Parse.Reads sub.statement Begins (·.layer < 1) ts guard)
    (hbody : Parse.Reads sub.statement Braced Stops us body) :
    Parse.Reads (statement sub) Begins Stops (t :: ts ++ us) (.loop guard body t.position) := by
  refine ⟨⟨t, ts ++ us, rfl, by rw [ht]; rfl⟩, fun v w hw hstop => ?_⟩
  obtain ⟨hguard, hbody⟩ := runs_guarded hguard hbody hw hstop
  refine (Runs.peekKind (View.look_cons_zero t _ v)).bind ?_
  rw [ht]
  exact (Runs.expect ht _ _ v).bind (hguard.bind (hbody.bind (.pure _ _)))

theorem reads_branch {guard body : Statement}
    (hguard : Parse.Reads sub.statement Begins (·.layer < 1) ts guard)
    (hbody : Parse.Reads sub.statement Braced (·.layer < 1) us body) :
    Parse.Reads (branch sub) (fun _ => True) (·.layer < 1) (ts ++ us) ⟨guard, body⟩ := by
  refine ⟨trivial, fun v w hw hstop => ?_⟩
  obtain ⟨hguard, hbody⟩ := runs_guarded hguard hbody hw hstop
  exact hguard.bind (hbody.bind (.pure _ _))

/-- Reads a further branch of a condition. -/
def nextBranch (sub : Layers) (branches : List Branch) :
    Parse (Progress (List Branch) (List Branch × Option Statement)) := do
  if (← peekKind 0) = .elseWord then
    let _ ← advance
    if (← peekKind 0) = .ifWord then
      let _ ← advance
      return .more (branches ++ [← branch sub])
    else
      return .done (branches, some (← sub.statement))
  else
    return .done (branches, none)

theorem furtherBranches_eq (first : Branch) : furtherBranches sub first =
    iterate (fun branches => (branches, none)) (nextBranch sub) [first] := rfl

section
variable {B : Phrase Branch} {S : Phrase Statement} {found : List Branch × Option Statement} {v : View}

/-- Behind a branch there is an `else`, or what is behind the condition. -/
theorem look_alternatives (h : Alternatives B S ts found) (ht : v.look 0 = .ok t)
    (hlayer : t.kind.layer < 1) : ∃ w, (ts ++ v).look 0 = .ok w ∧ w.kind.layer < 1 := by
  cases h with
  | none => exact ⟨t, ht, hlayer⟩
  | @otherwise _ w _ hw _ => exact ⟨w, rfl, by rw [hw]; decide⟩
  | @elseIf _ _ w _ _ _ _ hw _ _ _ => exact ⟨w, rfl, by rw [hw]; decide⟩

end

theorem loops_alternatives {found : List Branch × Option Statement}
    (h : Alternatives (Parse.Reads (branch sub) (fun _ => True) (·.layer < 1))
      (Parse.Reads sub.statement Braced (·.layer < 1)) ts found) {v : View} (ht : v.look 0 = .ok t)
    (hlayer : t.kind.layer < 1) (helse : t.kind ≠ .elseWord) (read : List Branch) :
    Loops (fun branches => (branches, none)) (nextBranch sub) ts.length read (ts ++ v)
      (.ok ((read ++ found.1, found.2), v)) := by
  induction h generalizing read with
  | none =>
    refine .done ((Runs.peekKind ht).bind ?_)
    rw [if_neg helse, List.append_nil]
    exact .pure _ _
  | @otherwise ts word s hword hs =>
    have hruns := hs.runs v t ht hlayer
    obtain ⟨brace, ws, rfl, hbrace⟩ := hs.start
    refine .done ((Runs.peekKind (View.look_cons_zero word _ v)).bind ?_)
    rw [if_pos hword, List.append_nil]
    refine (Runs.advance word _ v).bind ((Runs.peekKind (View.look_cons_zero brace ws v)).bind ?_)
    rw [if_neg (by rw [hbrace]; decide)]
    exact hruns.bind (.pure _ _)
  | @elseIf ts us word next b bs otherwise hword hnext hb hbs ih =>
    have hrest := ih (read ++ [b])
    rw [List.append_assoc] at hrest
    obtain ⟨w, hw, hstop⟩ := look_alternatives hbs ht hlayer
    have hbranch := hb.runs (us ++ v) w hw hstop
    rw [View.append_append] at hbranch
    refine (hrest.more ((Runs.peekKind (View.look_cons_zero word _ v)).bind ?_)).mono (by simp; omega)
    rw [if_pos hword]
    refine (Runs.advance word _ v).bind ((Runs.peekKind (View.look_cons_zero next _ v)).bind ?_)
    rw [if_pos hnext]
    exact (Runs.advance next _ v).bind (hbranch.bind (.pure _ _))

theorem reads_condition {b : Branch} {bs : List Branch} {otherwise : Option Statement}
    (ht : t.kind = .ifWord) (hb : Parse.Reads (branch sub) (fun _ => True) (·.layer < 1) ts b)
    (hbs : Alternatives (Parse.Reads (branch sub) (fun _ => True) (·.layer < 1))
      (Parse.Reads sub.statement Braced (·.layer < 1)) us (bs, otherwise)) :
    Parse.Reads (statement sub) Begins Kind.EndsStatement (t :: ts ++ us)
      (.condition (b :: bs) otherwise t.position) := by
  refine ⟨⟨t, ts ++ us, rfl, by rw [ht]; rfl⟩, fun v w hw hstop => ?_⟩
  have helse : w.kind ≠ .elseWord := by obtain h | h := hstop <;> rw [h] <;> decide
  obtain ⟨w', hw', hstop'⟩ := look_alternatives hbs hw hstop.layer_lt
  have hfirst := hb.runs (us ++ v) w' hw' hstop'
  rw [View.append_append] at hfirst
  have hfurther := (loops_alternatives hbs hw hstop.layer_lt helse [b]).runs (by simp)
  rw [← furtherBranches_eq] at hfurther
  refine (Runs.peekKind (View.look_cons_zero t _ v)).bind ?_
  rw [ht]
  exact (Runs.expect ht _ _ v).bind (hfirst.bind (hfurther.bind (.pure _ _)))

/-- A function is read in front of all that stops its body. -/
theorem reads_lambda {arrow : Token} {names : List String} {body : Statement} {Stops : Kind → Prop}
    (ht : t.kind = .parenOpen) (hnames : Listed Name ts names) (hu : u.kind = .parenClose)
    (harrow : arrow.kind = .arrow) (hbody : Parse.Reads sub.statement Begins Stops us body) :
    Parse.Reads (factor sub) (Opens Kind.startsFactor) Stops (t :: ts ++ u :: arrow :: us)
      (.lambda ⟨names, body, t.position⟩) := by
  refine ⟨.cons (by rw [ht]; rfl) (by rw [ht]; decide) _, fun v w hw hstop => ?_⟩
  have hahead := runs_lambdaAhead hnames hu harrow t (us ++ v)
  have hparameters := runs_parameters hnames hu ((arrow :: us) ++ v)
  simp only [View.append_append, List.append_assoc, List.cons_append, List.nil_append]
    at hahead hparameters ⊢
  refine (Runs.peekKind (View.look_cons_zero t _ v)).bind ?_
  rw [ht]
  refine hahead.bind ((Runs.expect ht _ _ v).bind (hparameters.bind ?_))
  exact (Runs.expect hu _ _ v).bind ((Runs.expect harrow _ us v).bind
    ((hbody.runs v w hw hstop).bind (.pure _ _)))

/-! ### Factors on their own -/

section
variable {e : Expression}

theorem reads_leftChain_alone {operator? : Kind → Option Operator} {operand : Parse Expression}
    {l : Nat} (h : Parse.Reads operand (Opens Kind.startsOperand) (·.layer < 1) ts e)
    (hlayer : ∀ k, (operator? k).isSome → k.layer = l) (hl : 0 < l) :
    Parse.Reads (leftChain operator? operand) (Opens Kind.startsOperand) (·.layer < 1) ts e := by
  refine ⟨h.start, fun v t ht hstop => ?_⟩
  have hnone : operator? t.kind = none := Kind.operator?_of_layer_ne hlayer (by omega)
  rw [leftChain_eq]
  exact (h.runs v t ht hstop).bind ((loops_leftChain_end ht hnone e).runs (Nat.zero_le _))

theorem reads_unary_alone
    (h : Parse.Reads (factor sub) (Opens Kind.startsFactor) (·.layer < 1) ts e) :
    Parse.Reads (unary sub) (Opens Kind.startsOperand) (·.layer < 1) ts e := by
  refine ⟨h.start.mono Kind.startsOperand_of_startsFactor, fun v t ht hstop => ?_⟩
  have hcall : Runs (call sub) (ts ++ v) (.ok (e, v)) := by
    rw [call_eq]
    exact (h.runs v t ht hstop).bind
      ((loops_call_end ht (by omega) e).runs (Nat.zero_le _))
  obtain ⟨first, us, rfl, hfirst, _⟩ := h.start
  refine (Runs.peekKind (View.look_cons_zero first us v)).bind ?_
  rw [if_neg (by intro hk; rw [hk] at hfirst; cases hfirst)]
  exact hcall

/-- A factor that no operator and no call follows is an expression. -/
theorem reads_disjunction_alone
    (h : Parse.Reads (factor sub) (Opens Kind.startsFactor) (·.layer < 1) ts e) :
    Parse.Reads (disjunction sub) (Opens Kind.startsOperand) (·.layer < 1) ts e := by
  have hproduct : Parse.Reads (multiplicative sub) (Opens Kind.startsOperand) (·.layer < 1) ts e :=
    reads_leftChain_alone (reads_unary_alone h) Kind.layer_of_multiplicative (by decide)
  have hsum : Parse.Reads (additive sub) (Opens Kind.startsOperand) (·.layer < 1) ts e :=
    reads_leftChain_alone hproduct Kind.layer_of_additive (by decide)
  have hcoalescing : Parse.Reads (coalescing sub) (Opens Kind.startsOperand) (·.layer < 1) ts e :=
    reads_leftChain_alone hsum Kind.layer_of_coalescing (by decide)
  have hcomparison : Parse.Reads (comparison sub) (Opens Kind.startsOperand) (·.layer < 1) ts e := by
    refine ⟨hcoalescing.start, fun v t ht hstop => ?_⟩
    refine (hcoalescing.runs v t ht hstop).bind ((Runs.peekKind ht).bind ?_)
    rw [Kind.operator?_of_layer_ne Kind.layer_of_comparison (by omega)]
    exact .pure _ _
  have hconjunction : Parse.Reads (conjunction sub) (Opens Kind.startsOperand) (·.layer < 1) ts e :=
    reads_leftChain_alone hcomparison Kind.layer_of_and (by decide)
  exact reads_leftChain_alone hconjunction Kind.layer_of_or (by decide)

end

end Grammar

end Lumen
