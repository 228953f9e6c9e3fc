import Lumen.Proofs.Parser.Batch
import Lumen.Proofs.SideBySide
import Lumen.Proofs.Syntax.Alike
import Lumen.Proofs.Token.Words

/-! Reading tokens that say the same.

The grammar looks at the kinds and the values of tokens and hands their places on, into trees and
complaints. So two lists of tokens with the same words are read to trees that are alike, or to
complaints with the same cause (`parseTokens_alike`). Each production is read side by side with
itself, on two cursors whose tokens say the same. -/
namespace Lumen
open Parse
open Token (Kind)

/-- Tokens that say the same, at places that `P` relates. -/
structure Token.Alike (P : Position → Position → Prop) (t t' : Token) : Prop where
  word : t.word = t'.word
  position : P t.position t'.position

namespace Token.Alike
variable {P : Position → Position → Prop} {t t' : Token}

theorem kind (h : t.Alike P t') : t.kind = t'.kind := congrArg Word.kind h.word

theorem value (h : t.Alike P t') : t.value = t'.value := congrArg Word.value h.word

theorem words (h : t.Alike P t') : t.words = t'.words := by
  rw [Token.words, Token.words, h.value]

end Token.Alike

/-- Streams that give the same one by one, tokens that say the same or failures with the same
cause. -/
structure Token.Stream.Alike (P : Position → Position → Prop) (s s' : Token.Stream) : Prop where
  pending : List.Forall₂ (Except.Alike (Error.Alike P) (Token.Alike P)) s.pending s'.pending
  finish : P s.finish s'.finish

/-- Cursors whose tokens say the same one by one, those looked at and those still to come. -/
structure Cursor.Alike (P : Position → Position → Prop) (c c' : Cursor) : Prop where
  ahead : List.Forall₂ (Token.Alike P) c.ahead c'.ahead
  stream : c.stream.Alike P c'.stream

namespace Parse
variable {P : Position → Position → Prop} {α β : Type}

/-- The readings do the same on cursors that are alike. -/
abbrev Alike (P : Position → Position → Prop) (Q : α → α → Prop) : Parse α → Parse α → Prop :=
  EStateM.Alike (Cursor.Alike P) (Error.Alike P) Q

/-! ### Tokens -/

/-- Comments are passed over on both sides. -/
theorem alike_pullFrom {finish finish' : Position} (hfinish : P finish finish')
    {pending pending' : List (Except Error Token)}
    (h : List.Forall₂ (Except.Alike (Error.Alike P) (Token.Alike P)) pending pending') :
    (Token.Stream.pullFrom finish pending).1.Alike (Error.Alike P) (Token.Alike P)
        (Token.Stream.pullFrom finish' pending').1 ∧
      List.Forall₂ (Except.Alike (Error.Alike P) (Token.Alike P))
        (Token.Stream.pullFrom finish pending).2 (Token.Stream.pullFrom finish' pending').2 := by
  induction h with
  | nil => exact ⟨.ok ⟨rfl, hfinish⟩, .nil⟩
  | cons hr hrest ih =>
    cases hr with
    | error he => exact ⟨.error he, hrest⟩
    | ok ht =>
      rw [Token.Stream.pullFrom, Token.Stream.pullFrom, ht.kind]
      split
      · exact ih
      · exact ⟨.ok ht, hrest⟩

theorem alike_pull : Alike P (Token.Alike P) pull pull := by
  intro c c' h
  obtain ⟨hfirst, hrest⟩ := alike_pullFrom h.stream.finish h.stream.pending
  simp only [pull_eq, Token.Stream.pull]
  generalize Token.Stream.pullFrom c.stream.finish c.stream.pending = r at hfirst hrest
  generalize Token.Stream.pullFrom c'.stream.finish c'.stream.pending = r' at hfirst hrest
  obtain ⟨first, rest⟩ := r
  obtain ⟨first', rest'⟩ := r'
  cases hfirst with
  | ok ht => exact .ok ht ⟨h.ahead, hrest, h.stream.finish⟩
  | error he => exact .error he ⟨h.ahead, hrest, h.stream.finish⟩

theorem alike_lookFurther (count : Nat) : Alike P Eq (lookFurther count) (lookFurther count) := by
  induction count with
  | zero => exact .pure rfl
  | succ count ih =>
    refine .bind alike_pull fun t t' ht => .bind_of_eq ?_ fun _ => ih
    intro c c' h
    exact .ok rfl ⟨List.rel_append h.ahead (.cons ht .nil), h.stream⟩

theorem alike_get : Alike P (Cursor.Alike P) get get := fun _ _ h => .ok h h

theorem alike_getD {ts ts' : List Token} {t t' : Token}
    (h : List.Forall₂ (Token.Alike P) ts ts') (ht : t.Alike P t') (n : Nat) :
    (ts.getD n t).Alike P (ts'.getD n t') := by
  induction h generalizing n with
  | nil => exact ht
  | cons hu _ ih =>
    cases n with
    | zero => exact hu
    | succ n => exact ih n

theorem alike_peek (n : Nat) : Alike P (Token.Alike P) (peek n) (peek n) := by
  refine .bind alike_get fun c c' h => ?_
  rw [h.ahead.length_eq]
  refine .bind (alike_lookFurther _) fun _ _ _ => .bind alike_get fun c c' h => .pure ?_
  have hend : (Token.endAt c.stream.finish).Alike P (.endAt c'.stream.finish) :=
    ⟨rfl, h.stream.finish⟩
  exact alike_getD h.ahead hend n

theorem alike_peekKind (n : Nat) : Alike P Eq (peekKind n) (peekKind n) :=
  .bind (alike_peek n) fun _ _ ht => .pure ht.kind

theorem alike_advance : Alike P (Token.Alike P) advance advance := by
  intro c c' h
  obtain ⟨ahead, stream⟩ := c
  obtain ⟨ahead', stream'⟩ := c'
  cases h.ahead with
  | nil => exact alike_pull _ _ h
  | cons ht hrest => exact .ok ht ⟨hrest, h.stream⟩

theorem alike_complain {Q : α → α → Prop} (cause : ParseCause) :
    Alike P Q (peek 0 >>= fun t => throw (.parse t.position cause))
      (peek 0 >>= fun t => throw (.parse t.position cause)) :=
  .bind (alike_peek 0) fun _ _ ht => .throw (.parse cause ht.position)

theorem alike_unexpected {Q : α → α → Prop} (what : Expectation) :
    Alike P Q (unexpected what) (unexpected what) :=
  .bind (alike_peek 0) fun t t' ht => .throw (by rw [ht.kind]; exact .parse _ ht.position)

theorem alike_expect (kind : Kind) (what : Expectation) :
    Alike P (Token.Alike P) (expect kind what) (expect kind what) := by
  refine .bind_of_eq (alike_peekKind 0) fun k => ?_
  split
  · exact alike_advance
  · exact alike_unexpected what

theorem alike_skip (kind : Kind) : Alike P Eq (skip kind) (skip kind) := by
  refine .bind_of_eq (alike_peekKind 0) fun k => ?_
  split
  · exact .bind alike_advance fun _ _ _ => .pure rfl
  · exact .pure rfl

/-! ### Repetition -/

inductive Progress.Alike (Q : α → α → Prop) (R : β → β → Prop) :
    Progress α β → Progress α β → Prop
  | more {a a' : α} : Q a a' → Alike Q R (.more a) (.more a')
  | done {b b' : β} : R b b' → Alike Q R (.done b) (.done b')

section Repetition
variable {Q : α → α → Prop} {R : β → β → Prop} {giveUp : α → β}
  {step : α → Parse (Progress α β)} (hgive : ∀ a a', Q a a' → R (giveUp a) (giveUp a'))
  (hstep : ∀ a a', Q a a' → Alike P (Progress.Alike Q R) (step a) (step a'))
include hgive hstep

theorem alike_repeatUpTo (limit : Nat) {a a' : α} (ha : Q a a') :
    Alike P R (repeatUpTo giveUp step limit a) (repeatUpTo giveUp step limit a') := by
  induction limit generalizing a a' with
  | zero => exact .pure (hgive a a' ha)
  | succ limit ih =>
    refine .bind (hstep a a' ha) fun p p' hp => ?_
    cases hp with
    | more ha => exact ih ha
    | done hb => exact .pure hb

theorem alike_iterate {a a' : α} (ha : Q a a') :
    Alike P R (iterate giveUp step a) (iterate giveUp step a') := by
  refine .bind alike_get fun c c' h => ?_
  have hsize : c.size = c'.size := by
    rw [Cursor.size, Cursor.size, h.ahead.length_eq, h.stream.pending.length_eq]
  rw [hsize]
  exact alike_repeatUpTo hgive hstep _ ha

end Repetition

end Parse

/-! ### Productions -/

namespace Grammar
variable {P : Position → Position → Prop}

/-- The nested parts are read alike where the tokens are. -/
structure Layers.Alike (P : Position → Position → Prop) (sub : Layers) : Prop where
  statement : Parse.Alike P (Statement.Alike P) sub.statement sub.statement
  expression : Parse.Alike P (Expression.Alike P) sub.expression sub.expression
  unary : Parse.Alike P (Expression.Alike P) sub.unary sub.unary

section Productions
variable {sub : Layers} (h : sub.Alike P)
include h

theorem alike_sequence (closer : Kind) (lastNeedsSeparator : Bool) :
    Parse.Alike P (List.Forall₂ (Statement.Alike P)) (sequence sub closer lastNeedsSeparator)
      (sequence sub closer lastNeedsSeparator) := by
  refine alike_iterate (fun _ _ hss => hss) (fun ss ss' hss => ?_) .nil
  refine .bind_of_eq (alike_peekKind 0) fun k => ?_
  split
  · exact .pure (.done hss)
  · refine .bind h.statement fun s s' hs => .bind_of_eq (alike_peekKind 0) fun k => ?_
    have hmore := List.rel_append hss (.cons hs .nil)
    split
    · exact .bind alike_advance fun _ _ _ => .pure (.more hmore)
    · split
      · exact .pure (.done hmore)
      · exact alike_complain .missingSeparator

theorem alike_bindStatement (binding : Binding) :
    Parse.Alike P (Statement.Alike P) (bindStatement sub binding) (bindStatement sub binding) := by
  refine .bind alike_advance fun t t' ht => .bind alike_advance fun _ _ _ =>
    .bind h.statement fun s s' hs => .pure ?_
  rw [ht.words]
  exact .bind binding _ hs ht.position

theorem alike_branch : Parse.Alike P (Branch.Alike P) (branch sub) (branch sub) :=
  .bind h.statement fun _ _ hguard => .bind h.statement fun _ _ hbody => .pure (.mk hguard hbody)

/-- Branches that are alike, with alternatives that are. -/
def AlikeBranches (P : Position → Position → Prop) (bs bs' : List Branch × Option Statement) :
    Prop :=
  List.Forall₂ (Branch.Alike P) bs.1 bs'.1 ∧ Option.Rel (Statement.Alike P) bs.2 bs'.2

theorem alike_furtherBranches {first first' : Branch} (hfirst : first.Alike P first') :
    Parse.Alike P (AlikeBranches P) (furtherBranches sub first) (furtherBranches sub first') := by
  refine alike_iterate (fun _ _ hbs => ⟨hbs, .none⟩) (fun bs bs' hbs => ?_) (.cons hfirst .nil)
  refine .bind_of_eq (alike_peekKind 0) fun k => ?_
  split
  · refine .bind alike_advance fun _ _ _ => .bind_of_eq (alike_peekKind 0) fun k => ?_
    split
    · exact .bind alike_advance fun _ _ _ => .bind (alike_branch h) fun b b' hb =>
        .pure (.more (List.rel_append hbs (.cons hb .nil)))
    · exact .bind h.statement fun s s' hs => .pure (.done ⟨hbs, .some hs⟩)
  · exact .pure (.done ⟨hbs, .none⟩)

theorem alike_condition : Parse.Alike P (Statement.Alike P) (condition sub) (condition sub) :=
  .bind (alike_expect _ _) fun _ _ hword => .bind (alike_branch h) fun _ _ hfirst =>
    .bind (alike_furtherBranches h hfirst) fun _ _ hbs =>
      .pure (.condition hbs.1 hbs.2 hword.position)

theorem alike_loop : Parse.Alike P (Statement.Alike P) (loop sub) (loop sub) :=
  .bind (alike_expect _ _) fun _ _ hword => .bind h.statement fun _ _ hguard =>
    .bind h.statement fun _ _ hbody => .pure (.loop hguard hbody hword.position)

theorem alike_breakOut : Parse.Alike P (Statement.Alike P) (breakOut sub) (breakOut sub) := by
  refine .bind (alike_expect _ _) fun _ _ hword => .bind_of_eq (alike_peekKind 0) fun k => ?_
  split
  · exact .pure (.breakOut .none hword.position)
  · exact .bind h.statement fun _ _ hs => .pure (.breakOut (.some hs) hword.position)

theorem alike_statement : Parse.Alike P (Statement.Alike P) (statement sub) (statement sub) := by
  have hexpression := h.expression.bind fun e e' he =>
    EStateM.Alike.pure (S := Cursor.Alike P) (E := Error.Alike P) (Statement.Alike.expression he)
  refine .bind_of_eq (alike_peekKind 0) fun k => ?_
  split
  · exact alike_condition h
  · exact alike_loop h
  · exact alike_breakOut h
  · refine .bind_of_eq (alike_peekKind 1) fun k => ?_
    split
    · exact alike_bindStatement h _
    · exact hexpression
  · exact hexpression

theorem alike_block : Parse.Alike P (Block.Alike P) (block sub) (block sub) :=
  .bind (alike_expect _ _) fun _ _ hbrace => .bind (alike_sequence h _ _) fun _ _ hss =>
    .bind (alike_expect _ _) fun _ _ _ => .pure (.mk hss hbrace.position)

omit h in
theorem alike_parametersAhead : Parse.Alike P Eq parametersAhead parametersAhead := by
  refine alike_iterate (Q := Eq) (fun _ _ _ => rfl) (fun index index' hindex => ?_) rfl
  subst hindex
  refine .bind_of_eq (alike_peekKind _) fun k => ?_
  split
  · refine .bind_of_eq (alike_peekKind _) fun k => ?_
    split
    · exact .pure (.more rfl)
    · exact .bind_of_eq (alike_peekKind _) fun k => .pure (.done rfl)
    · exact .pure (.done rfl)
  · exact .pure (.done rfl)

omit h in
theorem alike_lambdaAhead : Parse.Alike P Eq lambdaAhead lambdaAhead := by
  refine .bind_of_eq (alike_peekKind 1) fun k => ?_
  split
  · exact .bind_of_eq (alike_peekKind 2) fun k => .pure rfl
  · exact alike_parametersAhead

omit h in
theorem alike_parameters : Parse.Alike P Eq parameters parameters := by
  refine alike_iterate (Q := Eq) (fun _ _ hnames => hnames) (fun names names' hnames => ?_) rfl
  subst hnames
  refine .bind_of_eq (alike_peekKind 0) fun k => ?_
  split
  · exact .pure (.done rfl)
  · refine .bind (alike_expect _ _) fun t t' ht => .bind (alike_skip _) fun _ _ _ => .pure ?_
    rw [ht.words]
    exact .more rfl

theorem alike_lambda : Parse.Alike P (Expression.Alike P) (lambda sub) (lambda sub) :=
  .bind (alike_expect _ _) fun _ _ hparen => .bind_of_eq alike_parameters fun names =>
    .bind (alike_expect _ _) fun _ _ _ => .bind (alike_expect _ _) fun _ _ _ =>
      .bind h.statement fun _ _ hbody => .pure (.lambda (.mk names hbody hparen.position))

theorem alike_group : Parse.Alike P (Expression.Alike P) (group sub) (group sub) :=
  .bind alike_advance fun _ _ _ => .bind h.expression fun _ _ he =>
    .bind (alike_expect _ _) fun _ _ _ => .pure he

omit h in
theorem alike_constant : Parse.Alike P (Expression.Alike P) constant constant := by
  refine .bind alike_advance fun t t' ht => .pure ?_
  rw [ht.value]
  exact .constant _ ht.position

omit h in
theorem alike_reference : Parse.Alike P (Expression.Alike P) reference reference := by
  refine .bind alike_advance fun t t' ht => .pure ?_
  rw [ht.words]
  exact .reference _ ht.position

theorem alike_factor : Parse.Alike P (Expression.Alike P) (factor sub) (factor sub) := by
  refine .bind_of_eq (alike_peekKind 0) fun k => ?_
  split
  · exact alike_constant
  · exact alike_constant
  · exact alike_constant
  · exact alike_constant
  · exact alike_reference
  · exact .bind (alike_block h) fun _ _ hb => .pure (.block hb)
  · refine .bind_of_eq alike_lambdaAhead fun b => ?_
    split
    · exact alike_lambda h
    · exact alike_group h
  · exact alike_unexpected .expression

/-! ### Calls, signs and chains -/

theorem alike_arguments : Parse.Alike P (List.Forall₂ (Expression.Alike P)) (arguments sub)
    (arguments sub) := by
  refine .bind_of_eq (alike_peekKind 0) fun k => ?_
  split
  · exact .pure .nil
  · refine alike_iterate (fun _ _ hes => hes) (fun es es' hes => ?_) .nil
    refine .bind h.expression fun e e' he => .bind_of_eq (alike_peekKind 0) fun k => ?_
    have hmore := List.rel_append hes (.cons he .nil)
    split
    · exact .bind alike_advance fun _ _ _ => .pure (.more hmore)
    · exact .pure (.done hmore)

theorem alike_call : Parse.Alike P (Expression.Alike P) (call sub) (call sub) := by
  refine .bind (alike_factor h) fun first first' hfirst => ?_
  refine alike_iterate (fun _ _ he => he) (fun e e' he => ?_) hfirst
  refine .bind_of_eq (alike_peekKind 0) fun k => ?_
  split
  · exact .bind alike_advance fun _ _ hparen => .bind (alike_arguments h) fun _ _ hgiven =>
      .bind (alike_expect _ _) fun _ _ _ => .pure (.more (.call he hgiven hparen.position))
  · exact .pure (.done he)

theorem alike_unary : Parse.Alike P (Expression.Alike P) (unary sub) (unary sub) := by
  refine .bind_of_eq (alike_peekKind 0) fun k => ?_
  split
  · exact .bind alike_advance fun _ _ hsign => .bind h.unary fun _ _ he =>
      .pure (.negate he hsign.position)
  · exact alike_call h

omit h in
theorem alike_leftChain (operator? : Kind → Option Operator) {operand : Parse Expression}
    (hoperand : Parse.Alike P (Expression.Alike P) operand operand) :
    Parse.Alike P (Expression.Alike P) (leftChain operator? operand)
      (leftChain operator? operand) := by
  refine .bind hoperand fun first first' hfirst => ?_
  refine alike_iterate (fun _ _ he => he) (fun left left' hleft => ?_) hfirst
  refine .bind_of_eq (alike_peekKind 0) fun k => ?_
  split
  · exact .pure (.done hleft)
  · exact .bind alike_advance fun _ _ hsign => .bind hoperand fun _ _ hright =>
      .pure (.more (.binary _ hleft hright hsign.position))

theorem alike_coalescing :
    Parse.Alike P (Expression.Alike P) (coalescing sub) (coalescing sub) :=
  alike_leftChain _ (alike_leftChain _ (alike_leftChain _ (alike_unary h)))

theorem alike_comparison :
    Parse.Alike P (Expression.Alike P) (comparison sub) (comparison sub) := by
  refine .bind (alike_coalescing h) fun left left' hleft =>
    .bind_of_eq (alike_peekKind 0) fun k => ?_
  split
  · exact .pure hleft
  · exact .bind alike_advance fun _ _ hsign => .bind (alike_coalescing h) fun _ _ hright =>
      .pure (.binary _ hleft hright hsign.position)

theorem alike_disjunction :
    Parse.Alike P (Expression.Alike P) (disjunction sub) (disjunction sub) :=
  alike_leftChain _ (alike_leftChain _ (alike_comparison h))

/-! ### Nesting -/

theorem alike_program : Parse.Alike P (Block.Alike P) (program sub) (program sub) :=
  .bind (alike_peek 0) fun _ _ hfirst => .bind (alike_sequence h _ _) fun _ _ hss =>
    .pure (.mk hss hfirst.position)

end Productions

theorem alike_layers (n : Nat) : (layers n).Alike P := by
  induction n with
  | zero => exact ⟨alike_complain _, alike_complain _, alike_complain _⟩
  | succ n ih => exact ⟨alike_statement ih, alike_disjunction ih, alike_unary ih⟩

end Grammar

/-! ### Programs -/

theorem Cursor.ofTokens_alike {P : Position → Position → Prop} {ts ts' : List Token}
    (h : List.Forall₂ (Token.Alike P) ts ts') (hstart : ts = [] → P .start .start) :
    (Cursor.ofTokens ts).Alike P (.ofTokens ts') := by
  refine ⟨h, .nil, ?_⟩
  have hreverse := List.forall₂_reverse_iff.mpr h
  rw [← List.reverse_eq_nil_iff] at hstart
  simp only [Cursor.ofTokens, ← List.head?_reverse]
  generalize ts.reverse = us, ts'.reverse = us' at hreverse hstart
  cases hreverse with
  | nil => exact hstart rfl
  | cons ht _ => exact ht.position

/-- **The words of a program make its tree.** Tokens that say the same, one by one, are read to
trees that are alike, or to complaints that are. -/
theorem parseTokens_alike {P : Position → Position → Prop} {ts ts' : List Token}
    (h : List.Forall₂ (Token.Alike P) ts ts') (hstart : ts = [] → P .start .start) :
    (parseTokens ts).Alike (Error.Alike P) (Block.Alike P) (parseTokens ts') := by
  have hresult := Grammar.alike_program (Grammar.alike_layers Parser.maxNesting) _ _
    (Cursor.ofTokens_alike h hstart)
  unfold parseTokens Parser.program outcome
  generalize Grammar.program _ (Cursor.ofTokens ts) = r at hresult ⊢
  generalize Grammar.program _ (Cursor.ofTokens ts') = r' at hresult ⊢
  cases hresult with
  | ok hb _ => exact .ok hb
  | error he _ => exact .error he

end Lumen
