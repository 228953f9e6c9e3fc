import Lumen.Parser
import Lumen.Proofs.Parser.View

/-! Reading with more levels of nesting.

The limit on nesting is a guard and nothing else: with more levels, a reading either gets further
than the limit let it, or it does what it did before, on the same cursor and with the same tokens
looked at (`Deepens`). That is handed from the nested parts to every production.

Where there is no level left, the next token is looked at before the limit is blamed. A reading
with more levels begins with that token as well (`Starts`), so a failure of the lexer at this
point is met by both. -/
namespace Lumen
open Parse
open Token (Kind)

namespace Parse
variable {α β : Type} {m m' : Parse α}

/-- From every cursor, `m` fails because of the limit on nesting or does what `m'` does. -/
def Deepens (m m' : Parse α) : Prop :=
  ∀ c, (∃ p c', m c = .error (.parse p .nestingLimit) c') ∨ m c = m' c

namespace Deepens

theorem refl (m : Parse α) : Deepens m m := fun _ => .inr rfl

theorem bind {f f' : α → Parse β} (hm : Deepens m m') (hf : ∀ a, Deepens (f a) (f' a)) :
    Deepens (m >>= f) (m' >>= f') := by
  intro c
  rw [bind_eq, bind_eq]
  obtain ⟨p, c', hlimit⟩ | hsame := hm c
  · rw [hlimit]
    exact .inl ⟨p, c', rfl⟩
  · rw [← hsame]
    cases m c with
    | ok a c' => exact hf a c'
    | error e c' => exact .inr rfl

/-- What comes first is the same. -/
theorem after (m : Parse α) {f f' : α → Parse β} (hf : ∀ a, Deepens (f a) (f' a)) :
    Deepens (m >>= f) (m >>= f') := bind (refl m) hf

/-- What comes last is the same. -/
theorem before (hm : Deepens m m') (f : α → Parse β) : Deepens (m >>= f) (m' >>= f) :=
  bind hm fun a => refl (f a)

section Repetition
variable {giveUp : α → β} {step step' : α → Parse (Progress α β)}
  (hstep : ∀ a, Deepens (step a) (step' a))
include hstep

theorem repeatUpTo (limit : Nat) (a : α) :
    Deepens (repeatUpTo giveUp step limit a) (repeatUpTo giveUp step' limit a) := by
  induction limit generalizing a with
  | zero => exact refl _
  | succ limit ih =>
    refine bind (hstep a) fun next => ?_
    cases next with
    | more a => exact ih a
    | done b => exact refl _

theorem iterate (a : α) : Deepens (iterate giveUp step a) (iterate giveUp step' a) :=
  after _ fun c => repeatUpTo hstep (c.size + 1) a

end Repetition

end Deepens

/-- What keeps the next token from being looked at keeps `m` from being read. -/
def Starts (m : Parse α) : Prop := ∀ c e c', peek 0 c = .error e c' → m c = .error e c'

namespace Starts

theorem peek : Starts (peek 0) := fun _ _ _ h => h

theorem bind (h : Starts m) (f : α → Parse β) : Starts (m >>= f) := by
  intro c e c' hpeek
  rw [bind_eq, h c e c' hpeek]

theorem peekKind : Starts (peekKind 0) := peek.bind _

end Starts

end Parse

namespace Grammar

theorem starts_tooDeep {α : Type} : Starts (tooDeep : Parse α) := Starts.peek.bind _

/-- With no level left, a nested part fails because of the limit, unless the lexer fails first. -/
theorem deepens_tooDeep {α : Type} {m : Parse α} (h : Starts m) : Deepens tooDeep m := by
  intro c
  cases hpeek : peek 0 c with
  | ok t c' =>
    refine .inl ⟨t.position, c', ?_⟩
    rw [tooDeep, bind_eq, hpeek]
    rfl
  | error e c' => exact .inr ((starts_tooDeep c e c' hpeek).trans (h c e c' hpeek).symm)

/-! ### Beginnings -/

theorem starts_unary (sub : Layers) : Starts (unary sub) := Starts.peekKind.bind _

theorem starts_leftChain {operand : Parse Expression} (h : Starts operand)
    (operator? : Kind → Option Operator) : Starts (leftChain operator? operand) := h.bind _

theorem starts_coalescing (sub : Layers) : Starts (coalescing sub) :=
  starts_leftChain (starts_leftChain (starts_leftChain (starts_unary sub) _) _) _

theorem starts_disjunction (sub : Layers) : Starts (disjunction sub) :=
  starts_leftChain (starts_leftChain ((starts_coalescing sub).bind _) _) _

/-- The nested parts begin with the next token. -/
structure Layers.Start (sub : Layers) : Prop where
  statement : Starts sub.statement
  expression : Starts sub.expression
  unary : Starts sub.unary

theorem starts_layers (n : Nat) : (layers n).Start := by
  cases n with
  | zero => exact ⟨starts_tooDeep, starts_tooDeep, starts_tooDeep⟩
  | succ n => exact ⟨Starts.peekKind.bind _, starts_disjunction _, starts_unary _⟩

/-! ### Productions -/

/-- The nested parts of `sub'` have more levels than those of `sub`. -/
structure Layers.Deepen (sub sub' : Layers) : Prop where
  statement : Deepens sub.statement sub'.statement
  expression : Deepens sub.expression sub'.expression
  unary : Deepens sub.unary sub'.unary

section Productions
variable {sub sub' : Layers} (h : sub.Deepen sub')
include h

theorem deepens_sequence (closer : Kind) (lastNeedsSeparator : Bool) :
    Deepens (sequence sub closer lastNeedsSeparator) (sequence sub' closer lastNeedsSeparator) := by
  refine .iterate (fun statements => .after _ fun kind => ?_) []
  split
  · exact .refl _
  · exact .before h.statement _

theorem deepens_bindStatement (binding : Binding) :
    Deepens (bindStatement sub binding) (bindStatement sub' binding) :=
  .after _ fun _ => .after _ fun _ => .before h.statement _

theorem deepens_branch : Deepens (branch sub) (branch sub') :=
  .bind h.statement fun _ => .before h.statement _

theorem deepens_furtherBranches (first : Branch) :
    Deepens (furtherBranches sub first) (furtherBranches sub' first) := by
  refine .iterate (fun branches => .after _ fun kind => ?_) [first]
  split
  · refine .after _ fun _ => .after _ fun kind => ?_
    split
    · exact .after _ fun _ => .before (deepens_branch h) _
    · exact .before h.statement _
  · exact .refl _

theorem deepens_condition : Deepens (condition sub) (condition sub') :=
  .after _ fun _ => .bind (deepens_branch h) fun first =>
    .before (deepens_furtherBranches h first) _

theorem deepens_loop : Deepens (loop sub) (loop sub') :=
  .after _ fun _ => .bind h.statement fun _ => .before h.statement _

theorem deepens_breakOut : Deepens (breakOut sub) (breakOut sub') := by
  refine .after _ fun word => .after _ fun kind => ?_
  split
  · exact .refl _
  · exact .before h.statement _

theorem deepens_statement : Deepens (statement sub) (statement sub') := by
  refine .after _ fun kind => ?_
  split
  · exact deepens_condition h
  · exact deepens_loop h
  · exact deepens_breakOut h
  · refine .after _ fun kind => ?_
    split
    · exact deepens_bindStatement h _
    · exact .before h.expression _
  · exact .before h.expression _

theorem deepens_block : Deepens (block sub) (block sub') :=
  .after _ fun _ => .before (deepens_sequence h _ _) _

theorem deepens_lambda : Deepens (lambda sub) (lambda sub') :=
  .after _ fun _ => .after _ fun _ => .after _ fun _ => .after _ fun _ => .before h.statement _

theorem deepens_group : Deepens (group sub) (group sub') :=
  .after _ fun _ => .before h.expression _

theorem deepens_factor : Deepens (factor sub) (factor sub') := by
  refine .after _ fun kind => ?_
  split
  · exact .refl _
  · exact .refl _
  · exact .refl _
  · exact .refl _
  · exact .refl _
  · exact .before (deepens_block h) _
  · refine .after _ fun found => ?_
    split
    · exact deepens_lambda h
    · exact deepens_group h
  · exact .refl _

theorem deepens_arguments : Deepens (arguments sub) (arguments sub') := by
  refine .after _ fun kind => ?_
  split
  · exact .refl _
  · exact .iterate (fun given => .before h.expression _) []

theorem deepens_call : Deepens (call sub) (call sub') := by
  refine .bind (deepens_factor h) fun first => ?_
  refine .iterate (fun callee => .after _ fun kind => ?_) first
  split
  · exact .after _ fun _ => .before (deepens_arguments h) _
  · exact .refl _

theorem deepens_unary : Deepens (unary sub) (unary sub') := by
  refine .after _ fun kind => ?_
  split
  · exact .after _ fun _ => .before h.unary _
  · exact deepens_call h

omit h in
theorem deepens_leftChain {operand operand' : Parse Expression}
    (hoperand : Deepens operand operand') (operator? : Kind → Option Operator) :
    Deepens (leftChain operator? operand) (leftChain operator? operand') := by
  refine .bind hoperand fun first => .iterate (fun left => .after _ fun kind => ?_) first
  split
  · exact .refl _
  · exact .after _ fun _ => .before hoperand _

theorem deepens_coalescing : Deepens (coalescing sub) (coalescing sub') :=
  deepens_leftChain (deepens_leftChain (deepens_leftChain (deepens_unary h) _) _) _

theorem deepens_comparison : Deepens (comparison sub) (comparison sub') := by
  refine .bind (deepens_coalescing h) fun left => .after _ fun kind => ?_
  split
  · exact .refl _
  · exact .after _ fun _ => .before (deepens_coalescing h) _

theorem deepens_disjunction : Deepens (disjunction sub) (disjunction sub') :=
  deepens_leftChain (deepens_leftChain (deepens_comparison h) _) _

theorem deepens_program : Deepens (program sub) (program sub') :=
  .after _ fun _ => .before (deepens_sequence h _ _) _

end Productions

/-- More levels change nothing but the failures that are due to their limit. -/
theorem deepen_layers {n n' : Nat} (h : n ≤ n') : (layers n).Deepen (layers n') := by
  induction n generalizing n' with
  | zero =>
    have hstart := starts_layers n'
    exact ⟨deepens_tooDeep hstart.statement, deepens_tooDeep hstart.expression,
      deepens_tooDeep hstart.unary⟩
  | succ n ih =>
    obtain ⟨n', rfl⟩ : ∃ k, n' = k + 1 := ⟨n' - 1, by omega⟩
    have hsub := ih (Nat.le_of_succ_le_succ h)
    exact ⟨deepens_statement hsub, deepens_disjunction hsub, deepens_unary hsub⟩

end Grammar

/-- **The limit on nesting never changes an answer.** With a smaller limit, a source fails because
of it, or it comes to what it comes to with a larger one: the same tree, the same failure of the
lexer or the same complaint. -/
theorem parseWithin_of_le {limit limit' : Nat} (h : limit ≤ limit') (source : String) :
    (∃ p, parseWithin limit source = .error (.parse p .nestingLimit)) ∨
      parseWithin limit source = parseWithin limit' source := by
  unfold parseWithin
  obtain ⟨p, c', hlimit⟩ | hsame :=
    Grammar.deepens_program (Grammar.deepen_layers h) (.ofSource source)
  · rw [hlimit]
    exact .inl ⟨p, rfl⟩
  · rw [hsame]
    exact .inr rfl

/-- Two signs need four levels. With three of them what stands behind the signs is too deep, but a
text that is not closed fails there for its own sake. -/
theorem parseWithin_of_le_signs :
    parseWithin 3 "--1;" = .error (.parse ⟨1, 3⟩ .nestingLimit) ∧
      parseWithin 4 "--1;" = parseWithin 64 "--1;" ∧
      parseWithin 3 "--\"1;" = parseWithin 64 "--\"1;" := by
  have hread : ∀ p, parseWithin 4 "--1;" ≠ .error (.parse p .nestingLimit) := by
    intro p hlimit
    have hok : (parseWithin 4 "--1;").isOk := by decide +kernel
    rw [hlimit] at hok
    cases hok
  have hopen : parseWithin 3 "--\"1;" = .error (.lex ⟨1, 3⟩ (.fault .unterminatedText)) := by rfl
  refine ⟨by rfl, ?_, ?_⟩
  · obtain ⟨p, hlimit⟩ | hsame := parseWithin_of_le (show 4 ≤ 64 by decide) "--1;"
    · exact absurd hlimit (hread p)
    · exact hsame
  · obtain ⟨p, hlimit⟩ | hsame := parseWithin_of_le (show 3 ≤ 64 by decide) "--\"1;"
    · cases hopen.symm.trans hlimit
    · exact hsame

end Lumen
