import Mathlib.Data.List.Forall2
import Lumen.Error
import Lumen.Syntax

/-! Trees and errors that differ in their places only.

Two trees are alike if one is the other with its places changed, each to one that a relation `P`
allows (`Statement.Alike`); two errors are alike if they have the same cause. Nothing else of a
tree depends on places: names, constants and the labels of messages agree. Where `P` is equality,
trees that are alike are equal (`Statement.eq_of_alike`). -/
namespace Lumen

/-- Errors with the same cause, at places that `P` relates. -/
inductive Error.Alike (P : Position → Position → Prop) : Error → Error → Prop
  | unreadable (words : String) : Alike P (.unreadable words) (.unreadable words)
  | lex {p p' : Position} (cause : LexCause) : P p p' → Alike P (.lex p cause) (.lex p' cause)
  | parse {p p' : Position} (cause : ParseCause) :
    P p p' → Alike P (.parse p cause) (.parse p' cause)
  | runtime {p p' : Position} (cause : RuntimeCause) :
    P p p' → Alike P (.runtime p cause) (.runtime p' cause)

theorem Error.Alike.message {P : Position → Position → Prop} {e e' : Error} (h : e.Alike P e') :
    e.message = e'.message := by
  cases h <;> rfl

theorem Error.alike_self {P : Position → Position → Prop} (hP : ∀ p, P p p) (e : Error) :
    e.Alike P e := by
  cases e with
  | unreadable words => exact .unreadable words
  | lex p cause => exact .lex cause (hP p)
  | parse p cause => exact .parse cause (hP p)
  | runtime p cause => exact .runtime cause (hP p)

theorem Error.Alike.eq {e e' : Error} (h : e.Alike Eq e') : e = e' := by
  cases h <;> simp_all

/-! ### Trees -/

mutual

/-- Statements that differ in their places only, each of which `P` relates to its counterpart. -/
inductive Statement.Alike (P : Position → Position → Prop) : Statement → Statement → Prop
  | bind {value value' : Statement} {p p' : Position} (binding : Binding) (name : String) :
    Statement.Alike P value value' → P p p' →
    Statement.Alike P (.bind binding name value p) (.bind binding name value' p')
  | condition {bs bs' : List Branch} {otherwise otherwise' : Option Statement} {p p' : Position} :
    List.Forall₂ (Branch.Alike P) bs bs' → Option.Rel (Statement.Alike P) otherwise otherwise' →
    P p p' → Statement.Alike P (.condition bs otherwise p) (.condition bs' otherwise' p')
  | loop {guard guard' body body' : Statement} {p p' : Position} :
    Statement.Alike P guard guard' → Statement.Alike P body body' → P p p' →
    Statement.Alike P (.loop guard body p) (.loop guard' body' p')
  | breakOut {value value' : Option Statement} {p p' : Position} :
    Option.Rel (Statement.Alike P) value value' → P p p' →
    Statement.Alike P (.breakOut value p) (.breakOut value' p')
  | expression {e e' : Expression} :
    Expression.Alike P e e' → Statement.Alike P (.expression e) (.expression e')

inductive Expression.Alike (P : Position → Position → Prop) : Expression → Expression → Prop
  | binary {left left' right right' : Expression} {p p' : Position} (operator : Operator) :
    Expression.Alike P left left' → Expression.Alike P right right' → P p p' →
    Expression.Alike P (.binary operator left right p) (.binary operator left' right' p')
  | negate {operand operand' : Expression} {p p' : Position} :
    Expression.Alike P operand operand' → P p p' →
    Expression.Alike P (.negate operand p) (.negate operand' p')
  | constant {p p' : Position} (value : Literal) :
    P p p' → Expression.Alike P (.constant value p) (.constant value p')
  | reference {p p' : Position} (name : String) :
    P p p' → Expression.Alike P (.reference name p) (.reference name p')
  | block {b b' : Block} : Block.Alike P b b' → Expression.Alike P (.block b) (.block b')
  | lambda {f f' : Lambda} : Lambda.Alike P f f' → Expression.Alike P (.lambda f) (.lambda f')
  | call {callee callee' : Expression} {given given' : List Expression} {p p' : Position} :
    Expression.Alike P callee callee' → List.Forall₂ (Expression.Alike P) given given' →
    P p p' → Expression.Alike P (.call callee given p) (.call callee' given' p')

inductive Branch.Alike (P : Position → Position → Prop) : Branch → Branch → Prop
  | mk {guard guard' body body' : Statement} :
    Statement.Alike P guard guard' → Statement.Alike P body body' →
    Branch.Alike P ⟨guard, body⟩ ⟨guard', body'⟩

inductive Block.Alike (P : Position → Position → Prop) : Block → Block → Prop
  | mk {ss ss' : List Statement} {p p' : Position} :
    List.Forall₂ (Statement.Alike P) ss ss' → P p p' → Block.Alike P ⟨ss, p⟩ ⟨ss', p'⟩

inductive Lambda.Alike (P : Position → Position → Prop) : Lambda → Lambda → Prop
  | mk {body body' : Statement} {p p' : Position} (parameters : List String) :
    Statement.Alike P body body' → P p p' →
    Lambda.Alike P ⟨parameters, body, p⟩ ⟨parameters, body', p'⟩

end

section Places
variable {P : Position → Position → Prop}

theorem Expression.Alike.position {e e' : Expression} (h : e.Alike P e') :
    P e.position e'.position := by
  cases h with
  | binary _ _ _ hp => exact hp
  | negate _ hp => exact hp
  | constant _ hp => exact hp
  | reference _ hp => exact hp
  | block hb =>
    cases hb with
    | mk _ hp => exact hp
  | lambda hf =>
    cases hf with
    | mk _ _ hp => exact hp
  | call _ _ hp => exact hp

theorem Statement.Alike.position {s s' : Statement} (h : s.Alike P s') :
    P s.position s'.position := by
  cases h with
  | bind _ _ _ hp => exact hp
  | condition _ _ hp => exact hp
  | loop _ _ hp => exact hp
  | breakOut _ hp => exact hp
  | expression he => exact he.position

theorem Expression.Alike.calleeLabel {e e' : Expression} (h : e.Alike P e') :
    e.calleeLabel = e'.calleeLabel := by
  cases h <;> rfl

theorem Lambda.Alike.parameters {f f' : Lambda} (h : f.Alike P f') :
    f.parameters = f'.parameters := by
  cases h
  rfl

end Places

/-! ### A tree is like itself -/

section Refl
variable {P : Position → Position → Prop}

mutual

theorem Statement.alike_self (hP : ∀ p, P p p) : (s : Statement) → s.Alike P s
  | .bind binding name value p => .bind binding name (Statement.alike_self hP value) (hP p)
  | .condition bs none p => .condition (alike_branches hP bs) .none (hP p)
  | .condition bs (some otherwise) p =>
    .condition (alike_branches hP bs) (.some (Statement.alike_self hP otherwise)) (hP p)
  | .loop guard body p =>
    .loop (Statement.alike_self hP guard) (Statement.alike_self hP body) (hP p)
  | .breakOut none p => .breakOut .none (hP p)
  | .breakOut (some value) p => .breakOut (.some (Statement.alike_self hP value)) (hP p)
  | .expression e => .expression (Expression.alike_self hP e)

theorem Expression.alike_self (hP : ∀ p, P p p) : (e : Expression) → e.Alike P e
  | .binary operator left right p =>
    .binary operator (Expression.alike_self hP left) (Expression.alike_self hP right) (hP p)
  | .negate operand p => .negate (Expression.alike_self hP operand) (hP p)
  | .constant value p => .constant value (hP p)
  | .reference name p => .reference name (hP p)
  | .block ⟨ss, p⟩ => .block (.mk (alike_statements hP ss) (hP p))
  | .lambda ⟨parameters, body, p⟩ => .lambda (.mk parameters (Statement.alike_self hP body) (hP p))
  | .call callee given p =>
    .call (Expression.alike_self hP callee) (alike_arguments hP given) (hP p)

theorem alike_branches (hP : ∀ p, P p p) : (bs : List Branch) → List.Forall₂ (Branch.Alike P) bs bs
  | [] => .nil
  | ⟨guard, body⟩ :: rest =>
    .cons (.mk (Statement.alike_self hP guard) (Statement.alike_self hP body))
      (alike_branches hP rest)

theorem alike_statements (hP : ∀ p, P p p) :
    (ss : List Statement) → List.Forall₂ (Statement.Alike P) ss ss
  | [] => .nil
  | s :: rest => .cons (Statement.alike_self hP s) (alike_statements hP rest)

theorem alike_arguments (hP : ∀ p, P p p) :
    (es : List Expression) → List.Forall₂ (Expression.Alike P) es es
  | [] => .nil
  | e :: rest => .cons (Expression.alike_self hP e) (alike_arguments hP rest)

end

theorem Block.alike_self (hP : ∀ p, P p p) (b : Block) : b.Alike P b := by
  obtain ⟨ss, p⟩ := b
  exact .mk (alike_statements hP ss) (hP p)

end Refl

/-! ### Trees with the same places -/

mutual

theorem Statement.eq_of_alike : (s : Statement) → {s' : Statement} → s.Alike Eq s' → s = s'
  | .bind binding name value p, _, .bind _ _ hvalue hp => by
    rw [Statement.eq_of_alike value hvalue, hp]
  | .condition bs none p, _, .condition hbs .none hp => by
    rw [eq_of_alike_branches bs hbs, hp]
  | .condition bs (some otherwise) p, _, .condition hbs (.some ho) hp => by
    rw [eq_of_alike_branches bs hbs, Statement.eq_of_alike otherwise ho, hp]
  | .loop guard body p, _, .loop hguard hbody hp => by
    rw [Statement.eq_of_alike guard hguard, Statement.eq_of_alike body hbody, hp]
  | .breakOut none p, _, .breakOut .none hp => by rw [hp]
  | .breakOut (some value) p, _, .breakOut (.some hvalue) hp => by
    rw [Statement.eq_of_alike value hvalue, hp]
  | .expression e, _, .expression he => by rw [Expression.eq_of_alike e he]

theorem Expression.eq_of_alike : (e : Expression) → {e' : Expression} → e.Alike Eq e' → e = e'
  | .binary operator left right p, _, .binary _ hleft hright hp => by
    rw [Expression.eq_of_alike left hleft, Expression.eq_of_alike right hright, hp]
  | .negate operand p, _, .negate hoperand hp => by rw [Expression.eq_of_alike operand hoperand, hp]
  | .constant value p, _, .constant _ hp => by rw [hp]
  | .reference name p, _, .reference _ hp => by rw [hp]
  | .block ⟨ss, p⟩, _, .block (.mk hss hp) => by rw [eq_of_alike_statements ss hss, hp]
  | .lambda ⟨parameters, body, p⟩, _, .lambda (.mk _ hbody hp) => by
    rw [Statement.eq_of_alike body hbody, hp]
  | .call callee given p, _, .call hcallee hgiven hp => by
    rw [Expression.eq_of_alike callee hcallee, eq_of_alike_arguments given hgiven, hp]

theorem eq_of_alike_branches : (bs : List Branch) → {bs' : List Branch} →
    List.Forall₂ (Branch.Alike Eq) bs bs' → bs = bs'
  | [], _, .nil => rfl
  | ⟨guard, body⟩ :: rest, _, .cons (.mk hguard hbody) hrest => by
    rw [Statement.eq_of_alike guard hguard, Statement.eq_of_alike body hbody,
      eq_of_alike_branches rest hrest]

theorem eq_of_alike_statements : (ss : List Statement) → {ss' : List Statement} →
    List.Forall₂ (Statement.Alike Eq) ss ss' → ss = ss'
  | [], _, .nil => rfl
  | s :: rest, _, .cons hs hrest => by
    rw [Statement.eq_of_alike s hs, eq_of_alike_statements rest hrest]

theorem eq_of_alike_arguments : (es : List Expression) → {es' : List Expression} →
    List.Forall₂ (Expression.Alike Eq) es es' → es = es'
  | [], _, .nil => rfl
  | e :: rest, _, .cons he hrest => by
    rw [Expression.eq_of_alike e he, eq_of_alike_arguments rest hrest]

end

end Lumen
