import Lumen.Proofs.Token.Words
import Lumen.Syntax

/-! Trees written out.

A tree is written as a list of words, with a separator behind every statement and parentheses
only where the layer of an operand asks for them: operators of one layer lean to the left, so
their right operand is one layer up, both operands of a comparison are above all comparisons, a
sign takes a sign or a call, and what is called is a call or a factor. A function is open to
the right, so it stands in parentheses wherever something may follow it.

`Statement.levels` counts how deeply the written form nests, parentheses included, and
`Statement.Printable` says which trees have a written form that can be read back. -/
namespace Lumen
open Token (Kind Word)

namespace Token.Word

/-- A word that its kind says all about. -/
def sign (kind : Kind) : Word := ⟨kind, .none⟩

def name (s : String) : Word := ⟨.identifier, .text s⟩

end Token.Word

namespace Operator

def kind : Operator → Kind
  | or => .or
  | and => .and
  | equal => .equal
  | notEqual => .notEqual
  | less => .less
  | lessEqual => .lessEqual
  | greater => .greater
  | greaterEqual => .greaterEqual
  | nullCoalescing => .nullCoalescing
  | add => .plus
  | subtract => .minus
  | multiply => .multiply
  | divide => .divide

/-- The layer of an operator, 1 for the loosest. -/
def layer : Operator → Nat
  | or => 1
  | and => 2
  | equal | notEqual | less | lessEqual | greater | greaterEqual => 3
  | nullCoalescing => 4
  | add | subtract => 5
  | multiply | divide => 6

/-- The layer of the left operand. Comparisons do not chain, all others do. -/
def leftLayer (operator : Operator) : Nat :=
  if operator.layer = 3 then 4 else operator.layer

end Operator

def Binding.kind : Binding → Kind
  | declare => .assign
  | assign => .reassign
  | nullAssign => .nullAssign

def Literal.word : Literal → Word
  | integer n => ⟨.integer, .integer n⟩
  | text s => ⟨.text, .text s⟩
  | boolean b => ⟨.boolean, .boolean b⟩
  | null => .sign .null

namespace Expression

/-- The layer that an expression is in: that of its operator, a sign in 7, a call in 8, and the
factors in 9, but for functions. -/
def layer : Expression → Nat
  | binary operator .. => operator.layer
  | negate .. => 7
  | call .. => 8
  | lambda .. => 0
  | _ => 9

/-- The parentheses that an operand needs in a layer, as levels of nesting. -/
def groups (e : Expression) (layer : Nat) : Nat := if e.layer < layer then 1 else 0

end Expression

/-! ### Words -/

/-- Puts words in parentheses. -/
def grouped (ws : List Word) : Nat → List Word
  | 0 => ws
  | _ + 1 => .sign .parenOpen :: ws ++ [.sign .parenClose]

def parameterWords : List String → List Word
  | [] => []
  | [name] => [.name name]
  | name :: next :: rest => .name name :: .sign .comma :: parameterWords (next :: rest)

mutual

def Statement.words : Statement → List Word
  | .bind binding name value _ => .name name :: .sign binding.kind :: value.words
  | .condition branches none _ => branchWords branches
  | .condition branches (some s) _ => branchWords branches ++ .sign .elseWord :: s.words
  | .loop guard body _ => .sign .loopWord :: guard.words ++ body.words
  | .breakOut none _ => [.sign .breakWord]
  | .breakOut (some s) _ => .sign .breakWord :: s.words
  | .expression e => e.words

def Expression.words : Expression → List Word
  | .binary operator left right _ =>
    grouped left.words (left.groups operator.leftLayer) ++
      .sign operator.kind :: grouped right.words (right.groups (operator.layer + 1))
  | .negate operand _ => .sign .minus :: grouped operand.words (operand.groups 7)
  | .constant value _ => [value.word]
  | .reference name _ => [.name name]
  | .block b => b.words
  | .lambda f => f.words
  | .call callee arguments _ =>
    grouped callee.words (callee.groups 8) ++
      .sign .parenOpen :: argumentWords arguments ++ [.sign .parenClose]

def Branch.words : Branch → List Word
  | ⟨guard, body⟩ => .sign .ifWord :: guard.words ++ body.words

def Block.words : Block → List Word
  | ⟨statements, _⟩ => .sign .braceOpen :: sequenceWords statements ++ [.sign .braceClose]

def Lambda.words : Lambda → List Word
  | ⟨parameters, body, _⟩ =>
    .sign .parenOpen :: parameterWords parameters ++
      .sign .parenClose :: .sign .arrow :: body.words

def branchWords : List Branch → List Word
  | [] => []
  | [b] => b.words
  | b :: next :: rest => b.words ++ .sign .elseWord :: branchWords (next :: rest)

def sequenceWords : List Statement → List Word
  | [] => []
  | s :: rest => s.words ++ .sign .endOfStatement :: sequenceWords rest

def argumentWords : List Expression → List Word
  | [] => []
  | [e] => e.words
  | e :: next :: rest => e.words ++ .sign .comma :: argumentWords (next :: rest)

end

/-- The text of a program. -/
def Block.render (b : Block) : String := Word.write (sequenceWords b.statements)

/-! ### Nesting -/

mutual

/-- How many levels the written form of a statement nests: each statement, each expression that
stands as a statement, as an argument or in parentheses, and each operand of a sign is one. -/
def Statement.levels : Statement → Nat
  | .bind _ _ value _ => value.levels + 1
  | .condition branches none _ => branchLevels branches + 1
  | .condition branches (some s) _ => max (branchLevels branches) s.levels + 1
  | .loop guard body _ => max guard.levels body.levels + 1
  | .breakOut none _ => 1
  | .breakOut (some s) _ => s.levels + 1
  | .expression e => e.levels + 1 + 1

/-- How many levels there are below an expression. -/
def Expression.levels : Expression → Nat
  | .binary operator left right _ =>
    max (left.levels + left.groups operator.leftLayer)
      (right.levels + right.groups (operator.layer + 1))
  | .negate operand _ => operand.levels + operand.groups 7 + 1
  | .constant .. | .reference .. => 0
  | .block b => b.levels
  | .lambda f => f.levels
  | .call callee arguments _ => max (callee.levels + callee.groups 8) (argumentLevels arguments)

def Branch.levels : Branch → Nat
  | ⟨guard, body⟩ => max guard.levels body.levels

def Block.levels : Block → Nat
  | ⟨statements, _⟩ => sequenceLevels statements

def Lambda.levels : Lambda → Nat
  | ⟨_, body, _⟩ => body.levels

def branchLevels : List Branch → Nat
  | [] => 0
  | b :: rest => max b.levels (branchLevels rest)

def sequenceLevels : List Statement → Nat
  | [] => 0
  | s :: rest => max s.levels (sequenceLevels rest)

def argumentLevels : List Expression → Nat
  | [] => 0
  | e :: rest => max (e.levels + 1) (argumentLevels rest)

end

/-! ### Trees that can be written -/

namespace Statement

def IsExpression : Statement → Prop
  | expression _ => True
  | _ => False

def IsBlock : Statement → Prop
  | expression (.block _) => True
  | _ => False

end Statement

mutual

/-- The names and constants have spellings, a condition has a branch, guards and the bodies of
functions are expressions, and the bodies of conditions and loops are blocks. -/
def Statement.Printable : Statement → Prop
  | .bind _ name value _ => (Word.name name).WellFormed ∧ value.Printable
  | .condition branches none _ => branches ≠ [] ∧ PrintableBranches branches
  | .condition branches (some s) _ =>
    branches ≠ [] ∧ PrintableBranches branches ∧ s.IsBlock ∧ s.Printable
  | .loop guard body _ => guard.IsExpression ∧ guard.Printable ∧ body.IsBlock ∧ body.Printable
  | .breakOut none _ => True
  | .breakOut (some s) _ => s.Printable
  | .expression e => e.Printable

def Expression.Printable : Expression → Prop
  | .binary _ left right _ => left.Printable ∧ right.Printable
  | .negate operand _ => operand.Printable
  | .constant value _ => value.word.WellFormed
  | .reference name _ => (Word.name name).WellFormed
  | .block b => b.Printable
  | .lambda f => f.Printable
  | .call callee arguments _ => callee.Printable ∧ PrintableArguments arguments

def Branch.Printable : Branch → Prop
  | ⟨guard, body⟩ => guard.IsExpression ∧ guard.Printable ∧ body.IsBlock ∧ body.Printable

def Block.Printable : Block → Prop
  | ⟨statements, _⟩ => PrintableSequence statements

def Lambda.Printable : Lambda → Prop
  | ⟨parameters, body, _⟩ =>
    (∀ name ∈ parameters, (Word.name name).WellFormed) ∧ body.IsExpression ∧ body.Printable

def PrintableBranches : List Branch → Prop
  | [] => True
  | b :: rest => b.Printable ∧ PrintableBranches rest

def PrintableSequence : List Statement → Prop
  | [] => True
  | s :: rest => s.Printable ∧ PrintableSequence rest

def PrintableArguments : List Expression → Prop
  | [] => True
  | e :: rest => e.Printable ∧ PrintableArguments rest

end

/-! ### The words of a tree that can be written -/

namespace Token.Word

theorem isCode_sign {k : Kind} (h : ∃ f ∈ spellings, f.word = sign k) : (sign k).IsCode := by
  have hcomment : ∀ f ∈ spellings, f.word.kind ≠ .comment := by decide
  obtain ⟨f, hf, hword⟩ := h
  refine ⟨?_, hword ▸ hcomment f hf⟩
  cases k <;> exact ⟨f, hf, hword⟩

theorem isCode_name {s : String} (h : (name s).WellFormed) : (name s).IsCode := ⟨h, nofun⟩

theorem isCode_literal {v : Literal} (h : v.word.WellFormed) : v.word.IsCode :=
  ⟨h, by cases v <;> exact nofun⟩

theorem isCode_operator (operator : Operator) : (sign operator.kind).IsCode :=
  isCode_sign (by cases operator <;> decide)

theorem isCode_binding (binding : Binding) : (sign binding.kind).IsCode :=
  isCode_sign (by cases binding <;> decide)

end Token.Word

open Token.Word (isCode_sign isCode_name isCode_literal isCode_operator isCode_binding)

theorem isCode_grouped {ws : List Word} (h : ∀ w ∈ ws, w.IsCode) (n : Nat) :
    ∀ w ∈ grouped ws n, w.IsCode := by
  cases n with
  | zero => exact h
  | succ n =>
    simp only [grouped, List.cons_append, List.forall_mem_cons, List.forall_mem_append]
    exact ⟨isCode_sign (by decide), h, isCode_sign (by decide), nofun⟩

theorem isCode_parameters {names : List String} (h : ∀ name ∈ names, (Word.name name).WellFormed) :
    ∀ w ∈ parameterWords names, w.IsCode := by
  fun_induction parameterWords names with
  | case1 => exact nofun
  | case2 name => simpa using isCode_name (h name (by simp))
  | case3 name next rest ih =>
    rw [List.forall_mem_cons] at h
    simp only [List.forall_mem_cons]
    exact ⟨isCode_name h.1, isCode_sign (by decide), ih h.2⟩

mutual

theorem Statement.isCode_words : (s : Statement) → s.Printable → ∀ w ∈ s.words, w.IsCode
  | .bind binding name value _, h => by
    rw [Statement.Printable] at h
    simp only [Statement.words, List.forall_mem_cons]
    exact ⟨isCode_name h.1, isCode_binding binding, value.isCode_words h.2⟩
  | .condition branches none _, h => by
    rw [Statement.Printable] at h
    rw [Statement.words]
    exact isCode_branches branches h.2
  | .condition branches (some s) _, h => by
    rw [Statement.Printable] at h
    simp only [Statement.words, List.forall_mem_append, List.forall_mem_cons]
    exact ⟨isCode_branches branches h.2.1, isCode_sign (by decide), s.isCode_words h.2.2.2⟩
  | .loop guard body _, h => by
    rw [Statement.Printable] at h
    simp only [Statement.words, List.cons_append, List.forall_mem_append, List.forall_mem_cons]
    exact ⟨isCode_sign (by decide), guard.isCode_words h.2.1, body.isCode_words h.2.2.2⟩
  | .breakOut none _, _ => by
    simp only [Statement.words, List.forall_mem_cons]
    exact ⟨isCode_sign (by decide), nofun⟩
  | .breakOut (some s) _, h => by
    rw [Statement.Printable] at h
    simp only [Statement.words, List.forall_mem_cons]
    exact ⟨isCode_sign (by decide), s.isCode_words h⟩
  | .expression e, h => by
    rw [Statement.Printable] at h
    rw [Statement.words]
    exact e.isCode_words h

theorem Expression.isCode_words : (e : Expression) → e.Printable → ∀ w ∈ e.words, w.IsCode
  | .binary operator left right _, h => by
    rw [Expression.Printable] at h
    simp only [Expression.words, List.forall_mem_append, List.forall_mem_cons]
    exact ⟨isCode_grouped (left.isCode_words h.1) _, isCode_operator operator,
      isCode_grouped (right.isCode_words h.2) _⟩
  | .negate operand _, h => by
    rw [Expression.Printable] at h
    simp only [Expression.words, List.forall_mem_cons]
    exact ⟨isCode_sign (by decide), isCode_grouped (operand.isCode_words h) _⟩
  | .constant value _, h => by
    rw [Expression.Printable] at h
    simpa [Expression.words] using isCode_literal h
  | .reference name _, h => by
    rw [Expression.Printable] at h
    simpa [Expression.words] using isCode_name h
  | .block b, h => by
    rw [Expression.Printable] at h
    rw [Expression.words]
    exact b.isCode_words h
  | .lambda f, h => by
    rw [Expression.Printable] at h
    rw [Expression.words]
    exact f.isCode_words h
  | .call callee given _, h => by
    rw [Expression.Printable] at h
    simp only [Expression.words, List.forall_mem_append, List.forall_mem_cons]
    exact ⟨⟨isCode_grouped (callee.isCode_words h.1) _, isCode_sign (by decide),
      isCode_arguments given h.2⟩, isCode_sign (by decide), nofun⟩

theorem Branch.isCode_words : (b : Branch) → b.Printable → ∀ w ∈ b.words, w.IsCode
  | ⟨guard, body⟩, h => by
    rw [Branch.Printable] at h
    simp only [Branch.words, List.cons_append, List.forall_mem_append, List.forall_mem_cons]
    exact ⟨isCode_sign (by decide), guard.isCode_words h.2.1, body.isCode_words h.2.2.2⟩

theorem Block.isCode_words : (b : Block) → b.Printable → ∀ w ∈ b.words, w.IsCode
  | ⟨statements, _⟩, h => by
    rw [Block.Printable] at h
    simp only [Block.words, List.cons_append, List.forall_mem_append, List.forall_mem_cons]
    exact ⟨isCode_sign (by decide), isCode_sequence statements h, isCode_sign (by decide), nofun⟩

theorem Lambda.isCode_words : (f : Lambda) → f.Printable → ∀ w ∈ f.words, w.IsCode
  | ⟨parameters, body, _⟩, h => by
    rw [Lambda.Printable] at h
    simp only [Lambda.words, List.cons_append, List.forall_mem_append, List.forall_mem_cons]
    exact ⟨isCode_sign (by decide), isCode_parameters h.1, isCode_sign (by decide),
      isCode_sign (by decide), body.isCode_words h.2.2⟩

theorem isCode_branches : (bs : List Branch) → PrintableBranches bs → ∀ w ∈ branchWords bs, w.IsCode
  | [], _ => nofun
  | [b], h => by
    rw [PrintableBranches] at h
    rw [branchWords]
    exact b.isCode_words h.1
  | b :: next :: rest, h => by
    rw [PrintableBranches] at h
    simp only [branchWords, List.forall_mem_append, List.forall_mem_cons]
    exact ⟨b.isCode_words h.1, isCode_sign (by decide), isCode_branches (next :: rest) h.2⟩

theorem isCode_sequence : (ss : List Statement) → PrintableSequence ss →
    ∀ w ∈ sequenceWords ss, w.IsCode
  | [], _ => nofun
  | s :: rest, h => by
    rw [PrintableSequence] at h
    simp only [sequenceWords, List.forall_mem_append, List.forall_mem_cons]
    exact ⟨s.isCode_words h.1, isCode_sign (by decide), isCode_sequence rest h.2⟩

theorem isCode_arguments : (es : List Expression) → PrintableArguments es →
    ∀ w ∈ argumentWords es, w.IsCode
  | [], _ => nofun
  | [e], h => by
    rw [PrintableArguments] at h
    rw [argumentWords]
    exact e.isCode_words h.1
  | e :: next :: rest, h => by
    rw [PrintableArguments] at h
    simp only [argumentWords, List.forall_mem_append, List.forall_mem_cons]
    exact ⟨e.isCode_words h.1, isCode_sign (by decide), isCode_arguments (next :: rest) h.2⟩

end

/-! ### Trees without places -/

mutual

/-- The tree with all its places forgotten. -/
def Statement.unplaced : Statement → Statement
  | .bind binding name value _ => .bind binding name value.unplaced .unknown
  | .condition branches none _ => .condition (unplacedBranches branches) none .unknown
  | .condition branches (some s) _ => .condition (unplacedBranches branches) (some s.unplaced) .unknown
  | .loop guard body _ => .loop guard.unplaced body.unplaced .unknown
  | .breakOut none _ => .breakOut none .unknown
  | .breakOut (some s) _ => .breakOut (some s.unplaced) .unknown
  | .expression e => .expression e.unplaced

def Expression.unplaced : Expression → Expression
  | .binary operator left right _ => .binary operator left.unplaced right.unplaced .unknown
  | .negate operand _ => .negate operand.unplaced .unknown
  | .constant value _ => .constant value .unknown
  | .reference name _ => .reference name .unknown
  | .block b => .block b.unplaced
  | .lambda f => .lambda f.unplaced
  | .call callee arguments _ => .call callee.unplaced (unplacedArguments arguments) .unknown

def Branch.unplaced : Branch → Branch
  | ⟨guard, body⟩ => ⟨guard.unplaced, body.unplaced⟩

def Block.unplaced : Block → Block
  | ⟨statements, _⟩ => ⟨unplacedSequence statements, .unknown⟩

def Lambda.unplaced : Lambda → Lambda
  | ⟨parameters, body, _⟩ => ⟨parameters, body.unplaced, .unknown⟩

def unplacedBranches : List Branch → List Branch
  | [] => []
  | b :: rest => b.unplaced :: unplacedBranches rest

def unplacedSequence : List Statement → List Statement
  | [] => []
  | s :: rest => s.unplaced :: unplacedSequence rest

def unplacedArguments : List Expression → List Expression
  | [] => []
  | e :: rest => e.unplaced :: unplacedArguments rest

end

end Lumen
