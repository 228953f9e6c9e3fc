import Lumen.Parser.Grammar

/-! The grammar of programs, as a relation.

A `Phrase` says which tokens spell which tree, places included:

    program    = {statement ';'} end-of-text
    statement  = 'if' branch {'else' 'if' branch} ['else' statement]
               | 'loop' statement statement | 'break' [statement]
               | name ('=' | ':=' | '??=') statement | expression
    branch     = statement statement
    expression = and {'||' and}          and   = comparison {'&&' comparison}
    comparison = coalescing [('==' | '!=' | '<' | '<=' | '>' | '>=') coalescing]
    coalescing = sum {'??' sum}          sum   = product {('+' | '-') product}
    product    = unary {('*' | '/') unary}
    unary      = '-' unary | call        call  = factor {'(' [expression {',' expression}] ')'}
    factor     = constant | name | block | '(' expression ')'
               | '(' [name {',' name}] ')' '=>' statement
    block      = '{' [statement {';' statement} [';']] '}'

Chains of operators and of calls lean to the left. A statement, an expression that stands
as a statement, as an argument or in parentheses, and the operand of a sign are each one
level of nesting: `parts n` holds what can be derived with at most `n` levels. -/
namespace Lumen
open Token (Kind)

/-- Which tokens spell which tree. -/
abbrev Phrase (α : Type) := List Token → α → Prop

namespace Phrase

/-- The phrases that are one level deeper than those around them. -/
structure Parts where
  statement : Phrase Statement
  expression : Phrase Expression
  unary : Phrase Expression

/-! ### Repetition -/

section
variable {α : Type}

/-- `item {',' item}` -/
inductive Series (item : Phrase α) : Phrase (List α)
  | last {ts : List Token} {a : α} (ha : item ts a) : Series item ts [a]
  | more {ts us : List Token} {t : Token} {a : α} {as : List α} (ha : item ts a)
    (ht : t.kind = .comma) (has : Series item us as) : Series item (ts ++ t :: us) (a :: as)

/-- `[item {',' item}]` -/
inductive Listed (item : Phrase α) : Phrase (List α)
  | none : Listed item [] []
  | some {ts : List Token} {as : List α} (has : Series item ts as) : Listed item ts as

/-- `{item ';'}`, and if the last separator may be left out, `[item {';' item} [';']]`. -/
inductive Sequence (item : Phrase α) (lastNeedsSeparator : Bool) : Phrase (List α)
  | none : Sequence item lastNeedsSeparator [] []
  | last {ts : List Token} {a : α} (hlast : lastNeedsSeparator = false) (ha : item ts a) :
    Sequence item lastNeedsSeparator ts [a]
  | more {ts us : List Token} {t : Token} {a : α} {as : List α} (ha : item ts a)
    (ht : t.kind = .endOfStatement) (has : Sequence item lastNeedsSeparator us as) :
    Sequence item lastNeedsSeparator (ts ++ t :: us) (a :: as)

end

/-! ### Expressions -/

/-- Operands joined by operators of one level. -/
inductive LeftChain (operator? : Kind → Option Operator) (operand : Phrase Expression) :
    Phrase Expression
  | single {ts : List Token} {e : Expression} (he : operand ts e) : LeftChain operator? operand ts e
  | join {ts us : List Token} {t : Token} {left right : Expression} {operator : Operator}
    (hleft : LeftChain operator? operand ts left) (ht : operator? t.kind = some operator)
    (hright : operand us right) :
    LeftChain operator? operand (ts ++ t :: us) (.binary operator left right t.position)

/-- An operand, or one comparison of two. -/
inductive Comparison (operand : Phrase Expression) : Phrase Expression
  | single {ts : List Token} {e : Expression} (he : operand ts e) : Comparison operand ts e
  | compare {ts us : List Token} {t : Token} {left right : Expression} {operator : Operator}
    (hleft : operand ts left) (ht : t.kind.comparison? = some operator) (hright : operand us right) :
    Comparison operand (ts ++ t :: us) (.binary operator left right t.position)

/-- The name of a parameter. -/
inductive Name : Phrase String
  | name {t : Token} (ht : t.kind = .identifier) : Name [t] t.words

inductive Braces (parts : Parts) : Phrase Block
  | block {ts : List Token} {t u : Token} {statements : List Statement} (ht : t.kind = .braceOpen)
    (hs : Sequence parts.statement false ts statements) (hu : u.kind = .braceClose) :
    Braces parts (t :: ts ++ [u]) ⟨statements, t.position⟩

/-- A factor that its last token closes. -/
inductive Atom (parts : Parts) : Phrase Expression
  | constant {t : Token} (ht : t.kind ∈ [.integer, .text, .boolean, .null]) :
    Atom parts [t] (.constant (Grammar.literalOf t.value) t.position)
  | reference {t : Token} (ht : t.kind = .identifier) :
    Atom parts [t] (.reference t.words t.position)
  | block {ts : List Token} {b : Block} (hb : Braces parts ts b) : Atom parts ts (.block b)
  | group {ts : List Token} {t u : Token} {e : Expression} (ht : t.kind = .parenOpen)
    (he : parts.expression ts e) (hu : u.kind = .parenClose) : Atom parts (t :: ts ++ [u]) e

/-- A function, whose body is open to the right. -/
inductive Function (parts : Parts) : Phrase Lambda
  | lambda {ts us : List Token} {t u arrow : Token} {names : List String} {body : Statement}
    (ht : t.kind = .parenOpen) (hnames : Listed Name ts names) (hu : u.kind = .parenClose)
    (harrow : arrow.kind = .arrow) (hbody : parts.statement us body) :
    Function parts (t :: ts ++ u :: arrow :: us) ⟨names, body, t.position⟩

inductive Factor (parts : Parts) : Phrase Expression
  | atom {ts : List Token} {e : Expression} (he : Atom parts ts e) : Factor parts ts e
  | lambda {ts : List Token} {f : Lambda} (hf : Function parts ts f) : Factor parts ts (.lambda f)

/-- A factor, called any number of times. -/
inductive Call (factor expression : Phrase Expression) : Phrase Expression
  | factor {ts : List Token} {e : Expression} (he : factor ts e) : Call factor expression ts e
  | call {ts us : List Token} {t u : Token} {e : Expression} {given : List Expression}
    (he : Call factor expression ts e) (ht : t.kind = .parenOpen)
    (hgiven : Listed expression us given) (hu : u.kind = .parenClose) :
    Call factor expression (ts ++ t :: us ++ [u]) (.call e given t.position)

/-- A call, or an operand of a sign with the sign in front. -/
inductive Unary (call operand : Phrase Expression) : Phrase Expression
  | negate {ts : List Token} {t : Token} {e : Expression} (ht : t.kind = .minus)
    (he : operand ts e) : Unary call operand (t :: ts) (.negate e t.position)
  | call {ts : List Token} {e : Expression} (he : call ts e) : Unary call operand ts e

section
variable (operand : Phrase Expression)

def Product : Phrase Expression := LeftChain Kind.multiplicative? operand

def Sum : Phrase Expression := LeftChain Kind.additive? (Product operand)

def Coalescing : Phrase Expression := LeftChain Kind.coalescing? (Sum operand)

def Conjunction : Phrase Expression := LeftChain Kind.andOperator? (Comparison (Coalescing operand))

def Disjunction : Phrase Expression := LeftChain Kind.orOperator? (Conjunction operand)

end

/-- What the operators of an expression join. -/
def Operand (parts : Parts) : Phrase Expression :=
  Unary (Call (Factor parts) parts.expression) parts.unary

/-! ### Statements -/

inductive Guarded (statement : Phrase Statement) : Phrase Branch
  | branch {ts us : List Token} {guard body : Statement} (hguard : statement ts guard)
    (hbody : statement us body) : Guarded statement (ts ++ us) ⟨guard, body⟩

/-- `{'else' 'if' branch} ['else' statement]` -/
inductive Alternatives (branch : Phrase Branch) (statement : Phrase Statement) :
    Phrase (List Branch × Option Statement)
  | none : Alternatives branch statement [] ([], none)
  | otherwise {ts : List Token} {t : Token} {s : Statement} (ht : t.kind = .elseWord)
    (hs : statement ts s) : Alternatives branch statement (t :: ts) ([], some s)
  | elseIf {ts us : List Token} {t u : Token} {b : Branch} {bs : List Branch}
    {otherwise : Option Statement} (ht : t.kind = .elseWord) (hu : u.kind = .ifWord)
    (hb : branch ts b) (hbs : Alternatives branch statement us (bs, otherwise)) :
    Alternatives branch statement (t :: u :: ts ++ us) (b :: bs, otherwise)

inductive Sentence (parts : Parts) : Phrase Statement
  | condition {ts us : List Token} {t : Token} {b : Branch} {bs : List Branch}
    {otherwise : Option Statement} (ht : t.kind = .ifWord) (hb : Guarded parts.statement ts b)
    (hbs : Alternatives (Guarded parts.statement) parts.statement us (bs, otherwise)) :
    Sentence parts (t :: ts ++ us) (.condition (b :: bs) otherwise t.position)
  | loop {ts us : List Token} {t : Token} {guard body : Statement} (ht : t.kind = .loopWord)
    (hguard : parts.statement ts guard) (hbody : parts.statement us body) :
    Sentence parts (t :: ts ++ us) (.loop guard body t.position)
  | breakOut {t : Token} (ht : t.kind = .breakWord) :
    Sentence parts [t] (.breakOut none t.position)
  | breakWith {ts : List Token} {t : Token} {s : Statement} (ht : t.kind = .breakWord)
    (hs : parts.statement ts s) : Sentence parts (t :: ts) (.breakOut (some s) t.position)
  | bind {ts : List Token} {t u : Token} {s : Statement} {binding : Binding}
    (ht : t.kind = .identifier) (hu : Grammar.binding? u.kind = some binding)
    (hs : parts.statement ts s) : Sentence parts (t :: u :: ts) (.bind binding t.words s t.position)
  | expression {ts : List Token} {e : Expression} (he : parts.expression ts e) :
    Sentence parts ts (.expression e)

/-! ### Programs -/

/-- What can be derived with at most `n` levels of nesting. -/
def parts : (n : Nat) → Parts
  | 0 => ⟨fun _ _ => False, fun _ _ => False, fun _ _ => False⟩
  | n + 1 =>
    let sub := parts n
    ⟨Sentence sub, Disjunction (Operand sub), Operand sub⟩

/-- Statements that all end with a separator, and the end of text. A program stands where its
first token is, be it the end of text. -/
inductive Program (parts : Parts) : Phrase Block
  | program {ts rest : List Token} {first last : Token} {statements : List Statement}
    (hs : Sequence parts.statement true ts statements) (hlast : last.kind = .endOfText)
    (hfirst : ts ++ [last] = first :: rest) :
    Program parts (ts ++ [last]) ⟨statements, first.position⟩

end Phrase

end Lumen
