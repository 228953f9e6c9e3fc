import Lumen.Parser.Cursor
import Lumen.Syntax

/-! The grammar.

From the loosest to the tightest, expressions are built from `||`, `&&`, one comparison,
`??`, `+` and `-`, `*` and `/`, a sign in front, calls, and the factors: constants,
names, blocks, groups and functions. Chains associate to the left.

Statements, expressions and the operands of a sign nest. Each production reads its
nested parts through the `Layers` it is given, and `layers n` allows `n` more levels
below it; with no level left, reading a nested part fails at the next token. -/
namespace Lumen.Grammar
open Parse
open Token (Kind)

/-- How the nested parts of a production are read. -/
structure Layers where
  statement : Parse Statement
  expression : Parse Expression
  unary : Parse Expression

/-! ### Statements -/

/-- Statements up to `closer`, which is not taken. Inside a block the last one needs no
separator. -/
def sequence (sub : Layers) (closer : Kind) (lastNeedsSeparator : Bool) :
    Parse (List Statement) :=
  iterate id (fun statements => do
    if (← peekKind 0) = closer then
      return .done statements
    else
      let s ← sub.statement
      let kind ← peekKind 0
      if kind = .endOfStatement then
        let _ ← advance
        return .more (statements ++ [s])
      else if kind = closer ∧ !lastNeedsSeparator then
        return .done (statements ++ [s])
      else
        throw (.parse (← peek 0).position .missingSeparator)) []

/-- The binding that a token between a name and a value stands for. -/
def binding? : Kind → Option Binding
  | .assign => some .declare
  | .reassign => some .assign
  | .nullAssign => some .nullAssign
  | _ => none

def bindStatement (sub : Layers) (binding : Binding) : Parse Statement := do
  let target ← advance
  let _ ← advance
  let value ← sub.statement
  return .bind binding target.words value target.position

def branch (sub : Layers) : Parse Branch := do
  let guard ← sub.statement
  let body ← sub.statement
  return ⟨guard, body⟩

/-- What follows the first branch of a condition. -/
def furtherBranches (sub : Layers) (first : Branch) :
    Parse (List Branch × Option Statement) :=
  iterate (fun branches => (branches, none)) (fun branches => do
    if (← peekKind 0) = .elseWord then
      let _ ← advance
      if (← peekKind 0) = .ifWord then
        let _ ← advance
        return .more (branches ++ [← branch sub])
      else
        return .done (branches, some (← sub.statement))
    else
      return .done (branches, none)) [first]

def condition (sub : Layers) : Parse Statement := do
  let word ← expect .ifWord (.token .ifWord)
  let first ← branch sub
  let (branches, otherwise) ← furtherBranches sub first
  return .condition branches otherwise word.position

def loop (sub : Layers) : Parse Statement := do
  let word ← expect .loopWord (.token .loopWord)
  let guard ← sub.statement
  let body ← sub.statement
  return .loop guard body word.position

/-- Whether a break in front of such a token has no value. -/
def endsBreak : Kind → Bool
  | .endOfStatement | .braceClose | .endOfText | .elseWord => true
  | _ => false

def breakOut (sub : Layers) : Parse Statement := do
  let word ← expect .breakWord (.token .breakWord)
  if endsBreak (← peekKind 0) then
    return .breakOut none word.position
  else
    return .breakOut (some (← sub.statement)) word.position

def statement (sub : Layers) : Parse Statement := do
  match ← peekKind 0 with
  | .ifWord => condition sub
  | .loopWord => loop sub
  | .breakWord => breakOut sub
  | .identifier =>
    match binding? (← peekKind 1) with
    | some binding => bindStatement sub binding
    | none => return .expression (← sub.expression)
  | _ => return .expression (← sub.expression)

/-! ### Factors -/

def block (sub : Layers) : Parse Block := do
  let brace ← expect .braceOpen (.token .braceOpen)
  let statements ← sequence sub .braceClose false
  let _ ← expect .braceClose (.token .braceClose)
  return ⟨statements, brace.position⟩

/-- Whether names separated by commas, a parenthesis and an arrow follow the parenthesis
that is next. -/
def parametersAhead : Parse Bool :=
  iterate (fun _ => false) (fun index => do
    if (← peekKind index) = .identifier then
      match ← peekKind (index + 1) with
      | .comma => return .more (index + 2)
      | .parenClose => return .done ((← peekKind (index + 2)) = .arrow)
      | _ => return .done false
    else
      return .done false) 1

/-- Whether the parenthesis that is next opens the parameters of a function. -/
def lambdaAhead : Parse Bool := do
  if (← peekKind 1) = .parenClose then
    return (← peekKind 2) = .arrow
  else
    parametersAhead

def parameters : Parse (List String) :=
  iterate id (fun names => do
    if (← peekKind 0) = .parenClose then
      return .done names
    else
      let name ← expect .identifier .parameterName
      skip .comma
      return .more (names ++ [name.words])) []

def lambda (sub : Layers) : Parse Expression := do
  let paren ← expect .parenOpen (.token .parenOpen)
  let names ← parameters
  let _ ← expect .parenClose (.token .parenClose)
  let _ ← expect .arrow (.token .arrow)
  let body ← sub.statement
  return .lambda ⟨names, body, paren.position⟩

def group (sub : Layers) : Parse Expression := do
  let _ ← advance
  let inner ← sub.expression
  let _ ← expect .parenClose (.token .parenClose)
  return inner

/-- The constant that a literal token carries. -/
def literalOf : Token.Payload → Literal
  | .integer n => .integer n
  | .text s => .text s
  | .boolean b => .boolean b
  | .none => .null

def constant : Parse Expression := do
  let t ← advance
  return .constant (literalOf t.value) t.position

def reference : Parse Expression := do
  let t ← advance
  return .reference t.words t.position

def factor (sub : Layers) : Parse Expression := do
  match ← peekKind 0 with
  | .integer | .text | .boolean | .null => constant
  | .identifier => reference
  | .braceOpen => return .block (← block sub)
  | .parenOpen => if ← lambdaAhead then lambda sub else group sub
  | _ => unexpected .expression

/-! ### Calls, signs and chains -/

def arguments (sub : Layers) : Parse (List Expression) := do
  if (← peekKind 0) = .parenClose then
    return []
  else
    iterate id (fun given => do
      let e ← sub.expression
      if (← peekKind 0) = .comma then
        let _ ← advance
        return .more (given ++ [e])
      else
        return .done (given ++ [e])) []

def call (sub : Layers) : Parse Expression := do
  let first ← factor sub
  iterate id (fun callee => do
    if (← peekKind 0) = .parenOpen then
      let paren ← advance
      let given ← arguments sub
      let _ ← expect .parenClose .argumentsEnd
      return .more (.call callee given paren.position)
    else
      return .done callee) first

def unary (sub : Layers) : Parse Expression := do
  if (← peekKind 0) = .minus then
    let sign ← advance
    return .negate (← sub.unary) sign.position
  else
    call sub

/-- Operands joined by operators of one level, to the left. -/
def leftChain (operator? : Kind → Option Operator) (operand : Parse Expression) :
    Parse Expression := do
  let first ← operand
  iterate id (fun left => do
    match operator? (← peekKind 0) with
    | none => return .done left
    | some operator =>
      let sign ← advance
      let right ← operand
      return .more (.binary operator left right sign.position)) first

def multiplicative (sub : Layers) : Parse Expression :=
  leftChain Kind.multiplicative? (unary sub)

def additive (sub : Layers) : Parse Expression :=
  leftChain Kind.additive? (multiplicative sub)

def coalescing (sub : Layers) : Parse Expression :=
  leftChain Kind.coalescing? (additive sub)

/-- One comparison at most: comparisons do not chain. -/
def comparison (sub : Layers) : Parse Expression := do
  let left ← coalescing sub
  match Kind.comparison? (← peekKind 0) with
  | none => return left
  | some operator =>
    let sign ← advance
    let right ← coalescing sub
    return .binary operator left right sign.position

def conjunction (sub : Layers) : Parse Expression :=
  leftChain Kind.andOperator? (comparison sub)

def disjunction (sub : Layers) : Parse Expression :=
  leftChain Kind.orOperator? (conjunction sub)

/-! ### Nesting -/

/-- Reading a nested part with no level left fails at the next token. -/
def tooDeep {α : Type} : Parse α := do
  throw (.parse (← peek 0).position .nestingLimit)

/-- The parts of a production that has `n` levels left below it. -/
def layers : (n : Nat) → Layers
  | 0 => ⟨tooDeep, tooDeep, tooDeep⟩
  | n + 1 =>
    let sub := layers n
    ⟨statement sub, disjunction sub, unary sub⟩

/-- A whole program: every statement, the last one too, ends with a separator. -/
def program (sub : Layers) : Parse Block := do
  let first ← peek 0
  let statements ← sequence sub .endOfText true
  return ⟨statements, first.position⟩

end Lumen.Grammar
