import Lumen.Parser

/-! The parser with every moment of its work.

A parser asks the lexer for one token after the other, keeps those that it has looked at in a
queue, and counts the nested parts that it is in. A recorded parser is one that writes down, at
every change of these, what it had before. It is built from the same productions as the parser
itself, but it has no bound on its loops, on how deep it calls itself or on the comments that it
passes over: each of them may take a given number of turns, and is stuck when it wants more. So is
a parser that looks at a place outside its queue.

`Resumption` shows that a recorded parser does not get stuck and does what the parser does, so that
a fact about the moments of a record is a fact about the parser at all times. -/
namespace Lumen
open Token (Kind)

/-- What a parser has at one moment. -/
structure Moment where
  lexer : Lexer
  /-- What the lexer has returned so far. -/
  returned : List (Except Error Token)
  /-- Tokens looked at, the next one first. -/
  ahead : List Token
  /-- Tokens taken so far. -/
  taken : List Token
  /-- How many nested parts are being read. -/
  depth : Nat

namespace Moment

def ofSource (source : String) : Moment := ⟨.ofSource source, [], [], [], 0⟩

/-- The lexer has been asked once more. -/
def asked (m : Moment) : Moment :=
  { m with lexer := m.lexer.next.2, returned := m.returned ++ [m.lexer.next.1] }

def queued (t : Token) (m : Moment) : Moment := { m with ahead := m.ahead ++ [t] }

def handedOut (t : Token) (m : Moment) : Moment := { m with taken := m.taken ++ [t] }

end Moment

/-- What a parser has, and what it had before, the last moment first. -/
structure History where
  now : Moment
  past : List Moment

namespace History

def ofSource (source : String) : History := ⟨.ofSource source, []⟩

def moments (h : History) : List Moment := h.now :: h.past

def add (m : Moment) (h : History) : History := ⟨m, h.moments⟩

def enter (h : History) : History := h.add { h.now with depth := h.now.depth + 1 }

def leave (h : History) : History := h.add { h.now with depth := h.now.depth - 1 }

end History

/-- Why a recorded parser ends without a result. -/
inductive Halt where
  | failed (e : Error)
  | stuck

/-- A recorded reading. The number is that of the turns that its loops may take. -/
abbrev Recorded := ReaderT Nat (EStateM Halt History)

namespace Recorded
open Parse (Progress)
open Grammar (binding? endsBreak literalOf)
variable {α β : Type}

def fail (e : Error) : Recorded α := throw (.failed e)

/-! ### Tokens -/

/-- Asks the lexer until it returns a token that is not a comment, which is put in its place at
once. -/
def fetch (place : Token → Moment → Moment) : (turns : Nat) → EStateM Halt History Token
  | 0, h => .error .stuck h
  | turns + 1, h =>
    match h.now.lexer.next.1 with
    | .error e => .error (.failed e) (h.add h.now.asked)
    | .ok t =>
      if t.kind = .comment then fetch place turns (h.add h.now.asked)
      else .ok t (h.add (place t h.now.asked))

def lookFurther : (count : Nat) → Recorded Unit
  | 0 => pure ()
  | count + 1 => do
    let _ ← fetch .queued (← read)
    lookFurther count

def peek (n : Nat) : Recorded Token := do
  lookFurther (n + 1 - (← get).now.ahead.length)
  match (← get).now.ahead[n]? with
  | some t => return t
  | none => throw .stuck

def peekKind (n : Nat) : Recorded Kind := do
  return (← peek n).kind

def advance : Recorded Token := fun turns h =>
  match h.now.ahead with
  | t :: rest => .ok t (h.add { h.now with ahead := rest, taken := h.now.taken ++ [t] })
  | [] => fetch .handedOut turns h

def unexpected (what : Expectation) : Recorded α := do
  let t ← peek 0
  fail (.parse t.position (.expected what t.kind))

def expect (kind : Kind) (what : Expectation) : Recorded Token := do
  if (← peekKind 0) = kind then advance else unexpected what

def skip (kind : Kind) : Recorded Unit := do
  if (← peekKind 0) = kind then
    let _ ← advance
    return ()
  else
    return ()

/-! ### Repetition and nesting -/

def repeatUpTo (step : α → Recorded (Progress α β)) : (turns : Nat) → α → Recorded β
  | 0, _ => throw .stuck
  | turns + 1, a => do
    match ← step a with
    | .done b => pure b
    | .more a => repeatUpTo step turns a

def iterate (step : α → Recorded (Progress α β)) (a : α) : Recorded β := do
  repeatUpTo step (← read) a

def tooDeep : Recorded α := do
  fail (.parse (← peek 0).position .nestingLimit)

/-- Reads a part one level deeper, and comes back from there however that ends. -/
def nested (limit : Nat) (part : Recorded α) : Recorded α := fun turns h =>
  if limit ≤ h.now.depth then tooDeep turns h
  else
    match part turns h.enter with
    | .ok a h => .ok a h.leave
    | .error halt h => .error halt h.leave

/-! ### Statements -/

/-- How the nested parts of a production are read. -/
structure Layers where
  statement : Recorded Statement
  expression : Recorded Expression
  unary : Recorded Expression

def sequence (sub : Layers) (closer : Kind) (lastNeedsSeparator : Bool) :
    Recorded (List Statement) :=
  iterate (fun statements => do
    if (← peekKind 0) = closer then
      return .done statements
    else
      let s ← sub.statement
      let kind ← peekKind 0
      if kind = .endOfStatement then
        let _ ← advance
        return .more (statements ++ [s])
      else if kind = closer ∧ !lastNeedsSeparator then
        return .done (statements ++ [s])
      else
        fail (.parse (← peek 0).position .missingSeparator)) []

def bindStatement (sub : Layers) (binding : Binding) : Recorded Statement := do
  let target ← advance
  let _ ← advance
  let value ← sub.statement
  return .bind binding target.words value target.position

def branch (sub : Layers) : Recorded Branch := do
  let guard ← sub.statement
  let body ← sub.statement
  return ⟨guard, body⟩

def furtherBranches (sub : Layers) (first : Branch) :
    Recorded (List Branch × Option Statement) :=
  iterate (fun branches => do
    if (← peekKind 0) = .elseWord then
      let _ ← advance
      if (← peekKind 0) = .ifWord then
        let _ ← advance
        return .more (branches ++ [← branch sub])
      else
        return .done (branches, some (← sub.statement))
    else
      return .done (branches, none)) [first]

def condition (sub : Layers) : Recorded Statement := do
  let word ← expect .ifWord (.token .ifWord)
  let first ← branch sub
  let (branches, otherwise) ← furtherBranches sub first
  return .condition branches otherwise word.position

def loop (sub : Layers) : Recorded Statement := do
  let word ← expect .loopWord (.token .loopWord)
  let guard ← sub.statement
  let body ← sub.statement
  return .loop guard body word.position

def breakOut (sub : Layers) : Recorded Statement := do
  let word ← expect .breakWord (.token .breakWord)
  if endsBreak (← peekKind 0) then
    return .breakOut none word.position
  else
    return .breakOut (some (← sub.statement)) word.position

def statement (sub : Layers) : Recorded Statement := do
  match ← peekKind 0 with
  | .ifWord => condition sub
  | .loopWord => loop sub
  | .breakWord => breakOut sub
  | .identifier =>
    match binding? (← peekKind 1) with
    | some binding => bindStatement sub binding
    | none => return .expression (← sub.expression)
  | _ => return .expression (← sub.expression)

/-! ### Factors -/

def block (sub : Layers) : Recorded Block := do
  let brace ← expect .braceOpen (.token .braceOpen)
  let statements ← sequence sub .braceClose false
  let _ ← expect .braceClose (.token .braceClose)
  return ⟨statements, brace.position⟩

def parametersAhead : Recorded Bool :=
  iterate (fun index => do
    if (← peekKind index) = .identifier then
      match ← peekKind (index + 1) with
      | .comma => return .more (index + 2)
      | .parenClose => return .done ((← peekKind (index + 2)) = .arrow)
      | _ => return .done false
    else
      return .done false) 1

def lambdaAhead : Recorded Bool := do
  if (← peekKind 1) = .parenClose then
    return (← peekKind 2) = .arrow
  else
    parametersAhead

def parameters : Recorded (List String) :=
  iterate (fun names => do
    if (← peekKind 0) = .parenClose then
      return .done names
    else
      let name ← expect .identifier .parameterName
      skip .comma
      return .more (names ++ [name.words])) []

def lambda (sub : Layers) : Recorded Expression := do
  let paren ← expect .parenOpen (.token .parenOpen)
  let names ← parameters
  let _ ← expect .parenClose (.token .parenClose)
  let _ ← expect .arrow (.token .arrow)
  let body ← sub.statement
  return .lambda ⟨names, body, paren.position⟩

def group (sub : Layers) : Recorded Expression := do
  let _ ← advance
  let inner ← sub.expression
  let _ ← expect .parenClose (.token .parenClose)
  return inner

def constant : Recorded Expression := do
  let t ← advance
  return .constant (literalOf t.value) t.position

def reference : Recorded Expression := do
  let t ← advance
  return .reference t.words t.position

def factor (sub : Layers) : Recorded Expression := do
  match ← peekKind 0 with
  | .integer | .text | .boolean | .null => constant
  | .identifier => reference
  | .braceOpen => return .block (← block sub)
  | .parenOpen => if ← lambdaAhead then lambda sub else group sub
  | _ => unexpected .expression

/-! ### Calls, signs and chains -/

def arguments (sub : Layers) : Recorded (List Expression) := do
  if (← peekKind 0) = .parenClose then
    return []
  else
    iterate (fun given => do
      let e ← sub.expression
      if (← peekKind 0) = .comma then
        let _ ← advance
        return .more (given ++ [e])
      else
        return .done (given ++ [e])) []

def call (sub : Layers) : Recorded Expression := do
  let first ← factor sub
  iterate (fun callee => do
    if (← peekKind 0) = .parenOpen then
      let paren ← advance
      let given ← arguments sub
      let _ ← expect .parenClose .argumentsEnd
      return .more (.call callee given paren.position)
    else
      return .done callee) first

def unary (sub : Layers) : Recorded Expression := do
  if (← peekKind 0) = .minus then
    let sign ← advance
    return .negate (← sub.unary) sign.position
  else
    call sub

def leftChain (operator? : Kind → Option Operator) (operand : Recorded Expression) :
    Recorded Expression := do
  let first ← operand
  iterate (fun left => do
    match operator? (← peekKind 0) with
    | none => return .done left
    | some operator =>
      let sign ← advance
      let right ← operand
      return .more (.binary operator left right sign.position)) first

def multiplicative (sub : Layers) : Recorded Expression :=
  leftChain Kind.multiplicative? (unary sub)

def additive (sub : Layers) : Recorded Expression :=
  leftChain Kind.additive? (multiplicative sub)

def coalescing (sub : Layers) : Recorded Expression :=
  leftChain Kind.coalescing? (additive sub)

def comparison (sub : Layers) : Recorded Expression := do
  let left ← coalescing sub
  match Kind.comparison? (← peekKind 0) with
  | none => return left
  | some operator =>
    let sign ← advance
    let right ← coalescing sub
    return .binary operator left right sign.position

def conjunction (sub : Layers) : Recorded Expression :=
  leftChain Kind.andOperator? (comparison sub)

def disjunction (sub : Layers) : Recorded Expression :=
  leftChain Kind.orOperator? (conjunction sub)

/-! ### Whole readings -/

/-- The parts of a production that may call itself so many times. -/
def layers (limit : Nat) : (turns : Nat) → Layers
  | 0 => ⟨throw .stuck, throw .stuck, throw .stuck⟩
  | turns + 1 =>
    let sub := layers limit turns
    ⟨nested limit (statement sub), nested limit (disjunction sub), nested limit (unary sub)⟩

def program (sub : Layers) : Recorded Block := do
  let first ← peek 0
  let statements ← sequence sub .endOfText true
  return ⟨statements, first.position⟩

end Recorded

namespace Parser

/-- What can be asked of a parser. -/
inductive Call where
  | program
  | expression
  | block
  deriving DecidableEq, Repr

/-- What a parser answers. -/
inductive Answer where
  | block (b : Block)
  | expression (e : Expression)

/-- Answers a call. -/
def Call.answer : Call → Parse Answer
  | program => return .block (← Parser.program)
  | expression => return .expression (← Parser.expression)
  | block => return .block (← Parser.block)

/-- Answers a call and records how. -/
def Call.record (call : Call) : Recorded Answer := do
  let sub := Recorded.layers maxNesting (← read)
  match call with
  | program => return .block (← Recorded.program sub)
  | expression => return .expression (← sub.expression)
  | block => return .block (← Recorded.block sub)

/-- Answers one call after the other, whether they fail or not: each answer with the state that it
leaves. -/
def inTurn {ε σ : Type} (answer : Call → EStateM ε σ Answer) :
    List Call → σ → List (Except ε Answer × σ)
  | [], _ => []
  | call :: calls, s =>
    match answer call s with
    | .ok a s => (.ok a, s) :: inTurn answer calls s
    | .error e s => (.error e, s) :: inTurn answer calls s

end Parser

end Lumen
