import Lumen.Token.Stream

/-! The reader of a grammar: a token stream with tokens looked at but not yet taken.

`peek` looks any number of tokens ahead, `advance` takes the next one. Both pass over
comments, and both surface a failure of the lexer as soon as they run into it. A failed
reading keeps its cursor: tokens looked at stay where they are, and a failure of the
lexer is met only once. -/
namespace Lumen

structure Cursor where
  /-- Tokens looked at, the next one first. -/
  ahead : List Token
  stream : Token.Stream

/-- A reading moves the cursor, whether it succeeds or fails. -/
abbrev Parse := EStateM Error Cursor

namespace Cursor

def ofStream (stream : Token.Stream) : Cursor := ⟨[], stream⟩

def ofSource (source : String) : Cursor := ofStream (.ofSource source)

/-- A bound on the tokens left before the end of text. -/
def size (c : Cursor) : Nat := c.ahead.length + c.stream.pending.length

end Cursor

namespace Parse
open Token (Kind)

/-! ### Tokens -/

/-- The next token of the stream behind those looked at. -/
def pull : Parse Token := fun c =>
  match c.stream.pull with
  | (.ok t, stream) => .ok t { c with stream }
  | (.error e, stream) => .error e { c with stream }

/-- Looks at `count` more tokens. -/
def lookFurther : (count : Nat) → Parse Unit
  | 0 => pure ()
  | count + 1 => do
    let t ← pull
    modify fun c => { c with ahead := c.ahead ++ [t] }
    lookFurther count

/-- The token `n` places behind the next one. -/
def peek (n : Nat) : Parse Token := do
  lookFurther (n + 1 - (← get).ahead.length)
  let c ← get
  return c.ahead.getD n (.endAt c.stream.finish)

def peekKind (n : Nat) : Parse Kind := do
  return (← peek n).kind

/-- Takes the next token. -/
def advance : Parse Token := fun c =>
  match c.ahead with
  | t :: rest => .ok t { c with ahead := rest }
  | [] => pull c

/-- Fails at the next token, which is not `what` was asked for. -/
def unexpected {α : Type} (what : Expectation) : Parse α := do
  let t ← peek 0
  throw (.parse t.position (.expected what t.kind))

/-- Takes the next token if it has the kind asked for. -/
def expect (kind : Kind) (what : Expectation) : Parse Token := do
  if (← peekKind 0) = kind then advance else unexpected what

/-- Takes the next token if it has a kind that may be left out. -/
def skip (kind : Kind) : Parse Unit := do
  if (← peekKind 0) = kind then
    let _ ← advance
    return ()
  else
    return ()

/-! ### Repetition -/

/-- A step of a repetition leads to another one or ends it. -/
inductive Progress (α β : Type) where
  | more (a : α)
  | done (b : β)

/-- Takes steps until one ends the repetition, `limit` of them at most. -/
def repeatUpTo {α β : Type} (giveUp : α → β) (step : α → Parse (Progress α β)) :
    (limit : Nat) → α → Parse β
  | 0, a => pure (giveUp a)
  | limit + 1, a => do
    match ← step a with
    | .done b => pure b
    | .more a => repeatUpTo giveUp step limit a

/-- Takes steps until one ends the repetition. Every step that leads to another one moves
past a token, so the tokens left bound their number. -/
def iterate {α β : Type} (giveUp : α → β) (step : α → Parse (Progress α β)) (a : α) :
    Parse β := do
  repeatUpTo giveUp step ((← get).size + 1) a

end Parse

end Lumen
