import Lumen.Error
import Lumen.Token

/-! The lexer: from scanned items to tokens.

After the blanks, every automaton reads the same symbols side by side until none is
left alive. The longest text that some automaton completed is the token; of several
that complete it, the first in `Automaton.initialSet` decides its kind. A fault stops
the race at once. A failed attempt uses up the items that were read, so a later one
goes on behind them; the end of text is shown to the automata but never used up. -/
namespace Lumen

/-- What is left to read, and where the text ends. -/
structure Lexer where
  rest : List Scanned
  finish : Position
  deriving Repr

namespace Lexer
open Token (Automaton Fault)

def ofSource (source : String) : Lexer :=
  let items := scan source
  ⟨items, placeAfter .start items⟩

/-! ### The race of the automata -/

/-- What one symbol leaves of the automata, and the first of those that completed. -/
structure Round where
  survivors : List Automaton
  completed : Option Automaton

/-- Shows a symbol to every automaton. The first fault wins. -/
def feed (symbol : Symbol) : List Automaton → Except Fault Round
  | [] => .ok ⟨[], none⟩
  | a :: rest =>
    match a.step symbol with
    | (_, .deny) => feed symbol rest
    | (_, .fault f) => .error f
    | (next, .possible) =>
      (feed symbol rest).map fun r => ⟨next :: r.survivors, r.completed⟩
    | (next, .completed) =>
      (feed symbol rest).map fun r => ⟨next :: r.survivors, some next⟩

/-- The automaton that completed last, and how many items it had read by then. -/
abbrev Best := Option (Automaton × Nat)

/-- The end of a race: a fault or the best match, and how many items were used up. -/
abbrev Verdict := Except Fault Best × Nat

/-- Runs the race over the items left, `used` of which have been read before. -/
def race (live : List Automaton) (best : Best) (used : Nat) : List Scanned → Verdict
  | [] =>
    match feed .endOfText live with
    | .error f => (.error f, used)
    | .ok _ => (.ok best, used)
  | s :: rest =>
    if live.isEmpty then (.ok best, used)
    else
      match feed s.symbol live with
      | .error f => (.error f, used + 1)
      | .ok round =>
        let best := match round.completed with
          | some a => some (a, used + 1)
          | none => best
        race round.survivors best (used + 1) rest

/-! ### Tokens -/

/-- The raw characters of some items. -/
def rawText (items : List Scanned) : String := String.ofList (items.map (·.raw))

/-- The value of a token that `winner` recognised in `items`. The quotes of a text and
the sign in front of a comment are not part of it. -/
def valueOf (winner : Automaton) (items : List Scanned) : Token.Payload :=
  match winner with
  | .fixed spelling _ =>
    if spelling.kind = .boolean then .boolean (spelling.letters == ['t', 'r', 'u', 'e'])
    else .none
  | .integer value _ _ => .integer (Int32.ofNat value.toNat)
  | .identifier _ => .text (rawText items)
  | .text _ => .text (rawText (items.drop 1).dropLast)
  | .comment _ => .text (rawText (items.drop 1))

/-- Drops the blanks in front. -/
def skipBlanks (l : Lexer) : Lexer := { l with rest := l.rest.dropWhile (·.isBlank) }

/-- Reads a token that begins with the item `first`. -/
def readToken (first : Scanned) (l : Lexer) : Except Error Token × Lexer :=
  match race Automaton.initialSet none 0 l.rest with
  | (.error f, used) =>
    (.error (.lex first.position (.fault f)), { l with rest := l.rest.drop used })
  | (.ok none, used) =>
    (.error (.lex first.position (.unexpected first.raw)), { l with rest := l.rest.drop used })
  | (.ok (some (winner, length)), _) =>
    (.ok ⟨winner.kind, valueOf winner (l.rest.take length), first.position, length⟩,
      { l with rest := l.rest.drop length })

/-- The next token. Past the last one there is an end of text, over and over. -/
def next (l : Lexer) : Except Error Token × Lexer :=
  let l := l.skipBlanks
  match l.rest with
  | [] => (.ok (.endAt l.finish), l)
  | first :: _ => l.readToken first

/-- What the next `count` attempts give, whether they fail or not. -/
def pull : Nat → Lexer → List (Except Error Token)
  | 0, _ => []
  | count + 1, l =>
    let (result, l) := l.next
    result :: pull count l

/-- What the attempts before the end of text give, `limit` of them at most. -/
def drain : Nat → Lexer → List (Except Error Token)
  | 0, _ => []
  | limit + 1, l =>
    match l.skipBlanks.rest with
    | [] => []
    | _ :: _ =>
      let (result, l) := l.next
      result :: drain limit l

end Lexer

end Lumen
