import Lumen.Symbol
import Lumen.Text.Alphabetic
import Lumen.Text.Numeric
import Lumen.Token.Kind

/-! The automata that recognise tokens.

Each lexical category is a small state machine that reads one symbol at a time and
says whether what it has read so far is a token, may become one, or cannot. Fixed
spellings, integers, texts, comments and identifiers each have their own machine;
`initialSet` lists a fresh one of each in order of precedence. -/
namespace Lumen.Token

/-- The longest content of a text or a comment. -/
def maxContent : Nat := 255

/-- The largest integer that can be written. -/
def maxInteger : Nat := 2147483647

/-- Input that no token can begin with. -/
inductive Fault where
  | unterminatedText
  | textTooLong
  | commentTooLong
  | integerTooLarge
  deriving DecidableEq, Repr

def Fault.message : Fault → String
  | .unterminatedText => "Unterminated string literal, expected closing quote"
  | .textTooLong => "String literal exceeds " ++ toString maxContent ++ " characters"
  | .commentTooLong => "Comment exceeds " ++ toString maxContent ++ " characters"
  | .integerTooLarge => "Integer literal exceeds " ++ toString maxInteger

/-- The verdict of an automaton on the symbols that it has read. -/
inductive Status where
  /-- Not the beginning of a token of this category. -/
  | deny
  /-- The beginning of a token, not yet a whole one. -/
  | possible
  /-- A whole token, which may still grow. -/
  | completed
  /-- Input that cannot be part of any program. -/
  | fault (f : Fault)
  deriving DecidableEq, Repr

/-- A token that is always written the same way. -/
structure Spelling where
  letters : List Char
  kind : Kind
  deriving DecidableEq, Repr

/-- The fixed spellings. Of two that match equally much, the earlier wins. -/
def spellings : List Spelling :=
  [⟨['i', 'f'], .ifWord⟩,
   ⟨['e', 'l', 's', 'e'], .elseWord⟩,
   ⟨['l', 'o', 'o', 'p'], .loopWord⟩,
   ⟨['b', 'r', 'e', 'a', 'k'], .breakWord⟩,
   ⟨['t', 'r', 'u', 'e'], .boolean⟩,
   ⟨['f', 'a', 'l', 's', 'e'], .boolean⟩,
   ⟨['n', 'u', 'l', 'l'], .null⟩,
   ⟨[';'], .endOfStatement⟩,
   ⟨[','], .comma⟩,
   ⟨['('], .parenOpen⟩,
   ⟨[')'], .parenClose⟩,
   ⟨['\x7b'], .braceOpen⟩,
   ⟨['\x7d'], .braceClose⟩,
   ⟨['=', '='], .equal⟩,
   ⟨['!', '='], .notEqual⟩,
   ⟨['<'], .less⟩,
   ⟨['<', '='], .lessEqual⟩,
   ⟨['>'], .greater⟩,
   ⟨['>', '='], .greaterEqual⟩,
   ⟨['&', '&'], .and⟩,
   ⟨['|', '|'], .or⟩,
   ⟨['+'], .plus⟩,
   ⟨['-'], .minus⟩,
   ⟨['*'], .multiply⟩,
   ⟨['/'], .divide⟩,
   ⟨['=', '>'], .arrow⟩,
   ⟨['='], .assign⟩,
   ⟨[':', '='], .reassign⟩,
   ⟨['?', '?', '='], .nullAssign⟩,
   ⟨['?', '?'], .nullCoalescing⟩]

/-- How far a text literal has been read. -/
inductive TextPhase where
  | fresh
  | inside (content : Nat)
  | closed (content : Nat)
  deriving DecidableEq, Repr

/-- How far a comment has been read. -/
inductive CommentPhase where
  | fresh
  | inside (content : Nat)
  deriving DecidableEq, Repr

inductive Automaton where
  | fixed (spelling : Spelling) (matched : Nat)
  | integer (value : UInt64) (length : Nat) (leadingZero : Bool)
  | text (phase : TextPhase)
  | comment (phase : CommentPhase)
  | identifier (length : Nat)
  deriving DecidableEq, Repr

/-- A character that an identifier may begin with. -/
def isIdentifierStart (c : Char) : Bool := Text.isAlphabetic c || c == '_'

/-- A character that an identifier may go on with. -/
def isIdentifierPart (c : Char) : Bool := isIdentifierStart c || Text.isNumeric c

/-- The value of a decimal digit. -/
def digitValue (c : Char) : UInt64 := (c.toNat - '0'.toNat).toUInt64

namespace Automaton

/-- Fresh automata of every category, in order of precedence. -/
def initialSet : List Automaton :=
  spellings.map (fixed · 0) ++
    [integer 0 0 false, text .fresh, comment .fresh, identifier 0]

/-- The kind of token that an automaton recognises. -/
def kind : Automaton → Kind
  | fixed spelling _ => spelling.kind
  | integer .. => .integer
  | text _ => .text
  | comment _ => .comment
  | identifier _ => .identifier

def stepFixed (spelling : Spelling) (matched : Nat) : Symbol → Automaton × Status
  | .char c =>
    if spelling.letters[matched]? = some c then
      (fixed spelling (matched + 1),
        if matched + 1 = spelling.letters.length then .completed else .possible)
    else (fixed spelling matched, .deny)
  | _ => (fixed spelling matched, .deny)

/-- A zero in front is a whole token, so no digit may follow it. -/
def stepInteger (value : UInt64) (length : Nat) (leadingZero : Bool) :
    Symbol → Automaton × Status
  | .char c =>
    if c.isDigit && !leadingZero then
      let value' := value * 10 + digitValue c
      (integer value' (length + 1) (length == 0 && digitValue c == 0),
        if maxInteger < value'.toNat then .fault .integerTooLarge else .completed)
    else (integer value length leadingZero, .deny)
  | _ => (integer value length leadingZero, .deny)

def stepText : TextPhase → Symbol → Automaton × Status
  | .closed content, _ => (text (.closed content), .deny)
  | .fresh, .char '"' => (text (.inside 0), .possible)
  | .fresh, _ => (text .fresh, .deny)
  | .inside content, .char '"' => (text (.closed content), .completed)
  | .inside content, .newline | .inside content, .endOfText =>
    (text (.inside content), .fault .unterminatedText)
  | .inside content, _ =>
    (text (.inside (content + 1)),
      if maxContent < content + 1 then .fault .textTooLong else .possible)

def stepComment : CommentPhase → Symbol → Automaton × Status
  | .fresh, .char '#' => (comment (.inside 0), .completed)
  | .fresh, _ => (comment .fresh, .deny)
  | .inside content, .newline | .inside content, .endOfText =>
    (comment (.inside content), .deny)
  | .inside content, _ =>
    (comment (.inside (content + 1)),
      if maxContent < content + 1 then .fault .commentTooLong else .completed)

def stepIdentifier (length : Nat) : Symbol → Automaton × Status
  | .char c =>
    if (if length = 0 then isIdentifierStart c else isIdentifierPart c) then
      (identifier (length + 1), .completed)
    else (identifier length, .deny)
  | _ => (identifier length, .deny)

/-- Reads one symbol. -/
def step : Automaton → Symbol → Automaton × Status
  | fixed spelling matched => stepFixed spelling matched
  | integer value length leadingZero => stepInteger value length leadingZero
  | text phase => stepText phase
  | comment phase => stepComment phase
  | identifier length => stepIdentifier length

end Automaton

end Lumen.Token
