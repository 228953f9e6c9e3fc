import Lumen.Token.Lexer

/-! What tokens look like.

The lexical grammar, without a word on how it is recognised: for every category the texts
that are its lexemes (`Category.spells`), the inputs that no program may contain
(`Category.fault`), and the value that a lexeme stands for (`Category.value`). A text
begins with the longest of the lexemes in front of it, and of several categories that
share it, the first one in the order of precedence counts (`Lexer.munch`). The spellings
and the bounds are shared with the automata, so they are written out once
(`spellings_eq`, `maxContent_eq`, `maxInteger_eq`). -/
namespace Lumen
open Token

namespace Symbol

/-- The character that a symbol shows. -/
def char? : Symbol → Option Char
  | char c => some c
  | _ => none

def isDigit (s : Symbol) : Bool := s.char?.any Char.isDigit

def isPart (s : Symbol) : Bool := s.char?.any isIdentifierPart

/-- A symbol that does not end its line. -/
def staysInLine (s : Symbol) : Bool := s != .newline && s != .endOfText

/-- A symbol that a text literal may contain. -/
def isContent (s : Symbol) : Bool := s.staysInLine && s != .char '"'

/-- The number that some digits write behind those of `n`. -/
def decimalFrom (n : Nat) (digits : List Symbol) : Nat :=
  Nat.ofDigitChars 10 (digits.filterMap char?) n

/-- The number that some digits write. -/
def decimal (digits : List Symbol) : Nat := decimalFrom 0 digits

end Symbol

namespace Token

/-- The fixed spellings and their kinds, in the order of precedence. -/
theorem spellings_eq : spellings.map (fun s => (String.ofList s.letters, s.kind)) =
    [("if", .ifWord), ("else", .elseWord), ("loop", .loopWord), ("break", .breakWord),
      ("true", .boolean), ("false", .boolean), ("null", .null), (";", .endOfStatement),
      (",", .comma), ("(", .parenOpen), (")", .parenClose), ("\x7b", .braceOpen),
      ("\x7d", .braceClose), ("==", .equal), ("!=", .notEqual), ("<", .less), ("<=", .lessEqual),
      (">", .greater), (">=", .greaterEqual), ("&&", .and), ("||", .or), ("+", .plus),
      ("-", .minus), ("*", .multiply), ("/", .divide), ("=>", .arrow), ("=", .assign),
      (":=", .reassign), ("??=", .nullAssign), ("??", .nullCoalescing)] := by
  decide

theorem maxContent_eq : maxContent = 255 := rfl

theorem maxInteger_eq : maxInteger = 2147483647 := rfl

/-- A token that is always written the same way is named by how it is written. -/
theorem describe_of_mem_spellings {s : Spelling} (h : s ∈ spellings) (hkind : s.kind ≠ .boolean) :
    s.kind.describe = "'" ++ String.ofList s.letters ++ "'" := by
  have hall : spellings.all fun s =>
      s.kind == .boolean || s.kind.describe == "'" ++ String.ofList s.letters ++ "'" := by
    decide +kernel
  have hs := List.all_eq_true.mp hall s h
  simpa [hkind] using hs

/-- The categories of tokens. -/
inductive Category where
  | fixed (spelling : Spelling)
  | integer
  | text
  | comment
  | identifier
  deriving DecidableEq, Repr

namespace Category

/-- All categories, in order of precedence. -/
def all : List Category := spellings.map fixed ++ [integer, text, comment, identifier]

def kind : Category → Kind
  | fixed spelling => spelling.kind
  | integer => .integer
  | text => .text
  | comment => .comment
  | identifier => .identifier

/-- The lexemes of a category. A number has no leading zero, a text ends with the first
quote behind the one that opens it, and a comment does not leave its line. -/
def spells : Category → List Symbol → Bool
  | fixed spelling, w => w == spelling.letters.map .char
  | integer, first :: rest =>
    first.isDigit && if first = .char '0' then rest.isEmpty else rest.all (·.isDigit)
  | text, .char '"' :: rest => rest == rest.takeWhile (·.isContent) ++ [.char '"']
  | comment, .char '#' :: rest => rest.all (·.staysInLine)
  | identifier, .char c :: rest => isIdentifierStart c && rest.all (·.isPart)
  | _, _ => false

/-- Why a text cannot be read though it begins like a lexeme of a category: a number is
too large, a text or a comment too long, or a text is never closed. -/
def fault : Category → List Symbol → Option Fault
  | integer, first :: rest =>
    if first.isDigit ∧ first ≠ .char '0' ∧
        maxInteger < Symbol.decimal ((first :: rest).takeWhile (·.isDigit)) then
      some .integerTooLarge
    else none
  | text, .char '"' :: rest =>
    let content := rest.takeWhile (·.isContent)
    if maxContent < content.length then some .textTooLong
    else if rest[content.length]? = some (.char '"') then none
    else some .unterminatedText
  | comment, .char '#' :: rest =>
    if maxContent < (rest.takeWhile (·.staysInLine)).length then some .commentTooLong else none
  | _, _ => none

/-- The value of a lexeme. -/
def value : Category → List Scanned → Payload
  | fixed spelling, _ =>
    if spelling.kind = .boolean then .boolean (spelling.letters == ['t', 'r', 'u', 'e']) else .none
  | integer, items => .integer (Int32.ofNat (Symbol.decimal (items.map (·.symbol))))
  | identifier, items => .text (Lexer.rawText items)
  | text, items => .text (Lexer.rawText (items.drop 1).dropLast)
  | comment, items => .text (Lexer.rawText (items.drop 1))

end Category

end Token

namespace Lexer

/-- The longest lexeme that `w` begins with, of at most `n` symbols: its category, or the
first of several, and its length. -/
def longest (w : List Symbol) : Nat → Option (Category × Nat)
  | 0 => none
  | n + 1 => ((Category.all.find? (·.spells (w.take (n + 1)))).map (·, n + 1)).or (longest w n)

/-- What there is to read where the items begin with `first` and are not blank: a fault if
there is one, else the longest lexeme, else nothing. -/
def munch (first : Scanned) (items : List Scanned) : Except Error Token :=
  let w := items.map (·.symbol)
  match Category.all.findSome? (·.fault w) with
  | some f => .error (.lex first.position (.fault f))
  | none =>
    match longest w w.length with
    | some (c, n) => .ok ⟨c.kind, c.value (items.take n), first.position, n⟩
    | none => .error (.lex first.position (.unexpected first.raw))

end Lexer

end Lumen
