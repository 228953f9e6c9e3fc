import Lumen.Position
import Lumen.Text.Blank

/-! What the lexer reads: the characters of a source text, classified and placed.

Every spelling of a line end (line feed, carriage return, the two together, the line
separator and the paragraph separator) becomes one `newline` whose raw character is a
line feed; every other blank character becomes `whitespace` and keeps its raw
character. A text is scanned once into a list, and what lies past its last item is the
end of text, at the place that the last item leaves behind. -/
namespace Lumen

/-- What an automaton sees of a character. -/
inductive Symbol where
  | char (c : Char)
  | whitespace
  | newline
  | endOfText
  deriving DecidableEq, Repr

/-- A symbol, the character that it stands for, and where that character is. -/
structure Scanned where
  symbol : Symbol
  raw : Char
  position : Position
  deriving DecidableEq, Repr

namespace Scanned

/-- The place just past an item. -/
def after (s : Scanned) : Position :=
  match s.symbol with
  | .newline => s.position.nextLine
  | _ => s.position.nextColumn

/-- A blank item separates tokens and belongs to none. -/
def isBlank (s : Scanned) : Bool :=
  match s.symbol with
  | .whitespace | .newline => true
  | _ => false

def newlineAt (p : Position) : Scanned := ⟨.newline, '\n', p⟩

/-- The item past the last character of a text that ends at `p`. -/
def endAt (p : Position) : Scanned := ⟨.endOfText, '\x00', p⟩

end Scanned

/-- A character that ends a line on its own. -/
def isLineEnd (c : Char) : Bool :=
  c == '\n' || c == '\r' || c == '\u2028' || c == '\u2029'

/-- The symbol of a character that does not end a line. -/
def Symbol.ofChar (c : Char) : Symbol :=
  if Text.isBlank c then .whitespace else .char c

/-- The items of a text whose first character is at `p`. -/
def scanFrom (p : Position) : List Char → List Scanned
  | [] => []
  | '\r' :: '\n' :: rest => .newlineAt p :: scanFrom p.nextLine rest
  | c :: rest =>
    if isLineEnd c then .newlineAt p :: scanFrom p.nextLine rest
    else ⟨.ofChar c, c, p⟩ :: scanFrom p.nextColumn rest

/-- The items of a source text. -/
def scan (source : String) : List Scanned := scanFrom .start source.toList

/-- The place just past a list of items that begins at `p`. -/
def placeAfter (p : Position) : List Scanned → Position
  | [] => p
  | s :: rest => placeAfter s.after rest

/-- The items of a source text with `count` ends of text after them. -/
def scanThrough (source : String) (count : Nat) : List Scanned :=
  let items := scan source
  items ++ List.replicate count (.endAt (placeAfter .start items))

end Lumen
