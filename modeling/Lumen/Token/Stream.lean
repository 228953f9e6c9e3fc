import Lumen.Token.Lexer

/-! Token streams.

A stream is what the lexer gives for a whole text: in order, every token and every
failure before the end of text, and then ends of text without number. Comments are
tokens of a stream; `pull` passes over them, as the grammar does. -/
namespace Lumen

structure Token.Stream where
  /-- What the lexer gives before the end of text. -/
  pending : List (Except Error Token)
  /-- Where the text ends. -/
  finish : Position

namespace Token.Stream

/-- The stream of a source text. Every attempt of the lexer uses up an item, so there are
no more of them than items. -/
def ofSource (source : String) : Stream :=
  let l := Lexer.ofSource source
  ⟨l.drain l.rest.length, l.finish⟩

/-- A stream without failures that ends with a given end-of-text place. -/
def ofTokens (tokens : List Token) (finish : Position) : Stream :=
  ⟨tokens.map .ok, finish⟩

/-- The next token that is not a comment, or the failure in front of it. -/
def pullFrom (finish : Position) :
    List (Except Error Token) → Except Error Token × List (Except Error Token)
  | [] => (.ok (.endAt finish), [])
  | .error e :: rest => (.error e, rest)
  | .ok t :: rest => if t.kind = .comment then pullFrom finish rest else (.ok t, rest)

def pull (s : Stream) : Except Error Token × Stream :=
  let (result, rest) := pullFrom s.finish s.pending
  (result, { s with pending := rest })

/-- Every token with the end of text after them, or the first failure. -/
def tokens (s : Stream) : Except Error (List Token) :=
  (s.pending.mapM id).map (· ++ [.endAt s.finish])

end Token.Stream

/-- The tokens of a source text, comments and the end of text included. -/
def tokenize (source : String) : Except Error (List Token) := (Token.Stream.ofSource source).tokens

end Lumen
