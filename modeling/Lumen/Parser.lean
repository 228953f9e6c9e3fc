import Lumen.Parser.Grammar

/-! Reading programs, expressions and blocks.

The readings can follow one another on one cursor, also after a failure; each of them
starts with all levels of nesting. -/
namespace Lumen

namespace Parser

/-- The deepest nesting of statements, expressions and signs. -/
def maxNesting : Nat := 64

def program : Parse Block := Grammar.program (Grammar.layers maxNesting)

def expression : Parse Expression := (Grammar.layers maxNesting).expression

def block : Parse Block := Grammar.block (Grammar.layers maxNesting)

end Parser

/-- The program that a source text spells, with at most `limit` levels of nesting. -/
def parseWithin (limit : Nat) (source : String) : Except Error Block :=
  match Grammar.program (Grammar.layers limit) (.ofSource source) with
  | .ok program _ => .ok program
  | .error e _ => .error e

/-- The program that a source text spells. -/
def parse (source : String) : Except Error Block := parseWithin Parser.maxNesting source

end Lumen
