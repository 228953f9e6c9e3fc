/-! The kinds of tokens, and how messages name them. -/
namespace Lumen.Token

inductive Kind where
  | endOfText
  | endOfStatement
  | comma
  | parenOpen
  | parenClose
  | braceOpen
  | braceClose
  | equal
  | notEqual
  | less
  | lessEqual
  | greater
  | greaterEqual
  | and
  | or
  | plus
  | minus
  | multiply
  | divide
  | arrow
  | assign
  | reassign
  | nullAssign
  | nullCoalescing
  | ifWord
  | elseWord
  | loopWord
  | breakWord
  | integer
  | text
  | boolean
  | null
  | identifier
  | comment
  deriving DecidableEq, Repr

/-- A fixed token is named by its spelling, the others by what they are. -/
def Kind.describe : Kind → String
  | .endOfText => "end of text"
  | .endOfStatement => "';'"
  | .comma => "','"
  | .parenOpen => "'('"
  | .parenClose => "')'"
  | .braceOpen => "'\x7b'"
  | .braceClose => "'\x7d'"
  | .equal => "'=='"
  | .notEqual => "'!='"
  | .less => "'<'"
  | .lessEqual => "'<='"
  | .greater => "'>'"
  | .greaterEqual => "'>='"
  | .and => "'&&'"
  | .or => "'||'"
  | .plus => "'+'"
  | .minus => "'-'"
  | .multiply => "'*'"
  | .divide => "'/'"
  | .arrow => "'=>'"
  | .assign => "'='"
  | .reassign => "':='"
  | .nullAssign => "'??='"
  | .nullCoalescing => "'??'"
  | .ifWord => "'if'"
  | .elseWord => "'else'"
  | .loopWord => "'loop'"
  | .breakWord => "'break'"
  | .integer => "integer literal"
  | .text => "string literal"
  | .boolean => "boolean literal"
  | .null => "'null'"
  | .identifier => "identifier"
  | .comment => "comment"

end Lumen.Token
