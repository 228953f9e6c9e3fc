import Lumen.Syntax.Operator
import Lumen.Token.Automaton
import Lumen.Value.Tag

/-! Why a text is not a program, and why a program fails.

An error is a cause at a place. The causes of each stage are a type of their own, and
`Error.message` is the only function that puts them into words. A host may raise words
of its own at every stage. -/
namespace Lumen

/-- Why the next token cannot be read. -/
inductive LexCause where
  | fault (f : Token.Fault)
  | unexpected (c : Char)
  | other (words : String)
  deriving DecidableEq, Repr

/-- What the grammar asks for at a place. -/
inductive Expectation where
  | token (kind : Token.Kind)
  | expression
  | argumentsEnd
  | parameterName
  deriving DecidableEq, Repr

/-- Why the tokens are not a program. -/
inductive ParseCause where
  | expected (what : Expectation) (found : Token.Kind)
  | missingSeparator
  | nestingLimit
  | other (words : String)
  deriving DecidableEq, Repr

/-- Why a program fails. -/
inductive RuntimeCause where
  | undefined (name : String)
  | notCallable (tag : Value.Tag)
  | arity (label : String) (required given : Nat)
  | divisionByZero
  | coercion (source target : Value.Tag)
  | negation (tag : Value.Tag)
  | lazyOperator (operator : Operator)
  | recursionLimit
  | loopLimit
  | strayBreak
  | other (words : String)
  deriving DecidableEq, Repr

inductive Error where
  | unreadable (words : String)
  | lex (position : Position) (cause : LexCause)
  | parse (position : Position) (cause : ParseCause)
  | runtime (position : Position) (cause : RuntimeCause)
  deriving DecidableEq, Repr

def LexCause.message : LexCause → String
  | fault f => f.message
  | unexpected c => "Unexpected character '" ++ c.toString ++ "'"
  | other words => words

def Expectation.describe : Expectation → String
  | token kind => kind.describe
  | expression => "expression"
  | argumentsEnd => Token.Kind.parenClose.describe ++ " after arguments"
  | parameterName => "parameter name"

def ParseCause.message : ParseCause → String
  | expected what found => "Expected " ++ what.describe ++ " but found " ++ found.describe
  | missingSeparator => "Statements should be separated by ';'"
  | nestingLimit => "Exceeded nesting limit"
  | other words => words

def RuntimeCause.message : RuntimeCause → String
  | undefined name => "Variable of name " ++ name ++ " was not defined!"
  | notCallable tag => "Value of type " ++ tag.name ++ " is not callable"
  | arity label required given =>
    "Function " ++ label ++ " requires " ++ toString required ++ " arguments, but given " ++
      toString given ++ " arguments!"
  | divisionByZero => "Cannot divide by zero"
  | coercion source target => "Cannot coerce " ++ source.name ++ " to " ++ target.name
  | negation tag => "Cannot negate value of type " ++ tag.name
  | lazyOperator operator => "Operator " ++ operator.word ++ " must be evaluated lazily"
  | recursionLimit => "Exceeded recursion limit"
  | loopLimit => "Exceeded loop count limit"
  | strayBreak => "Break outside of loop"
  | other words => words

namespace Error

/-- The cause in words. -/
def message : Error → String
  | unreadable words => words
  | lex _ cause => cause.message
  | parse _ cause => cause.message
  | runtime _ cause => cause.message

/-- The place of an error. A source that could not be read has none. -/
def position? : Error → Option Position
  | unreadable _ => none
  | lex position _ => some position
  | parse position _ => some position
  | runtime position _ => some position

/-- The stage, the place and the cause of an error in one line. -/
def display : Error → String
  | unreadable words => "failed to read source: " ++ words
  | lex position cause => "lex error at " ++ position.display ++ ": " ++ cause.message
  | parse position cause => "parse error at " ++ position.display ++ ": " ++ cause.message
  | runtime position cause => "runtime error at " ++ position.display ++ ": " ++ cause.message

/-- Gives a runtime error without a place the place `position`. -/
def locatedAt (position : Position) : Error → Error
  | runtime place cause => runtime (if place.isUnknown then position else place) cause
  | other => other

end Error

end Lumen
