import Lumen.Position
import Lumen.Syntax.Operator

/-! Programs as trees.

A statement is an expression, a binding, a condition, a loop or a break; an expression
may hold statements again, in blocks and in the bodies of functions. Every node keeps
the place of the token that introduced it. -/
namespace Lumen

/-- A constant that a program spells out. -/
inductive Literal where
  | integer (n : Int32)
  | text (s : String)
  | boolean (b : Bool)
  | null
  deriving DecidableEq, Repr

/-- What a binding does to the name on its left. -/
inductive Binding where
  /-- Binds the name in the current scope. -/
  | declare
  /-- Overwrites the nearest binding of the name. -/
  | assign
  /-- Overwrites the nearest binding of the name if it holds null. -/
  | nullAssign
  deriving DecidableEq, Repr

mutual

inductive Statement where
  | bind (binding : Binding) (name : String) (value : Statement) (position : Position)
  | condition (branches : List Branch) (otherwise : Option Statement) (position : Position)
  | loop (guard body : Statement) (position : Position)
  | breakOut (value : Option Statement) (position : Position)
  | expression (e : Expression)

inductive Expression where
  | binary (operator : Operator) (left right : Expression) (position : Position)
  | negate (operand : Expression) (position : Position)
  | constant (value : Literal) (position : Position)
  | reference (name : String) (position : Position)
  | block (b : Block)
  | lambda (f : Lambda)
  | call (callee : Expression) (arguments : List Expression) (position : Position)

/-- A guarded part of a condition. -/
structure Branch where
  guard : Statement
  body : Statement

/-- A sequence of statements in a scope of its own. A program is one too. -/
structure Block where
  statements : List Statement
  position : Position

/-- A function that has not met its scope yet. -/
structure Lambda where
  parameters : List String
  body : Statement
  position : Position

end

namespace Expression

def position : Expression → Position
  | binary _ _ _ p | negate _ p | constant _ p | reference _ p | call _ _ p => p
  | block b => b.position
  | lambda f => f.position

/-- The name of a called function in messages about its arguments. -/
def calleeLabel : Expression → String
  | reference name _ => name
  | _ => "<lambda>"

end Expression

def Statement.position : Statement → Position
  | bind _ _ _ p | condition _ _ p | loop _ _ p | breakOut _ p => p
  | expression e => e.position

end Lumen
