import Lumen.Syntax
import Lumen.Text.Quoted
import Lumen.Value.Tag

/-! Values.

A value is a 32-bit integer, a boolean, a text, null or a closure. A closure pairs a
function with the scope that it was made in; it refers to that scope by number and is
itself known by a number, which no other closure has. -/
namespace Lumen

/-- The number of a scope in the store. -/
abbrev ScopeId := Nat

/-- A function that the host provides. Its routine stands in a slot of the host's table;
one without a slot does nothing and answers null. -/
structure NativeRef where
  slot : Option Nat
  name : String
  parameters : List String
  deriving DecidableEq, Repr

inductive Function where
  | lambda (f : Lambda)
  | native (f : NativeRef)

structure Closure where
  id : Nat
  function : Function
  captured : ScopeId

inductive Value where
  | integer (n : Int32)
  | boolean (b : Bool)
  | text (s : String)
  | null
  | closure (c : Closure)

namespace Function

def parameters : Function → List String
  | lambda f => f.parameters
  | native f => f.parameters

def display : Function → String
  | lambda f => "<lambda(" ++ ", ".intercalate f.parameters ++ ")>"
  | native f => "<native " ++ f.name ++ ">"

/-- The name of a function that the host calls, in messages about its arguments. -/
def label : Function → String
  | lambda _ => "<lambda>"
  | native f => f.name

end Function

namespace Closure

def parameters (c : Closure) : List String := c.function.parameters

def display (c : Closure) : String := c.function.display

end Closure

/-- The value of a constant. -/
def Literal.value : Literal → Value
  | integer n => .integer n
  | text s => .text s
  | boolean b => .boolean b
  | null => .null

namespace Value

def tag : Value → Tag
  | integer _ => .integer
  | boolean _ => .boolean
  | text _ => .text
  | null => .null
  | closure _ => .closure

def isNull : Value → Bool
  | null => true
  | _ => false

/-- What a program sees of a value. -/
def display : Value → String
  | integer n => toString n.toInt
  | boolean b => toString b
  | text s => s
  | null => "null"
  | closure c => c.display

/-- A value with its type, unmistakably. -/
def debug : Value → String
  | integer n => "Integer(" ++ toString n.toInt ++ ")"
  | boolean b => "Boolean(" ++ toString b ++ ")"
  | text s => "String(" ++ Text.quoted s ++ ")"
  | null => "Null"
  | closure c => "Closure(" ++ c.display ++ ")"

/-- The same value: without coercion, and closures only if they are one closure. -/
def same : Value → Value → Bool
  | integer m, integer n => m == n
  | boolean a, boolean b => a == b
  | text s, text t => s == t
  | null, null => true
  | closure c, closure d => c.id == d.id
  | _, _ => false

/-! ### Coercions -/

/-- Positive integers and texts that are not empty count as true. -/
def boolean? : Value → Option Bool
  | integer n => some (decide (0 < n))
  | boolean b => some b
  | text s => some (!s.isEmpty)
  | null => some false
  | closure _ => none

def integer? : Value → Option Int32
  | integer n => some n
  | boolean b => some (if b then 1 else 0)
  | null => some 0
  | text _ => none
  | closure _ => none

def text? : Value → Option String
  | integer n => some (toString n.toInt)
  | boolean b => some (toString b)
  | text s => some s
  | null => some ""
  | closure _ => none

end Value

end Lumen
