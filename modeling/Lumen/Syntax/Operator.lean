import Lumen.Token.Kind

/-! Binary operators, from the loosest to the tightest.

Three of them are *lazy*: `||`, `&&` and `??` look at their left operand first and may
leave the right one alone. -/
namespace Lumen

inductive Operator where
  | or
  | and
  | equal
  | notEqual
  | less
  | lessEqual
  | greater
  | greaterEqual
  | nullCoalescing
  | add
  | subtract
  | multiply
  | divide
  deriving DecidableEq, Repr

namespace Operator

/-- The word for an operator in trees and messages. -/
def word : Operator → String
  | or => "Or"
  | and => "And"
  | equal => "Equal"
  | notEqual => "NotEqual"
  | less => "Less"
  | lessEqual => "LessEqual"
  | greater => "Greater"
  | greaterEqual => "GreaterEqual"
  | nullCoalescing => "NullCoalescing"
  | add => "Add"
  | subtract => "Subtract"
  | multiply => "Multiply"
  | divide => "Divide"

/-- Every operator, from the loosest to the tightest. -/
def all : List Operator :=
  [or, and, equal, notEqual, less, lessEqual, greater, greaterEqual, nullCoalescing, add,
    subtract, multiply, divide]

/-- The operator with a given word. -/
def ofWord? (word : String) : Option Operator := all.find? fun op => op.word == word

end Operator

namespace Token.Kind

/-! ### The operator that a token stands for at each level of binding -/

def orOperator? : Kind → Option Operator
  | .or => some .or
  | _ => none

def andOperator? : Kind → Option Operator
  | .and => some .and
  | _ => none

def comparison? : Kind → Option Operator
  | .equal => some .equal
  | .notEqual => some .notEqual
  | .less => some .less
  | .lessEqual => some .lessEqual
  | .greater => some .greater
  | .greaterEqual => some .greaterEqual
  | _ => none

def coalescing? : Kind → Option Operator
  | .nullCoalescing => some .nullCoalescing
  | _ => none

def additive? : Kind → Option Operator
  | .plus => some .add
  | .minus => some .subtract
  | _ => none

def multiplicative? : Kind → Option Operator
  | .multiply => some .multiply
  | .divide => some .divide
  | _ => none

end Token.Kind

end Lumen
