import Lumen.Syntax

/-! Outlines: a tree in one line.

Every node is a word, its place and its parts between parentheses. A text constant is
written between double quotes, where quotes, backslashes and control characters are
escaped and everything else stands for itself. -/
namespace Lumen

namespace Outline

def hexDigit (n : Nat) : Char := Nat.digitChar (n % 16)

/-- A character of a text constant. -/
def escaped (c : Char) : List Char :=
  if c = '"' then ['\\', '"']
  else if c = '\\' then ['\\', '\\']
  else if c = '\x08' then ['\\', 'b']
  else if c = '\x0c' then ['\\', 'f']
  else if c = '\n' then ['\\', 'n']
  else if c = '\r' then ['\\', 'r']
  else if c = '\t' then ['\\', 't']
  else if c.toNat < 0x20 then
    ['\\', 'u', '0', '0', hexDigit (c.toNat / 16), hexDigit c.toNat]
  else [c]

def text (s : String) : String :=
  String.ofList ('"' :: s.toList.flatMap escaped ++ ['"'])

/-- A node with its place and its parts. -/
def node (word : String) (position : Position) (parts : List String) : String :=
  "(" ++ " ".intercalate (word :: position.display :: parts) ++ ")"

end Outline

open Outline (node)

def Binding.word : Binding → String
  | declare => "Declaration"
  | assign => "Assignment"
  | nullAssign => "NullAssignment"

def Literal.outline (position : Position) : Literal → String
  | integer n => node "Integer" position [toString n.toInt]
  | text s => node "String" position [Outline.text s]
  | boolean b => node "Boolean" position [toString b]
  | null => node "Null" position []

mutual

def Statement.outline : Statement → String
  | .bind binding name value position => node binding.word position [name, value.outline]
  | .condition branches none position => node "Condition" position (outlineBranches branches)
  | .condition branches (some s) position =>
    node "Condition" position (outlineBranches branches ++ ["(Else " ++ s.outline ++ ")"])
  | .loop guard body position => node "Loop" position [guard.outline, body.outline]
  | .breakOut none position => node "Break" position []
  | .breakOut (some s) position => node "Break" position [s.outline]
  | .expression e => e.outline

def Expression.outline : Expression → String
  | .binary operator left right position =>
    node operator.word position [left.outline, right.outline]
  | .negate operand position => node "Negate" position [operand.outline]
  | .constant value position => value.outline position
  | .reference name position => node "Variable" position [name]
  | .block b => b.outline
  | .lambda f => f.outline
  | .call callee arguments position =>
    node "Call" position (callee.outline :: outlineExpressions arguments)

def Block.outline : Block → String
  | ⟨statements, position⟩ => node "Block" position (outlineStatements statements)

def Lambda.outline : Lambda → String
  | ⟨parameters, body, position⟩ =>
    node "Lambda" position ["[" ++ " ".intercalate parameters ++ "]", body.outline]

def Branch.outline : Branch → String
  | ⟨guard, body⟩ => "(Branch " ++ guard.outline ++ " " ++ body.outline ++ ")"

def outlineStatements : List Statement → List String
  | [] => []
  | s :: rest => s.outline :: outlineStatements rest

def outlineExpressions : List Expression → List String
  | [] => []
  | e :: rest => e.outline :: outlineExpressions rest

def outlineBranches : List Branch → List String
  | [] => []
  | b :: rest => b.outline :: outlineBranches rest

end

end Lumen
