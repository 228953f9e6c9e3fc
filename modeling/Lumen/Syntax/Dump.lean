import Lumen.Syntax.Outline
import Lumen.Text.Layout
import Lumen.Text.Quoted

/-! Dumps: a tree with one field a line. -/
namespace Lumen

open Text (Layout)

def Position.layout (p : Position) : Layout :=
  .record "Position" [("line", .atom (toString p.line)), ("column", .atom (toString p.column))]

def Literal.layout : Literal → Layout
  | integer n => .wrap "Integer" (.atom (toString n.toInt))
  | text s => .wrap "String" (.atom (Text.quoted s))
  | boolean b => .wrap "Boolean" (.atom (toString b))
  | null => .atom "Null"

def nameLayout (name : String) : Layout := .atom (Text.quoted name)

mutual

def Statement.layout : Statement → Layout
  | .bind binding name value position =>
    .record binding.word
      [("name", nameLayout name), ("value", value.layout), ("position", position.layout)]
  | .condition branches none position =>
    .record "Condition"
      [("branches", .list (layoutBranches branches)), ("otherwise", .atom "None"),
        ("position", position.layout)]
  | .condition branches (some s) position =>
    .record "Condition"
      [("branches", .list (layoutBranches branches)), ("otherwise", .wrap "Some" s.layout),
        ("position", position.layout)]
  | .loop guard body position =>
    .record "Loop"
      [("guard", guard.layout), ("body", body.layout), ("position", position.layout)]
  | .breakOut none position =>
    .record "Break" [("value", .atom "None"), ("position", position.layout)]
  | .breakOut (some s) position =>
    .record "Break" [("value", .wrap "Some" s.layout), ("position", position.layout)]
  | .expression e => .wrap "Expression" e.layout

def Expression.layout : Expression → Layout
  | .binary operator left right position =>
    .record "Binary"
      [("operator", .atom operator.word), ("left", left.layout), ("right", right.layout),
        ("position", position.layout)]
  | .negate operand position =>
    .record "Negate" [("operand", operand.layout), ("position", position.layout)]
  | .constant value position =>
    .record "Constant" [("value", value.layout), ("position", position.layout)]
  | .reference name position =>
    .record "Variable" [("name", nameLayout name), ("position", position.layout)]
  | .block b => .wrap "Block" b.layout
  | .lambda f => .wrap "Lambda" f.layout
  | .call callee arguments position =>
    .record "Call"
      [("callee", callee.layout), ("arguments", .list (layoutExpressions arguments)),
        ("position", position.layout)]

def Block.layout : Block → Layout
  | ⟨statements, position⟩ =>
    .record "Block"
      [("statements", .list (layoutStatements statements)), ("position", position.layout)]

def Lambda.layout : Lambda → Layout
  | ⟨parameters, body, position⟩ =>
    .record "Lambda"
      [("parameters", .list (parameters.map nameLayout)), ("body", body.layout),
        ("position", position.layout)]

def Branch.layout : Branch → Layout
  | ⟨guard, body⟩ => .record "Branch" [("guard", guard.layout), ("body", body.layout)]

def layoutStatements : List Statement → List Layout
  | [] => []
  | s :: rest => s.layout :: layoutStatements rest

def layoutExpressions : List Expression → List Layout
  | [] => []
  | e :: rest => e.layout :: layoutExpressions rest

def layoutBranches : List Branch → List Layout
  | [] => []
  | b :: rest => b.layout :: layoutBranches rest

end

/-- The dump of a program, without a line end after it. -/
def Block.dump (program : Block) : String := program.layout.render 0

end Lumen
