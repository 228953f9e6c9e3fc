/-! Indented layout of nested groups.

A group opens on the line where it stands, puts each of its items on a line of its own,
indented by four more spaces and closed by a comma, and ends on a line of its own. A
group without items stays on one line. -/
namespace Lumen.Text

mutual

inductive Layout where
  | atom (words : String)
  | group (opening closing : String) (items : List Item)

/-- A part of a group, with the words in front of it. -/
structure Item where
  label : String
  content : Layout

end

def indentation (depth : Nat) : String := String.ofList (List.replicate (4 * depth) ' ')

mutual

/-- A layout whose first line is already indented to `depth`. -/
def Layout.render (depth : Nat) : Layout → String
  | .atom words => words
  | .group opening closing [] => opening ++ closing
  | .group opening closing (item :: rest) =>
    opening ++ "\n" ++ item.render (depth + 1) ++ renderItems (depth + 1) rest ++
      indentation depth ++ closing

def Item.render (depth : Nat) : Item → String
  | ⟨label, content⟩ => indentation depth ++ label ++ content.render depth ++ ",\n"

def renderItems (depth : Nat) : List Item → String
  | [] => ""
  | item :: rest => item.render depth ++ renderItems depth rest

end

namespace Layout

/-- Named fields between braces. -/
def record (name : String) (fields : List (String × Layout)) : Layout :=
  group (name ++ " \x7b") "\x7d" (fields.map fun field => ⟨field.1 ++ ": ", field.2⟩)

/-- A name with one part between parentheses. -/
def wrap (name : String) (content : Layout) : Layout := group (name ++ "(") ")" [⟨"", content⟩]

/-- Items between square brackets. -/
def list (items : List Layout) : Layout := group "[" "]" (items.map fun item => ⟨"", item⟩)

end Layout

end Lumen.Text
