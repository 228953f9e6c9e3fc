/-! The types of values, as messages name them. -/
namespace Lumen.Value

inductive Tag where
  | integer
  | boolean
  | text
  | null
  | closure
  deriving DecidableEq, Repr

def Tag.name : Tag → String
  | .integer => "integer"
  | .boolean => "boolean"
  | .text => "string"
  | .null => "null"
  | .closure => "closure"

end Lumen.Value
