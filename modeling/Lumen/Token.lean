import Lumen.Text.Quoted
import Lumen.Token.Kind
import Lumen.Position

/-! Tokens: the words of a program. -/
namespace Lumen

/-- What a token carries besides its kind. -/
inductive Token.Payload where
  | none
  | integer (n : Int32)
  | text (s : String)
  | boolean (b : Bool)
  deriving DecidableEq, Repr

structure Token where
  kind : Token.Kind
  value : Token.Payload
  /-- Where the first character is. -/
  position : Position
  /-- How many scanned items the token takes up. -/
  length : Nat
  deriving DecidableEq, Repr

namespace Token

/-- The token past the last character of a text that ends at `p`. -/
def endAt (p : Position) : Token := ⟨.endOfText, .none, p, 0⟩

/-- The text that a token carries, empty if it carries none. -/
def words (t : Token) : String :=
  match t.value with
  | .text s => s
  | _ => ""

def Payload.display : Payload → String
  | .none => ""
  | .integer n => " " ++ toString n.toInt
  | .text s => " " ++ Text.quoted s
  | .boolean b => " " ++ toString b

/-- The place, the kind and the value of a token in one line. -/
def display (t : Token) : String :=
  t.position.display ++ " " ++ t.kind.describe ++ t.value.display

end Token

end Lumen
