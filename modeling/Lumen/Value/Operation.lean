import Lumen.Error
import Lumen.Value

/-! What the operators do to values that have been computed.

An operator with a text on either side works on texts, any other on integers, and
operands are coerced accordingly. Integer arithmetic wraps around at 32 bits and
division goes toward zero. -/
namespace Lumen.Value

def toBoolean (position : Position) (v : Value) : Except Error Bool :=
  match v.boolean? with
  | some b => .ok b
  | none => .error (.runtime position (.coercion v.tag .boolean))

def toInteger (position : Position) (v : Value) : Except Error Int32 :=
  match v.integer? with
  | some n => .ok n
  | none => .error (.runtime position (.coercion v.tag .integer))

def toText (position : Position) (v : Value) : Except Error String :=
  match v.text? with
  | some s => .ok s
  | none => .error (.runtime position (.coercion v.tag .text))

def isText : Value → Bool
  | text _ => true
  | _ => false

/-! ### Comparisons -/

/-- A closure equals itself and nothing else. -/
def equals (position : Position) (left right : Value) : Except Error Bool :=
  match left, right with
  | closure c, closure d => .ok (c.id == d.id)
  | closure _, _ => .ok false
  | _, closure _ => .ok false
  | _, _ =>
    if left.isText || right.isText then do
      return (← left.toText position) == (← right.toText position)
    else do
      return (← left.toInteger position) == (← right.toInteger position)

/-- Texts are compared up to the length of the shorter one, so no text is less than one
that it begins. -/
def textLess : List Char → List Char → Bool
  | c :: cs, d :: ds => if c = d then textLess cs ds else decide (c < d)
  | _, _ => false

def less (position : Position) (left right : Value) : Except Error Bool :=
  if left.isText || right.isText then do
    let s ← left.toText position
    let t ← right.toText position
    return textLess s.toList t.toList
  else do
    let m ← left.toInteger position
    let n ← right.toInteger position
    return decide (m < n)

/-! ### Arithmetic -/

def integers (position : Position) (left right : Value) : Except Error (Int32 × Int32) := do
  let m ← left.toInteger position
  let n ← right.toInteger position
  return (m, n)

/-- The sum of integers, or one text after the other. -/
def plus (position : Position) (left right : Value) : Except Error Value :=
  if left.isText || right.isText then do
    let s ← left.toText position
    let t ← right.toText position
    return text (s ++ t)
  else do
    let (m, n) ← integers position left right
    return integer (m + n)

/-- A lazy operator never gets here with both operands computed. -/
def binary (operator : Operator) (left right : Value) (position : Position) :
    Except Error Value :=
  match operator with
  | .equal => boolean <$> equals position left right
  | .notEqual => (fun b => boolean !b) <$> equals position left right
  | .less => boolean <$> less position left right
  | .greater => boolean <$> less position right left
  | .lessEqual => (fun b => boolean !b) <$> less position right left
  | .greaterEqual => (fun b => boolean !b) <$> less position left right
  | .add => plus position left right
  | .subtract => do
    let (m, n) ← integers position left right
    return integer (m - n)
  | .multiply => do
    let (m, n) ← integers position left right
    return integer (m * n)
  | .divide => do
    let (m, n) ← integers position left right
    if n = 0 then throw (.runtime position .divisionByZero) else return integer (m / n)
  | .or | .and | .nullCoalescing => .error (.runtime position (.lazyOperator operator))

/-- The opposite of an integer or of a boolean. -/
def negate (position : Position) : Value → Except Error Value
  | integer n => .ok (integer (-n))
  | boolean b => .ok (boolean !b)
  | v => .error (.runtime position (.negation v.tag))

end Lumen.Value
