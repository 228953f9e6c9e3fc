import Lumen.Native.Console
import Lumen.Parser

/-! Natives that use all that a host can do.

They call closures back, catch and raise errors, look at the scope of their call and
execute programs on the interpreter that runs them. A list of names and parameters can
also be turned into natives that only report how they were called. -/
namespace Lumen.Native

/-- Calls the closure `f`, or fails if `f` is none. -/
def callBack (f : Value) (arguments : List Value) (position : Position)
    (next : Except Error Value → Routine) : Routine :=
  match f with
  | .closure c => .request (c.request arguments position) next
  | v => next (.error (.runtime .unknown (.other ("expected a closure, got " ++ v.tag.name))))

/-- Calls a closure with one argument. -/
def apply : Native where
  name := "apply"
  parameters := ["f", "x"]
  body lookup := callBack (argument lookup "f") [argument lookup "x"] .unknown .finish

/-- Calls a closure without arguments, at a place of its own. -/
def call0 : Native where
  name := "call0"
  parameters := ["f"]
  body lookup := callBack (argument lookup "f") [] ⟨77, 7⟩ .finish

/-- Calls a closure without arguments and turns an error into a text. -/
def attempt : Native where
  name := "try"
  parameters := ["f"]
  body lookup := callBack (argument lookup "f") [] .unknown fun
    | .ok v => .answer v
    | .error e => .answer (.text e.display)

/-- Fails in the words of its argument. -/
def fail : Native where
  name := "fail"
  parameters := ["message"]
  body lookup :=
    .fail (.runtime .unknown (.other (argument lookup "message").display))

/-- A line or column given as a value. -/
def coordinate (v : Value) : Nat := (v.integer?.getD 0).toUInt32.toNat

/-- Fails at the place that its arguments give. -/
def failAt : Native where
  name := "fail_at"
  parameters := ["line", "column"]
  body lookup :=
    .fail (.runtime ⟨coordinate (argument lookup "line"), coordinate (argument lookup "column")⟩
      (.other "failed"))

/-- Fails as the grammar does. -/
def failParse : Native where
  name := "fail_parse"
  parameters := []
  body _ := .fail (.parse .unknown (.other "not runtime"))

/-- The value that a name has in the scope of the call. -/
def see : Native where
  name := "see"
  parameters := ["name"]
  body lookup := .answer (argument lookup (argument lookup "name").display)

/-- Executes a program on the interpreter that is running. -/
def eval : Native where
  name := "eval"
  parameters := ["source"]
  body lookup :=
    match parse (argument lookup "source").display with
    | .ok program => .forward (.execute program)
    | .error e => .fail e

def workbench : List Native :=
  console ++ [apply, call0, attempt, fail, failAt, failParse, see, eval]

/-- Reports its number, its name and its arguments, and answers the first of them. -/
def report (number : Nat) (name : String) (parameters : List String) : Native where
  name := name
  parameters := parameters
  body lookup :=
    let values := parameters.map (argument lookup)
    .write
      ⟨.standard, "#" ++ toString number ++ " " ++ name ++ "(" ++
        ", ".intercalate (values.map (·.display)) ++ ")"⟩
      (.answer (values.head?.getD .null))

/-- A reporting native for every name with its parameters, numbered in order. -/
def reports (signatures : List (String × List String)) : List Native :=
  signatures.zipIdx.map fun ((name, parameters), number) => report number name parameters

end Lumen.Native
