import Lumen.Native

/-! The natives of the command line: `print` and `debug`. -/
namespace Lumen.Native

/-- The value of an argument, null if there is none of that name. -/
def argument (lookup : String → Option Value) (name : String) : Value :=
  (lookup name).getD .null

/-- Writes a value as programs see it, and answers null. -/
def print : Native where
  name := "print"
  parameters := ["value"]
  body lookup :=
    .write ⟨.standard, (argument lookup "value").display⟩ (.answer .null)

/-- Writes a value with its type to the diagnostic channel, and answers the value. -/
def debug : Native where
  name := "debug"
  parameters := ["value"]
  body lookup :=
    .write ⟨.diagnostic, "[debug] " ++ (argument lookup "value").debug⟩
      (.answer (argument lookup "value"))

def console : List Native := [print, debug]

end Lumen.Native
