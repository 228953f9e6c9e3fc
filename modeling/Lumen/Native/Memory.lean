import Lumen.Native.Workbench

/-! Natives that remember.

What natives keep lasts from one call to the next, and from one program to the next. These
two share a list of what has been saved, the latest in front. -/
namespace Lumen.Native

/-- Keeps a closure. -/
def save : Native where
  name := "save"
  parameters := ["f"]
  body lookup := .keep (argument lookup "f" :: ·) fun _ => .answer .null

/-- Calls the closure that was kept last. -/
def poke : Native where
  name := "poke"
  parameters := []
  body _ := .keep id fun kept => callBack (kept.head?.getD .null) [] .unknown .finish

end Lumen.Native
