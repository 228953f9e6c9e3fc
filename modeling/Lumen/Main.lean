import Lumen.Command

/-! The `lumen` executable: reads what the arguments name, and prints the report. -/
namespace Lumen.Command

/-- Reads a directory tree. Of its files only those that may be scripts are needed. -/
partial def readTree (place : IO.FS.DirEntry) : IO Entry := do
  if ← place.path.isDir then
    let places ← place.path.readDir
    let items ← places.toList.mapM fun inner => do
      return (⟨inner.fileName, ← readTree inner⟩ : Item)
    return .directory items
  else if Path.extension? place.fileName == some Script.extension then
    return .file (← IO.FS.readBinFile place.path)
  else
    return .file ByteArray.empty

/-- Reads the file or the directory tree that an operand names. -/
def readOperand (name : String) : IO Input := do
  let place : IO.FS.DirEntry := ⟨".", name⟩
  try
    if ← place.path.isDir then
      return .directory name (Script.loadAt (← readTree place) "")
    else
      return .file name (Text.decode (← IO.FS.readBinFile place.path))
  catch
    | .inappropriateType .. => return .file name (.error PathFault.notDirectory.message)
    | .invalidArgument .. => return .file name (.error PathFault.nameTooLong.message)
    | _ => return .file name (.error PathFault.missing.message)

def readInput (o : Options) : IO Input := do
  match o.input with
  | none => return .standard (Text.decode (← (← IO.getStdin).readBinToEnd))
  | some name => readOperand name

def usage : String :=
  "usage: lumen [--emit value|ast|tokens] [--max-depth N] [--max-iterations N] [-v] [INPUT]"

end Lumen.Command

open Lumen.Command in
def main (arguments : List String) : IO UInt32 := do
  match Options.parse arguments with
  | none =>
    IO.eprintln usage
    return 2
  | some o =>
    let report := (work o (← readInput o)).report
    IO.print report.standard
    IO.eprint report.diagnostic
    return report.code.toUInt32
