import Lumen.Command.Arguments
import Lumen.Command.Work
import Lumen.Files.Editing
import Lumen.Script.Listing

/-! The shell around the command.

It takes the arguments apart, walks through directories and puts failures into words, as the
libraries do that the command is used with: the command itself leaves the three of them
open. -/
namespace Lumen

/-- The scripts at a path below a directory, which an empty path leads to. -/
def Script.loadAt (files : Entry) (path : String) : Except Error (List Script) :=
  Script.load Walk.listing files (if path = "" then "." else path)

/-- The written form of the path of a script. -/
def Script.displayPath (path : List String) : String := Path.display path

namespace Command

/-- What a process leaves behind. -/
structure Report where
  code : Nat
  standard : String
  diagnostic : String
  deriving DecidableEq, Repr

/-- A failure in words: the outermost context, and then the causes, numbered if there are
several. -/
def explain : Failure → String
  | [] => ""
  | [outer] => "Error: " ++ outer ++ "\n"
  | [outer, cause] => "Error: " ++ outer ++ "\n\nCaused by:\n    " ++ cause ++ "\n"
  | outer :: causes =>
    "Error: " ++ outer ++ "\n\nCaused by:\n" ++
      String.join (causes.zipIdx.map fun (cause, i) =>
        String.ofList (List.replicate (5 - (toString i).length) ' ') ++ toString i ++ ": " ++
          cause ++ "\n")

def Work.report (w : Work) : Report where
  code := w.code
  standard := w.standard
  diagnostic := w.text .diagnostic ++ ((w.failure.map explain).getD "")

/-- Runs the command in the directory `files`. A usage error has no report. -/
def invoke (arguments : List String) (files : Entry) (standardInput : ByteArray) :
    Option Report := do
  let o ← Options.parse arguments
  return (execute Walk.listing o files standardInput).report

end Command

end Lumen
