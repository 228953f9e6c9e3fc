import Lumen.Command.Options
import Lumen.Native.Console
import Lumen.Script
import Lumen.Session
import Lumen.Syntax.Dump

/-! What the command does.

The command shows the value, the tree or the tokens of a program. The program comes from
standard input or from a file; of a directory, every script is shown in turn under a line
with its path, up to the first that fails. What was written before a failure stays. -/
namespace Lumen.Command

/-- What a failure says, the outermost context first. -/
abbrev Failure := List String

/-- What some work wrote, and how it failed if it did. -/
structure Work where
  lines : List Line
  failure : Option Failure

/-- Where a program comes from, and what is found there. -/
inductive Input where
  | standard (contents : Except String String)
  | file (name : String) (contents : Except String String)
  | directory (name : String) (scripts : Except Error (List Script))

/-- An error with what caused it: a source that could not be read names the fault again. -/
def failureOf : Error → Failure
  | .unreadable words => [(Error.unreadable words).display, words]
  | e => [e.display]

def outLine (text : String) : Line := ⟨.standard, text⟩

/-- Shows a program as the options ask. -/
def present (o : Options) (source : String) : Work :=
  match o.emit with
  | .tokens =>
    match tokenize source with
    | .ok tokens => ⟨tokens.map fun t => outLine t.display, none⟩
    | .error e => ⟨[], some (failureOf e)⟩
  | .tree =>
    match parse source with
    | .ok program => ⟨[outLine program.dump], none⟩
    | .error e => ⟨[], some (failureOf e)⟩
  | .value =>
    match run ⟨Native.console, o.limits⟩ source with
    | (.value v, lines) => ⟨lines ++ [outLine v.display], none⟩
    | (.error e, lines) => ⟨lines, some (failureOf e)⟩
    | (.exhausted, lines) => ⟨lines, some ["exhausted"]⟩

/-- Shows scripts in turn, up to the first that fails. -/
def presentAll (o : Options) : List Script → Work
  | [] => ⟨[], none⟩
  | script :: rest =>
    let path := Path.display script.path
    let first := present o script.contents
    let lines := outLine ("== " ++ path) :: first.lines
    match first.failure with
    | some failure => ⟨lines, some (("in " ++ path) :: failure)⟩
    | none =>
      let others := presentAll o rest
      ⟨lines ++ others.lines, others.failure⟩

/-- Shows a program that `context` says how to name if there is no text. -/
def presentText (o : Options) (context : String) : Except String String → Work
  | .ok source => present o source
  | .error words => ⟨[], some [context, words]⟩

def work (o : Options) : Input → Work
  | .standard contents => presentText o "failed to read standard input" contents
  | .file name contents => presentText o ("failed to read input file " ++ name) contents
  | .directory _ (.ok scripts) => presentAll o scripts
  | .directory name (.error e) =>
    ⟨[], some (("failed to load scripts from " ++ name) :: failureOf e)⟩

/-- What there is to show, below a directory and on standard input. -/
def consult (walk : Walk) (files : Entry) (standardInput : ByteArray) : Option String → Input
  | none => .standard (Text.decode standardInput)
  | some name =>
    if files.isDirectory name then .directory name (Script.load walk files name)
    else .file name (files.read name)

/-- Does what the options ask in the directory `files`. -/
def execute (walk : Walk) (o : Options) (files : Entry) (standardInput : ByteArray) : Work :=
  work o (consult walk files standardInput o.input)

/-! ### What is left behind -/

namespace Work

/-- What was written to a channel. -/
def text (w : Work) (channel : Channel) : String :=
  String.join ((w.lines.filter (·.channel == channel)).map (·.text ++ "\n"))

/-- What was written to standard output. -/
def standard (w : Work) : String := w.text .standard

/-- The exit code. -/
def code (w : Work) : Nat := if w.failure.isSome then 1 else 0

end Work

end Lumen.Command
