import Lumen.Eval
import Lumen.Parser

/-! Sessions: one machine over many programs and calls. -/
namespace Lumen

/-- How a program or a call ends. -/
inductive Outcome where
  | value (v : Value)
  | error (e : Error)
  /-- Natives have nested programs too deep. -/
  | exhausted

structure Session where
  host : Host
  machine : Machine

namespace Session

/-- A session whose machine is ready for calls and programs. -/
def start (host : Host) : Session := ⟨host, Machine.empty.reset host.natives⟩

/-- Answers a request. -/
def serve (s : Session) (r : Request) : Outcome × Session :=
  match s.host.serve s.host.room r s.machine with
  | .ok v machine => (.value v, { s with machine })
  | .error (.error e) machine => (.error e, { s with machine })
  | .error (.breakOut _ position) machine =>
    (.error (.runtime position .strayBreak), { s with machine })
  | .error .exhausted machine => (.exhausted, { s with machine })

/-- Executes a program. -/
def execute (s : Session) (program : Block) : Outcome × Session := s.serve (.execute program)

/-- Calls a closure. -/
def call (s : Session) (c : Closure) (arguments : List Value) (position : Position) :
    Outcome × Session :=
  s.serve (c.request arguments position)

/-- Parses a source text and executes it. -/
def run (s : Session) (source : String) : Outcome × Session :=
  match parse source with
  | .ok program => s.execute program
  | .error e => (.error e, s)

/-- Makes a closure that captures an empty scope. -/
def close (s : Session) (function : Function) : Closure × Session :=
  let (c, machine) := s.machine.closeAlone function
  (c, { s with machine })

/-- Takes the lines written since they were last taken. -/
def takeOutput (s : Session) : List Line × Session :=
  (s.machine.output.toList, { s with machine := { s.machine with output := #[] } })

end Session

/-- Runs a source text on a machine of its own. -/
def run (host : Host) (source : String) : Outcome × List Line :=
  let (outcome, s) := (Session.start host).run source
  (outcome, s.takeOutput.1)

end Lumen
