import Lumen.Error
import Lumen.Files

/-! Scripts: the program files below a directory.

Where to look for them is up to a walk, which lists what it meets from a path on. It may meet
directories, and places that it cannot enter: these are passed over, and of the rest only
files whose names have the extension of scripts are taken. If one of them is not valid text,
none is. -/
namespace Lumen

/-- What there is from a path on, in the order of a walk: the path of everything it meets, and
a fault where it cannot go on. -/
abbrev Walk := Entry → String → List (Except PathFault String)

structure Script where
  /-- The components of its path behind those of the path that the walk began with. -/
  path : List String
  contents : String
  deriving DecidableEq, Repr

namespace Script

/-- The extension of scripts. -/
def extension : String := "lm"

/-- Whether there is a script at a path. -/
def isScript (files : Entry) (path : String) : Bool :=
  files.isFile path && Path.extension? path == some extension

/-- The paths of the scripts among what a walk has met. -/
def among (files : Entry) (met : List (Except PathFault String)) : List String :=
  (met.filterMap Except.toOption).filter (isScript files)

/-- Reads the script at a path that was met on the way from `root`. -/
def read (files : Entry) (root path : String) : Except Error Script :=
  match files.read path with
  | .ok contents => .ok ⟨Path.relativeTo root path, contents⟩
  | .error words => .error (.unreadable words)

/-- The scripts from a path on. The walk takes a path that leads nowhere for a place that it
cannot enter, so the path is looked at first. -/
def load (walk : Walk) (files : Entry) (root : String) : Except Error (List Script) :=
  match files.resolve root with
  | .error fault => .error (.unreadable fault.message)
  | .ok _ => (among files (walk files root)).mapM (read files root)

end Script

end Lumen
