/-! Directory trees.

An entry is a file with its bytes or a directory with named entries. A path is followed
component by component from a directory: one that is empty or a single dot stays where it
is, two dots go back up. What lies above the root is no part of the tree, and a path or a
name that has too many bytes leads nowhere. -/
namespace Lumen

mutual

inductive Entry where
  | file (bytes : ByteArray)
  | directory (items : List Item)

/-- A named entry of a directory. -/
structure Item where
  name : String
  entry : Entry

end

/-- Why a path leads nowhere. -/
inductive PathFault where
  | missing
  | notDirectory
  | nameTooLong
  | nullCharacter
  deriving DecidableEq, Repr

def PathFault.message : PathFault → String
  | missing => "No such file or directory (os error 2)"
  | notDirectory => "Not a directory (os error 20)"
  | nameTooLong => "File name too long (os error 36)"
  | nullCharacter => "file name contained an unexpected NUL byte"

/-- The entry of a name. -/
def Item.find? (name : String) (items : List Item) : Option Entry :=
  (items.find? (·.name == name)).map (·.entry)

/-! ### Paths -/

namespace Path

/-- Whether a path starts from the root of all files. -/
def isAbsolute (path : String) : Bool := path.toList.head? == some '/'

/-- What stands between the slashes of a path. -/
def names (path : String) : List String := (path.toList.splitOn '/').map String.ofList

/-- A name that leads somewhere else. -/
def moves (name : String) : Bool := name != "" && name != "."

/-- The components of a path: the names that lead somewhere, behind the slash or the single
dot that it begins with. -/
def components (path : String) : List String :=
  (if isAbsolute path then ["/"] else (names path).head?.toList.filter (· == ".")) ++
    (names path).filter moves

/-- The path of a name below a path. -/
def join (path name : String) : String :=
  if isAbsolute name then name
  else if path = "" ∨ path.toList.getLast? = some '/' then path ++ name
  else path ++ "/" ++ name

/-- The path of further names below a path. -/
def below (path : String) (rest : List String) : String := rest.foldl join path

/-- What a path has behind the components of `root`; all of it if it does not begin with them. -/
def relativeTo (root path : String) : List String :=
  if (components root).isPrefixOf (components path) then
    (components path).drop (components root).length
  else components path

/-- What follows the last dot of the last component, if something stands in front of it. -/
def extension? (path : String) : Option String := do
  let name ← (components path).getLast?
  guard (name ≠ "..")
  let letters := name.toList.reverse
  let stem := (letters.dropWhile (· != '.')).drop 1
  guard (stem ≠ [])
  return String.ofList (letters.takeWhile (· != '.')).reverse

/-- The written form of a path. -/
def display (path : List String) : String := "/".intercalate path

end Path

/-! ### Reading -/

/-- The text that some bytes encode. -/
def Text.decode (bytes : ByteArray) : Except String String :=
  match String.fromUTF8? bytes with
  | some contents => .ok contents
  | none => .error "stream did not contain valid UTF-8"

namespace Entry

/-- The most bytes that a component of a path may have. -/
def maxNameBytes : Nat := 255

/-- The fewest bytes that are too many for a path. -/
def pathBytesLimit : Nat := 4096

/-- Follows names from an entry, the last of the entries on the way. -/
def follow (above : List Entry) (here : Entry) :
    List String → Except PathFault (List Entry × Entry)
  | [] => .ok (above, here)
  | name :: rest =>
    match here with
    | file _ => .error .notDirectory
    | directory items =>
      if Path.moves name then
        if name = ".." then
          match above with
          | [] => .error .missing
          | up :: above => follow above up rest
        else if maxNameBytes < name.utf8ByteSize then .error .nameTooLong
        else
          match Item.find? name items with
          | none => .error .missing
          | some entry => follow (here :: above) entry rest
      else follow above here rest

/-- The entry at a path below a directory. A path from the root of all files leads out of it. -/
def resolve (root : Entry) (path : String) : Except PathFault Entry :=
  if '\x00' ∈ path.toList then .error .nullCharacter
  else if pathBytesLimit ≤ path.utf8ByteSize then .error .nameTooLong
  else if path = "" ∨ Path.isAbsolute path then .error .missing
  else (follow [] root (Path.names path)).map (·.2)

/-- Whether there is a file at a path. What cannot be reached is none. -/
def isFile (root : Entry) (path : String) : Bool :=
  match root.resolve path with
  | .ok (file _) => true
  | _ => false

/-- Whether there is a directory at a path. What cannot be reached is none. -/
def isDirectory (root : Entry) (path : String) : Bool :=
  match root.resolve path with
  | .ok (directory _) => true
  | _ => false

/-- The text of the file at a path. -/
def read (root : Entry) (path : String) : Except String String :=
  match root.resolve path with
  | .ok (file bytes) => Text.decode bytes
  | .ok (directory _) => .error "Is a directory (os error 21)"
  | .error fault => .error fault.message

end Entry

end Lumen
