import Lumen.Script

/-! A walk over directory trees, for a shell that has none of its own.

It goes depth first and takes the entries of a directory in the order of their names. A
directory that cannot be entered is listed, and the fault behind it. -/
namespace Lumen.Walk

/-- Puts something before what its name does not come after. -/
def insertBy {α : Type} (name : α → String) (a : α) : List α → List α
  | [] => [a]
  | b :: rest => if name a ≤ name b then a :: b :: rest else b :: insertBy name a rest

mutual

/-- What there is from the path of an entry on. -/
def enter (files : Entry) (path : String) : Entry → List (Except PathFault String)
  | .file _ => [.ok path]
  | .directory items =>
    match files.resolve path with
    | .error fault => [.ok path, .error fault]
    | .ok _ => .ok path :: (enterAll files path items).flatMap (·.2)

/-- What there is from the paths of items of a directory on, in the order of their names. -/
def enterAll (files : Entry) (path : String) :
    List Item → List (String × List (Except PathFault String))
  | [] => []
  | ⟨name, entry⟩ :: rest =>
    insertBy (·.1) (name, enter files (Path.join path name) entry) (enterAll files path rest)

end

/-- A walk from a path on. -/
def listing : Walk := fun files path =>
  match files.resolve path with
  | .error fault => [.error fault]
  | .ok entry => enter files path entry

end Lumen.Walk
