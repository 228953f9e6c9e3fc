import Lumen.Files

/-! Making directory trees.

A file or a directory is put at a path of a tree, and the directories on its way are made. -/
namespace Lumen

/-- Gives a name an entry, in place of the one it may have. -/
def Item.put (name : String) (entry : Entry) : List Item → List Item
  | [] => [⟨name, entry⟩]
  | item :: rest =>
    if item.name = name then ⟨name, entry⟩ :: rest
    else item :: put name entry rest

/-- A step down: the items of the directory it leaves, and the name it takes. -/
structure Step where
  items : List Item
  name : String

/-- The directory a step left, with an entry where the step led. -/
def Step.back (step : Step) (entry : Entry) : Entry :=
  .directory (Item.put step.name entry step.items)

namespace Entry

/-- The items of a directory. Anything else gives way to an empty directory. -/
def itemsOf : Option Entry → List Item
  | some (directory items) => items
  | _ => []

/-- The root, from an entry and the steps that lead there, the last step first. -/
def unwind (steps : List Step) (entry : Entry) : Entry :=
  steps.foldl (fun inner step => step.back inner) entry

/-- Changes what names lead to, and returns the root. They go on from `here`, where `steps`
have led, and the directories on their way are made. Names that leave the tree change
nothing more. -/
def alter (change : Option Entry → Entry) (steps : List Step) (here : Option Entry) :
    List String → Entry
  | [] => unwind steps (change here)
  | name :: rest =>
    let items := itemsOf here
    if name = ".." then
      match steps with
      | [] => directory items
      | step :: above => alter change above (some (step.back (directory items))) rest
    else alter change (⟨items, name⟩ :: steps) (Item.find? name items) rest

/-- Changes what is at a path below an entry. -/
def alterAt (change : Option Entry → Entry) (path : String) (root : Entry) : Entry :=
  if Path.isAbsolute path then root
  else alter change [] (some root) ((Path.names path).filter Path.moves)

/-- Puts a file at a path below an entry. -/
def write (path : String) (bytes : ByteArray) (root : Entry) : Entry :=
  root.alterAt (fun _ => file bytes) path

/-- Makes a directory at a path below an entry, unless there is one. -/
def makeDirectory (path : String) (root : Entry) : Entry :=
  root.alterAt (fun old => directory (itemsOf old)) path

end Entry

end Lumen
