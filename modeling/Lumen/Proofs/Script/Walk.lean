import Lumen.Proofs.Files.Paths
import Lumen.Proofs.Text.Bytes
import Lumen.Script.Listing

/-! Walks through directory trees.

A walk is to go depth first and to take the entries of a directory in the order of their names
(`Walk.DepthFirst`). Nothing more is asked of it: where an entry cannot be reached, because its path
has too many bytes, it may report a fault or not.

Then the scripts that such a walk meets are the files with the extension whose paths can be followed
(`Script.mem_among`). It meets them in the order of their paths, component by component: two files
that are in different entries of a directory have paths that part there, and the names of these
entries decide, whatever is below them (`Script.pairwise_among`). -/
namespace Lumen

/-- What a walk has met at the path of an entry. -/
structure Walk.Meets (walk : Walk) (files : Entry) (path : String)
    (met : List (Except PathFault String)) : Prop where
  /-- From an entry that can be reached it goes on. -/
  reached : ∀ entry, files.resolve path = .ok entry → met = walk files path
  /-- Of an entry that cannot be reached it lists the path at most. -/
  lost : ∀ fault, files.resolve path = .error fault → ∀ place, .ok place ∈ met → place = path

/-- What a walk owes in trees as file systems have them. -/
structure Walk.DepthFirst (walk : Walk) : Prop where
  /-- A file is met alone. -/
  file {files : Entry} {path : String} {bytes : ByteArray} : files.Proper →
    files.resolve path = .ok (.file bytes) → walk files path = [.ok path]
  /-- A directory is met before what is in it, and that in the order of the bytes of the names. -/
  directory {files : Entry} {path : String} {items : List Item} : files.Proper →
    files.resolve path = .ok (.directory items) →
      ∃ (ordered : List Item) (met : Item → List (Except PathFault String)),
        ordered.Perm items ∧
        ordered.Pairwise (fun a b => Text.bytes a.name < Text.bytes b.name) ∧
        walk files path = .ok path :: ordered.flatMap met ∧
        ∀ item ∈ items, walk.Meets files (Path.join path item.name) (met item)

namespace Script

/-! ### Names -/

/-- The extension of a name is what follows its last dot, if something stands in front of it. -/
def HasExtension (name extension : String) : Prop :=
  ∃ stem : String, stem ≠ "" ∧ name = stem ++ "." ++ extension ∧ '.' ∉ extension.toList

theorem extension?_eq_some {path name extension : String}
    (hlast : (Path.components path).getLast? = some name) (hname : name ≠ "..") :
    Path.extension? path = some extension ↔ HasExtension name extension := by
  have hextension : Path.extension? path = some extension ↔
      (name.toList.reverse.dropWhile (· != '.')).drop 1 ≠ [] ∧
        String.ofList (name.toList.reverse.takeWhile (· != '.')).reverse = extension := by
    simp [Path.extension?, hlast, hname, Option.bind_eq_some_iff, guard]
  rw [hextension]
  constructor
  · rintro ⟨hstem, rfl⟩
    have hsplit := List.takeWhile_append_dropWhile (p := (· != '.')) (l := name.toList.reverse)
    have hnone := List.mem_takeWhile_imp (p := (· != '.')) (l := name.toList.reverse) (x := '.')
    have hdot := List.head?_dropWhile_not (· != '.') name.toList.reverse
    generalize name.toList.reverse.takeWhile (· != '.') = back at hsplit hnone ⊢
    generalize name.toList.reverse.dropWhile (· != '.') = front at hsplit hstem hdot
    cases front with
    | nil => exact absurd rfl hstem
    | cons c stem =>
      obtain rfl : c = '.' := by simpa using hdot
      refine ⟨String.ofList stem.reverse, by simpa using hstem, ?_, by simpa using hnone⟩
      rw [← String.toList_inj, ← List.reverse_inj, ← hsplit]
      simp
  · rintro ⟨stem, hstem, rfl, hdot⟩
    have hreverse : (stem ++ "." ++ extension).toList.reverse =
        extension.toList.reverse ++ '.' :: stem.toList.reverse := by
      simp
    have hback : ∀ c ∈ extension.toList.reverse, (c != '.') = true := by
      intro c hc
      rw [List.mem_reverse] at hc
      exact bne_iff_ne.mpr fun h => hdot (h ▸ hc)
    rw [hreverse, List.takeWhile_append_of_pos hback, List.dropWhile_append_of_pos hback]
    simp [hstem]

/-- The last component of a path is a name that has the extension of scripts. -/
def NamesScript (components : List String) : Prop :=
  ∃ name, components.getLast? = some name ∧ HasExtension name extension

theorem extension?_eq_extension {path : String} :
    Path.extension? path = some extension ↔ NamesScript (Path.components path) := by
  cases hlast : (Path.components path).getLast? with
  | none => simp [NamesScript, Path.extension?, hlast]
  | some name =>
    by_cases hname : name = ".."
    · subst hname
      have hnone : ¬HasExtension ".." extension := by
        rintro ⟨stem, -, hstem, -⟩
        have := congrArg (·.toList.getLast?) hstem
        simp [extension] at this
      simp [NamesScript, Path.extension?, hlast, guard, hnone]
    · simp [extension?_eq_some hlast hname, NamesScript, hlast]

theorem isScript_iff {files : Entry} {path : String} :
    isScript files path = true ↔
      (∃ bytes, files.resolve path = .ok (.file bytes)) ∧ NamesScript (Path.components path) := by
  have hfile : files.isFile path = true ↔ ∃ bytes, files.resolve path = .ok (.file bytes) := by
    rw [Entry.isFile]
    split
    · next bytes hresolve => simp [hresolve]
    · next hother => simpa using hother
  rw [isScript, Bool.and_eq_true, hfile, beq_iff_eq, extension?_eq_extension]

/-- Below what the path `root` leads to, there is a file at these names, with these bytes, that has
the extension of scripts. -/
structure IsScript (root : String) (entry : Entry) (path : List String) (bytes : ByteArray) :
    Prop where
  leads : entry.Leads path (.file bytes)
  extension : NamesScript (Path.components root ++ path)

/-- The path of the names below `root` has few enough bytes to be followed. -/
def Reachable (root : String) (path : List String) : Prop :=
  (Path.below root path).utf8ByteSize < Entry.pathBytesLimit

/-! ### What the walk meets -/

section Walk
variable {walk : Walk} (hwalk : walk.DepthFirst) {files : Entry} (hproper : files.Proper)
include hwalk hproper

/-- Of a file, the walk meets the file. -/
theorem among_file {root : String} {bytes : ByteArray} (hfile : files.resolve root = .ok (.file bytes)) :
    among files (walk files root) = if isScript files root then [root] else [] := by
  rw [hwalk.file hproper hfile, among]
  simp [Except.toOption, List.filter_cons]

/-- Of a directory, the walk meets the scripts from its entries on, in the order of their names. -/
theorem among_directory {root : String} {items : List Item}
    (hdirectory : files.resolve root = .ok (.directory items)) :
    ∃ (ordered : List Item) (scripts : Item → List String),
      ordered.Perm items ∧ ordered.Pairwise (fun a b => Text.bytes a.name < Text.bytes b.name) ∧
      among files (walk files root) = ordered.flatMap scripts ∧
      ∀ item ∈ items,
        files.resolve (Path.join root item.name) = .ok item.entry ∧
            scripts item = among files (walk files (Path.join root item.name)) ∨
          (∃ fault, files.resolve (Path.join root item.name) = .error fault) ∧ scripts item = [] := by
  obtain ⟨ordered, met, hperm, hordered, hlist, hmeets⟩ := hwalk.directory hproper hdirectory
  have hroot : isScript files root = false := by
    simp [isScript, Entry.isFile, hdirectory]
  refine ⟨ordered, fun item => among files (met item), hperm, hordered, ?_, fun item hitem => ?_⟩
  · rw [hlist, among, List.filterMap_cons, List.filterMap_flatMap]
    simp only [Except.toOption, List.filter_cons, hroot, List.filter_flatMap]
    rfl
  · cases hresolve : files.resolve (Path.join root item.name) with
    | ok entry =>
      obtain ⟨-, hshort, -⟩ := Entry.resolve_eq_ok.mp hresolve
      have hentry : files.resolve (Path.join root item.name) = .ok item.entry := by
        cases hproper.of_resolve hdirectory with
        | directory hnames hdistinct _ =>
          exact Entry.resolve_join (hnames item hitem) hdirectory
            (Item.find?_of_mem hdistinct hitem) hshort
      rw [hresolve] at hentry
      exact .inl ⟨hentry, congrArg (among files) ((hmeets item hitem).reached entry hresolve)⟩
    | error fault =>
      refine .inr ⟨⟨fault, rfl⟩, List.filter_eq_nil_iff.mpr fun place hplace => ?_⟩
      obtain ⟨visit, hvisit, hsome⟩ := List.mem_filterMap.mp hplace
      cases visit with
      | error => cases hsome
      | ok place' =>
        obtain rfl := Option.some.inj hsome
        obtain rfl := (hmeets item hitem).lost fault hresolve _ hvisit
        simp [isScript, Entry.isFile, hresolve]

/-- A script that is met is in the tree. -/
theorem leads_of_mem_among {root place : String} {entry : Entry} (hroot : files.resolve root = .ok entry)
    (hplace : place ∈ among files (walk files root)) :
    ∃ path bytes, place = Path.below root path ∧ entry.Leads path (.file bytes) ∧
      files.resolve place = .ok (.file bytes) := by
  induction hproper.of_resolve hroot generalizing root with
  | file bytes =>
    rw [among_file hwalk hproper hroot] at hplace
    split at hplace
    · obtain rfl := List.mem_singleton.mp hplace
      exact ⟨[], bytes, rfl, .here _, hroot⟩
    · cases hplace
  | @directory items hnames hdistinct _ ih =>
    obtain ⟨ordered, scripts, hperm, -, hlist, hitems⟩ := among_directory hwalk hproper hroot
    rw [hlist, List.mem_flatMap] at hplace
    obtain ⟨item, hitem, hplace⟩ := hplace
    replace hitem := hperm.mem_iff.mp hitem
    obtain ⟨hreached, hscripts⟩ | ⟨-, hscripts⟩ := hitems item hitem
    · rw [hscripts] at hplace
      obtain ⟨path, bytes, rfl, hleads, hresolve⟩ := ih item hitem hreached hplace
      refine ⟨item.name :: path, bytes, rfl, ?_, hresolve⟩
      exact .down (hnames item hitem) (Item.find?_of_mem hdistinct hitem) hleads
    · rw [hscripts] at hplace
      cases hplace

/-- A script in the tree is met if its path can be followed. -/
theorem mem_among_of_leads {root : String} {entry : Entry} {path : List String} {bytes : ByteArray}
    (hroot : files.resolve root = .ok entry) (hleads : entry.Leads path (.file bytes))
    (hshort : Reachable root path)
    (hscript : isScript files (Path.below root path) = true) :
    Path.below root path ∈ among files (walk files root) := by
  generalize hfile : Entry.file bytes = file at hleads
  induction hleads generalizing root with
  | here =>
    subst hfile
    have hscript : isScript files root = true := hscript
    rw [among_file hwalk hproper hroot, if_pos hscript]
    exact List.mem_singleton_self _
  | @down items name inner _ rest hname hfind hrest ih =>
    obtain ⟨-, -, hne, -⟩ := Entry.resolve_eq_ok.mp hroot
    obtain ⟨ordered, scripts, hperm, -, hlist, hitems⟩ := among_directory hwalk hproper hroot
    have hitem := Item.mem_of_find? hfind
    have hle := Path.utf8ByteSize_le_below (Path.join_ne_empty hne hname) hrest.isFileName
    have hinner := Entry.resolve_join hname hroot hfind (Nat.lt_of_le_of_lt hle hshort)
    rw [hlist, List.mem_flatMap]
    refine ⟨⟨name, inner⟩, hperm.mem_iff.mpr hitem, ?_⟩
    obtain ⟨-, hscripts⟩ | ⟨⟨fault, hfault⟩, -⟩ := hitems _ hitem
    · rw [hscripts]
      exact ih hinner hshort hscript hfile
    · rw [hinner] at hfault
      cases hfault

/-- **What a walk meets.** Of the scripts in the tree it meets those whose paths can be followed. -/
theorem mem_among {root place : String} {entry : Entry} (hroot : files.resolve root = .ok entry) :
    place ∈ among files (walk files root) ↔
      ∃ path bytes, place = Path.below root path ∧ IsScript root entry path bytes ∧
        Reachable root path := by
  constructor
  · intro hplace
    have hscript := (List.mem_filter.mp hplace).2
    obtain ⟨path, bytes, rfl, hleads, hresolve⟩ := leads_of_mem_among hwalk hproper hroot hplace
    obtain ⟨-, hshort, -⟩ := Entry.resolve_eq_ok.mp hresolve
    have hextension := (isScript_iff.mp hscript).2
    rw [Path.components_below root hleads.isFileName] at hextension
    exact ⟨path, bytes, rfl, ⟨hleads, hextension⟩, hshort⟩
  · rintro ⟨path, bytes, rfl, ⟨hleads, hextension⟩, hshort⟩
    refine mem_among_of_leads hwalk hproper hroot hleads hshort (isScript_iff.mpr ⟨⟨bytes, ?_⟩, ?_⟩)
    · exact Entry.resolve_below hroot hleads hshort
    · rw [Path.components_below root hleads.isFileName]
      exact hextension

end Walk

/-! ### The order in which it meets them -/

/-- One path comes before another: they are compared component by component, and components byte by
byte. -/
def PathBefore (p q : List String) : Prop := p.map Text.bytes < q.map Text.bytes

theorem PathBefore.ne {p q : List String} (h : PathBefore p q) : p ≠ q := by
  rintro rfl
  exact List.lt_irrefl _ h

theorem PathBefore.cons {p q : List String} (h : PathBefore p q) (name : String) :
    PathBefore (name :: p) (name :: q) :=
  List.cons_lt_cons_iff.mpr (.inr ⟨rfl, h⟩)

/-- Where paths part, the names decide. -/
theorem pathBefore_of_lt {a b : String} (h : Text.bytes a < Text.bytes b) (rest rest' : List String) :
    PathBefore (a :: rest) (b :: rest') :=
  List.cons_lt_cons_iff.mpr (.inl h)

/-- Scripts are met in the order of their paths. -/
theorem pairwise_among {walk : Walk} (hwalk : walk.DepthFirst) {files : Entry}
    (hproper : files.Proper) {root : String} {entry : Entry} (hroot : files.resolve root = .ok entry) :
    (among files (walk files root)).Pairwise fun p q =>
      PathBefore (Path.relativeTo root p) (Path.relativeTo root q) := by
  induction hproper.of_resolve hroot generalizing root with
  | file bytes =>
    rw [among_file hwalk hproper hroot]
    split
    · exact List.pairwise_singleton _ _
    · exact .nil
  | @directory items hnames hdistinct _ ih =>
    obtain ⟨ordered, scripts, hperm, hordered, hlist, hitems⟩ := among_directory hwalk hproper hroot
    -- the path of a script below an item goes on from the name of the item
    have hbelow : ∀ item ∈ items, ∀ place ∈ scripts item,
        Path.relativeTo root place =
          item.name :: Path.relativeTo (Path.join root item.name) place := by
      intro item hitem place hplace
      obtain ⟨hreached, hscripts⟩ | ⟨-, hscripts⟩ := hitems item hitem
      · rw [hscripts] at hplace
        obtain ⟨path, bytes, rfl, hleads, -⟩ := leads_of_mem_among hwalk hproper hreached hplace
        have hpath := List.forall_mem_cons.mpr ⟨hnames item hitem, hleads.isFileName⟩
        rw [Path.relativeTo_below _ hleads.isFileName, ← Path.below_cons,
          Path.relativeTo_below root hpath]
      · rw [hscripts] at hplace
        cases hplace
    rw [hlist, List.pairwise_flatMap]
    refine ⟨fun item hitem => ?_, hordered.imp_of_mem fun {a b} ha hb hlt p hp q hq => ?_⟩
    · replace hitem := hperm.mem_iff.mp hitem
      have hinner : (scripts item).Pairwise fun p q =>
          PathBefore (Path.relativeTo (Path.join root item.name) p)
            (Path.relativeTo (Path.join root item.name) q) := by
        obtain ⟨hreached, hscripts⟩ | ⟨-, hscripts⟩ := hitems item hitem
        · rw [hscripts]
          exact ih item hitem hreached
        · rw [hscripts]
          exact .nil
      refine hinner.imp_of_mem fun {p q} hp hq hpq => ?_
      rw [hbelow item hitem p hp, hbelow item hitem q hq]
      exact hpq.cons item.name
    · rw [hbelow a (hperm.mem_iff.mp ha) p hp, hbelow b (hperm.mem_iff.mp hb) q hq]
      exact pathBefore_of_lt hlt _ _

end Script

/-! ### The walk of the shell -/

namespace Walk

/-- What the listing meets at an item of a directory. -/
def metAt (files : Entry) (path : String) (item : Item) : List (Except PathFault String) :=
  enter files (Path.join path item.name) item.entry

/-- Items in the order of their names. -/
def inOrder (items : List Item) : List Item := items.foldr (insertBy (·.name)) []

theorem insertBy_map {α β : Type} {name : α → String} {name' : β → String} (f : α → β)
    (h : ∀ a, name' (f a) = name a) (a : α) (as : List α) :
    insertBy name' (f a) (as.map f) = (insertBy name a as).map f := by
  induction as with
  | nil => rfl
  | cons b rest ih =>
    rw [List.map_cons, insertBy, insertBy, h, h, ih]
    split <;> rfl

theorem enterAll_eq_map (files : Entry) (path : String) (items : List Item) :
    enterAll files path items =
      (inOrder items).map fun item => (item.name, metAt files path item) := by
  induction items with
  | nil => rfl
  | cons item rest ih =>
    obtain ⟨name, entry⟩ := item
    rw [enterAll, ih]
    exact insertBy_map (fun item => (item.name, metAt files path item)) (fun _ => rfl) ⟨name, entry⟩ _

theorem insertBy_perm (item : Item) (items : List Item) :
    (insertBy (·.name) item items).Perm (item :: items) := by
  induction items with
  | nil => exact .refl _
  | cons first rest ih =>
    rw [insertBy]
    split
    · exact .refl _
    · exact (ih.cons first).trans (.swap _ _ _)

theorem inOrder_perm (items : List Item) : (inOrder items).Perm items := by
  induction items with
  | nil => exact .refl _
  | cons item rest ih => exact (insertBy_perm item _).trans (ih.cons item)

theorem insertBy_pairwise {item : Item} {items : List Item}
    (h : items.Pairwise fun a b => a.name < b.name) (hnew : ∀ other ∈ items, item.name ≠ other.name) :
    (insertBy (·.name) item items).Pairwise fun a b => a.name < b.name := by
  induction items with
  | nil => exact List.pairwise_singleton _ _
  | cons first rest ih =>
    obtain ⟨hfirst, hrest⟩ := List.pairwise_cons.mp h
    obtain ⟨hne, hnew⟩ := List.forall_mem_cons.mp hnew
    rw [insertBy]
    split
    · next hle =>
      have hlt : item.name < first.name := by
        by_cases hlt : item.name < first.name
        · exact hlt
        · exact absurd (String.le_antisymm hle (String.not_lt.mp hlt)) hne
      refine List.pairwise_cons.mpr ⟨List.forall_mem_cons.mpr ⟨hlt, fun other hother => ?_⟩, h⟩
      exact String.lt_trans hlt (hfirst other hother)
    · next hnot =>
      refine List.pairwise_cons.mpr ⟨fun other hother => ?_, ih hrest hnew⟩
      obtain rfl | hother := List.mem_cons.mp ((insertBy_perm item rest).mem_iff.mp hother)
      · exact String.not_le.mp hnot
      · exact hfirst other hother

/-- Items with different names are sorted by them. -/
theorem inOrder_pairwise {items : List Item} (h : (items.map (·.name)).Nodup) :
    (inOrder items).Pairwise fun a b => a.name < b.name := by
  induction items with
  | nil => exact .nil
  | cons item rest ih =>
    rw [List.map_cons, List.nodup_cons] at h
    refine insertBy_pairwise (ih h.2) fun other hother heq => h.1 ?_
    rw [heq]
    exact List.mem_map_of_mem ((inOrder_perm rest).mem_iff.mp hother)

/-- The listing does what a walk owes. -/
theorem listing_depthFirst : listing.DepthFirst where
  file {files path bytes} _ hfile := by
    rw [listing, hfile]
    rfl
  directory {files path items} hproper hdirectory := by
    cases hproper.of_resolve hdirectory with
    | directory hnames hdistinct _ =>
      refine ⟨inOrder items, metAt files path, inOrder_perm items,
        (inOrder_pairwise hdistinct).imp Text.bytes_lt_iff.mpr, ?_, fun item hitem => ⟨?_, ?_⟩⟩
      · simp only [listing, hdirectory, enter]
        rw [enterAll_eq_map, List.flatMap_map]
      · intro entry hentry
        obtain ⟨-, hshort, -⟩ := Entry.resolve_eq_ok.mp hentry
        have hresolve := Entry.resolve_join (hnames item hitem) hdirectory
          (Item.find?_of_mem hdistinct hitem) hshort
        rw [listing, hresolve]
        rfl
      · intro fault hfault place hplace
        rw [metAt] at hplace
        cases hitem : item.entry with
        | file bytes =>
          rw [hitem, enter] at hplace
          exact Except.ok.inj (List.mem_singleton.mp hplace)
        | directory inner =>
          rw [hitem, enter, hfault] at hplace
          simpa using hplace

end Walk

end Lumen
