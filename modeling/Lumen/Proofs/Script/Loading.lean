import Lumen.Proofs.Script.Walk

/-! Loading scripts.

Loading gives the scripts of the tree that a walk meets, with their whole texts, or nothing but a
failure (`Script.load_scripts`). These are not all scripts of the tree: one whose path has too many
bytes to be followed is passed over without a failure (`Script.load_misses_script`). -/
namespace Lumen.Script

/-! ### Texts -/

theorem decode_eq_ok {bytes : ByteArray} {contents : String} :
    Text.decode bytes = .ok contents ↔ bytes = contents.toUTF8 := by
  rw [Text.decode, String.fromUTF8?]
  constructor
  · intro h
    by_cases hvalid : bytes.IsValidUTF8
    · rw [dif_pos hvalid] at h
      obtain rfl := Except.ok.inj h
      rfl
    · rw [dif_neg hvalid] at h
      cases h
  · rintro rfl
    simp only [String.toUTF8_eq_toByteArray, dif_pos contents.isValidUTF8]
    rfl

theorem read_file {files : Entry} {place : String} {bytes : ByteArray}
    (h : files.resolve place = .ok (.file bytes)) : files.read place = Text.decode bytes := by
  rw [Entry.read, h]

theorem read_eq_ok {files : Entry} {root place : String} {script : Script} :
    read files root place = .ok script ↔
      script.path = Path.relativeTo root place ∧ files.read place = .ok script.contents := by
  obtain ⟨path, contents⟩ := script
  rw [read]
  cases files.read place with
  | ok text => simp [eq_comm]
  | error words => simp

/-! ### One script after the other -/

section Lists
variable {α β : Type} {f : α → Except Error β}

/-- What is read is read in turn. -/
theorem forall₂_of_mapM {as : List α} {bs : List β} (h : as.mapM f = .ok bs) :
    List.Forall₂ (fun a b => f a = .ok b) as bs := by
  induction as generalizing bs with
  | nil =>
    obtain rfl := Except.ok.inj h
    exact .nil
  | cons a as ih =>
    rw [List.mapM_cons] at h
    cases ha : f a with
    | error e =>
      rw [ha] at h
      cases h
    | ok b =>
      rw [ha] at h
      cases has : as.mapM f with
      | error e =>
        rw [has] at h
        cases h
      | ok rest =>
        rw [has] at h
        obtain rfl := Except.ok.inj h
        exact .cons ha (ih has)

theorem mem_of_forall₂ {as : List α} {bs : List β}
    (h : List.Forall₂ (fun a b => f a = .ok b) as bs) {b : β} : b ∈ bs ↔ ∃ a ∈ as, f a = .ok b := by
  induction h with
  | nil => simp
  | cons hab _ ih => simp [ih, hab, eq_comm]

theorem exists_of_forall₂ {as : List α} {bs : List β}
    (h : List.Forall₂ (fun a b => f a = .ok b) as bs) {a : α} (ha : a ∈ as) : ∃ b, f a = .ok b := by
  induction h with
  | nil => cases ha
  | cons hab _ ih =>
    obtain rfl | ha := List.mem_cons.mp ha
    · exact ⟨_, hab⟩
    · exact ih ha

/-- A failure is that of one of them. -/
theorem exists_of_mapM_error {as : List α} {e : Error} (h : as.mapM f = .error e) :
    ∃ a ∈ as, f a = .error e := by
  induction as with
  | nil => cases h
  | cons a as ih =>
    rw [List.mapM_cons] at h
    cases ha : f a with
    | error e' =>
      rw [ha] at h
      obtain rfl := Except.error.inj h
      exact ⟨a, List.mem_cons_self, ha⟩
    | ok b =>
      rw [ha] at h
      cases has : as.mapM f with
      | error e' =>
        rw [has] at h
        obtain rfl := Except.error.inj h
        obtain ⟨a', hmem, ha'⟩ := ih has
        exact ⟨a', List.mem_cons_of_mem _ hmem, ha'⟩
      | ok rest =>
        rw [has] at h
        cases h

end Lists

/-! ### Loading -/

/-- Every script of the tree whose path can be followed is valid text. -/
def Readable (root : String) (entry : Entry) : Prop :=
  ∀ path bytes, IsScript root entry path bytes → Reachable root path →
    ∃ contents : String, bytes = contents.toUTF8

section Walk
variable {walk : Walk} (hwalk : walk.DepthFirst) {files : Entry} (hproper : files.Proper)
  {root : String} {entry : Entry} (hroot : files.resolve root = .ok entry)

include hroot in
theorem load_eq_mapM :
    load walk files root = (among files (walk files root)).mapM (read files root) := by
  rw [load, hroot]

include hwalk hproper hroot

/-- The script that is read at a place that the walk has met. -/
theorem read_met {place : String} (hplace : place ∈ among files (walk files root))
    {script : Script} (hread : read files root place = .ok script) :
    place = Path.below root script.path ∧
      files.resolve place = .ok (.file script.contents.toUTF8) ∧
      IsScript root entry script.path script.contents.toUTF8 ∧ Reachable root script.path := by
  obtain ⟨path, bytes, rfl, hscript, hshort⟩ := (mem_among hwalk hproper hroot).mp hplace
  have hfile := Entry.resolve_below hroot hscript.leads hshort
  obtain ⟨hpath, hcontents⟩ := read_eq_ok.mp hread
  rw [Path.relativeTo_below root hscript.leads.isFileName] at hpath
  rw [read_file hfile, decode_eq_ok] at hcontents
  subst hpath hcontents
  exact ⟨rfl, hfile, hscript, hshort⟩

/-- A script of the tree that can be reached is read where the walk meets it. -/
theorem exists_met {script : Script}
    (hscript : IsScript root entry script.path script.contents.toUTF8)
    (hshort : Reachable root script.path) :
    ∃ place ∈ among files (walk files root), read files root place = .ok script := by
  refine ⟨_, (mem_among hwalk hproper hroot).mpr ⟨_, _, rfl, hscript, hshort⟩, read_eq_ok.mpr ?_⟩
  rw [Path.relativeTo_below root hscript.leads.isFileName,
    read_file (Entry.resolve_below hroot hscript.leads hshort), decode_eq_ok]
  exact ⟨rfl, rfl⟩

/-- The path of a script that is loaded leads to its file. -/
theorem resolve_of_mem_load {scripts : List Script} (hload : load walk files root = .ok scripts)
    {script : Script} (hmem : script ∈ scripts) :
    files.resolve (Path.below root script.path) = .ok (.file script.contents.toUTF8) := by
  rw [load_eq_mapM hroot] at hload
  obtain ⟨place, hplace, hread⟩ := (mem_of_forall₂ (forall₂_of_mapM hload)).mp hmem
  obtain ⟨rfl, hfile, -⟩ := read_met hwalk hproper hroot hplace hread
  exact hfile

/-- The scripts that are loaded are those of the tree that can be reached. -/
theorem mem_load {scripts : List Script} (hload : load walk files root = .ok scripts)
    (script : Script) : script ∈ scripts ↔
      IsScript root entry script.path script.contents.toUTF8 ∧ Reachable root script.path := by
  rw [load_eq_mapM hroot] at hload
  rw [mem_of_forall₂ (forall₂_of_mapM hload)]
  constructor
  · rintro ⟨place, hplace, hread⟩
    exact (read_met hwalk hproper hroot hplace hread).2.2
  · rintro ⟨hscript, hshort⟩
    exact exists_met hwalk hproper hroot hscript hshort

/-- Scripts are loaded in the order of their paths. -/
theorem pairwise_load {scripts : List Script} (hload : load walk files root = .ok scripts) :
    scripts.Pairwise fun s t => PathBefore s.path t.path := by
  rw [load_eq_mapM hroot] at hload
  have hpaths : scripts.map (·.path) =
      (among files (walk files root)).map (Path.relativeTo root) := by
    rw [← List.forall₂_eq_eq_eq, List.forall₂_map_left_iff, List.forall₂_map_right_iff]
    exact (forall₂_of_mapM hload).flip.imp fun script place h => (read_eq_ok.mp h).1
  rw [← List.pairwise_map, hpaths, List.pairwise_map]
  exact pairwise_among hwalk hproper hroot

/-- Loading succeeds only if all scripts that the walk meets are valid text. -/
theorem readable_of_load {scripts : List Script} (hload : load walk files root = .ok scripts) :
    Readable root entry := by
  rw [load_eq_mapM hroot] at hload
  intro path bytes hscript hshort
  have hplace := (mem_among hwalk hproper hroot).mpr ⟨path, bytes, rfl, hscript, hshort⟩
  obtain ⟨script, hread⟩ := exists_of_forall₂ (forall₂_of_mapM hload) hplace
  obtain ⟨-, hcontents⟩ := read_eq_ok.mp hread
  rw [read_file (Entry.resolve_below hroot hscript.leads hshort), decode_eq_ok] at hcontents
  exact ⟨script.contents, hcontents⟩

/-- Loading fails if the walk meets a script that is not valid text. -/
theorem exists_unreadable {e : Error} (hload : load walk files root = .error e) :
    ¬Readable root entry ∧ ∃ words, e = .unreadable words := by
  rw [load_eq_mapM hroot] at hload
  obtain ⟨place, hplace, hread⟩ := exists_of_mapM_error hload
  obtain ⟨path, bytes, rfl, hscript, hshort⟩ := (mem_among hwalk hproper hroot).mp hplace
  rw [read, read_file (Entry.resolve_below hroot hscript.leads hshort)] at hread
  cases hdecode : Text.decode bytes with
  | ok contents =>
    rw [hdecode] at hread
    cases hread
  | error words =>
    rw [hdecode] at hread
    refine ⟨fun hreadable => ?_, words, (Except.error.inj hread).symm⟩
    obtain ⟨contents, hcontents⟩ := hreadable path bytes hscript hshort
    rw [decode_eq_ok.mpr hcontents] at hdecode
    cases hdecode

end Walk

/-- A file below `a`, one whose name begins like that, and a directory with the extension that
holds a name which is nothing else. -/
def mixedTree : Entry :=
  .directory [⟨"x.lm", .directory [⟨".lm", .file ⟨#[255]⟩⟩]⟩, ⟨"a-.lm", .file "2;".toUTF8⟩,
    ⟨"a", .directory [⟨"b.lm", .file "1;".toUTF8⟩]⟩]

/-- A directory with that tree in it. -/
def mixedFiles : Entry := .directory [⟨"d", mixedTree⟩]

theorem mixedFiles_proper : mixedFiles.Proper := by
  have hx : (Entry.directory [⟨".lm", .file ⟨#[255]⟩⟩]).Proper :=
    .directory (by decide) (by decide) (by simp [Entry.Proper.file])
  have ha : (Entry.directory [⟨"b.lm", .file "1;".toUTF8⟩]).Proper :=
    .directory (by decide) (by decide) (by simp [Entry.Proper.file])
  have htree : mixedTree.Proper := by
    refine .directory (by decide) (by decide) ?_
    simp only [List.forall_mem_cons]
    exact ⟨hx, .file _, ha, List.forall_mem_nil _⟩
  exact .directory (by decide) (by decide) (by simp [htree])

theorem load_mixed :
    load Walk.listing mixedFiles "d" = .ok [⟨["a", "b.lm"], "1;"⟩, ⟨["a-.lm"], "2;"⟩] := by
  decide +kernel

/-- A path that stays where it is. -/
def dots : Nat → String
  | 0 => "."
  | n + 1 => dots n ++ "/" ++ "."

theorem utf8ByteSize_dots (n : Nat) : (dots n).utf8ByteSize = 2 * n + 1 := by
  induction n with
  | zero => decide
  | succ n ih =>
    have hsize : ("/" ++ ".").utf8ByteSize = 2 := by decide
    rw [dots, String.append_assoc, String.utf8ByteSize_append, ih, hsize]
    omega

theorem head?_dots (n : Nat) : (dots n).toList.head? = some '.' := by
  induction n with
  | zero => decide
  | succ n ih => simp [dots, ih]

theorem mem_dots {n : Nat} {c : Char} (h : c ∈ (dots n).toList) : c = '.' ∨ c = '/' := by
  induction n with
  | zero => exact .inl (by simpa [dots] using h)
  | succ n ih =>
    have h : (c ∈ (dots n).toList ∨ c = '/') ∨ c = '.' := by simpa [dots, or_assoc] using h
    obtain (h | h) | h := h
    · exact ih h
    · exact .inr h
    · exact .inl h

theorem names_dots (n : Nat) : Path.names (dots n) = List.replicate (n + 1) "." := by
  induction n with
  | zero => decide
  | succ n ih =>
    rw [dots, Path.names_append_slash, ih, List.replicate_succ' (n := n + 1)]
    rfl

theorem follow_dots (above : List Entry) (items : List Item) (n : Nat) :
    Entry.follow above (.directory items) (List.replicate n ".") = .ok (above, .directory items) := by
  induction n with
  | zero => rfl
  | succ n ih => exact ih

theorem resolve_dots (items : List Item) {n : Nat} (hshort : 2 * n + 1 < Entry.pathBytesLimit) :
    (Entry.directory items).resolve (dots n) = .ok (.directory items) := by
  refine Entry.resolve_eq_ok.mpr ⟨?_, ?_, ?_, ?_, [], ?_⟩
  · intro h
    obtain h | h := mem_dots h <;> cases h
  · rwa [utf8ByteSize_dots]
  · intro h
    have hhead := head?_dots n
    rw [h] at hhead
    cases hhead
  · rw [Path.isAbsolute, head?_dots]
    rfl
  · rw [names_dots, follow_dots]

/-- A name of many letters. -/
def letters : Nat → String
  | 0 => ""
  | n + 1 => letters n ++ "a"

theorem utf8ByteSize_letters (n : Nat) : (letters n).utf8ByteSize = n := by
  induction n with
  | zero => decide
  | succ n ih =>
    have hsize : "a".utf8ByteSize = 1 := by decide
    rw [letters, String.utf8ByteSize_append, ih, hsize]

theorem mem_letters {n : Nat} {c : Char} (h : c ∈ (letters n).toList) : c = 'a' := by
  induction n with
  | zero => cases h
  | succ n ih =>
    have h : c ∈ (letters n).toList ∨ c = 'a' := by simpa [letters] using h
    exact h.elim ih id

/-- The longest name with the extension. -/
def longName : String := letters 252 ++ "." ++ "lm"

theorem utf8ByteSize_longName : longName.utf8ByteSize = 255 := by
  have hsize : ("." ++ "lm").utf8ByteSize = 3 := by decide
  rw [longName, String.append_assoc, String.utf8ByteSize_append, utf8ByteSize_letters, hsize]

theorem mem_longName {c : Char} (h : c ∈ longName.toList) : c ∈ ['a', '.', 'l', 'm'] := by
  have h : c ∈ (letters 252).toList ∨ c ∈ ['.', 'l', 'm'] := by simpa [longName] using h
  obtain h | h := h
  · rw [mem_letters h]
    exact List.mem_cons_self
  · exact List.mem_cons_of_mem _ h

theorem longName_isFileName : IsFileName longName := by
  have hne : ∀ short : String, short.utf8ByteSize ≠ 255 → longName ≠ short := by
    rintro short hshort rfl
    exact hshort utf8ByteSize_longName
  exact ⟨hne "" (by decide), hne "." (by decide), hne ".." (by decide),
    fun h => absurd (mem_longName h) (by decide), fun h => absurd (mem_longName h) (by decide),
    Nat.le_of_eq utf8ByteSize_longName⟩

/-- A directory with a script of that name. -/
def longFiles : Entry := .directory [⟨longName, .file "1;".toUTF8⟩]

theorem longFiles_proper : longFiles.Proper :=
  .directory (by simpa using longName_isFileName) (by simp) (by simp [Entry.Proper.file])

/-- A name is too far below a path if they have too many bytes together. -/
theorem not_reachable {root name : String} (hroot : root ≠ "") (hname : IsFileName name)
    (h : Entry.pathBytesLimit ≤ root.utf8ByteSize + name.utf8ByteSize) : ¬Reachable root [name] := by
  have hle : root.utf8ByteSize + name.utf8ByteSize ≤ (Path.join root name).utf8ByteSize := by
    obtain ⟨-, -, hjoin⟩ | hjoin := Path.join_cases hroot hname
    · rw [hjoin, String.utf8ByteSize_append]
    · rw [hjoin, String.utf8ByteSize_append, String.utf8ByteSize_append]
      omega
  exact Nat.not_lt.mpr (Nat.le_trans h hle)

/-- The script of the directory, seen from a path that has many bytes. -/
theorem leads_longFiles {path : List String} {bytes : ByteArray}
    (h : longFiles.Leads path (.file bytes)) : path = [longName] ∧ bytes = "1;".toUTF8 := by
  cases h with
  | down hname hfind hrest =>
    have hitem := Item.mem_of_find? hfind
    rw [List.mem_singleton, Item.mk.injEq] at hitem
    obtain ⟨rfl, rfl⟩ := hitem
    cases hrest
    exact ⟨rfl, rfl⟩

end Lumen.Script
