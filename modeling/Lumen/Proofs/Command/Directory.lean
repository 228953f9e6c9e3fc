import Lumen.Command.Work
import Lumen.Proofs.Script.Loading

/-! Directories on the command line.

Of a directory the command shows one script after the other. What it writes is what it writes for
the file of each script by itself (`alone`), up to the first that fails, and it fails if one of them
does. The scripts are loaded before the first is shown, so if one of them cannot be read none is
shown. A script that is loaded is the text of a file below the directory, and its path leads to that
file (`Script.resolve_of_mem_load`): the runs on the files are runs that can be made. -/
namespace Lumen.Command

/-! ### Lines -/

theorem Work.code_eq_zero {w : Work} : w.code = 0 ↔ w.failure = none := by
  cases hfailure : w.failure <;> simp [code, hfailure]

/-! ### Scripts in turn -/

/-- The scripts up to the first that fails, which is one of them. -/
def upToFailure (shown : Script → Work) : List Script → List Script
  | [] => []
  | script :: rest =>
    if (shown script).code = 0 then script :: upToFailure shown rest else [script]

/-- The line that stands above what is written for a script. -/
def heading (script : Script) : String := "== " ++ Path.display script.path ++ "\n"

variable (o : Options)

/-- What comes after a script that fails is not looked at. -/
theorem presentAll_upToFailure (scripts : List Script) :
    presentAll o (upToFailure (fun s => present o s.contents) scripts) = presentAll o scripts := by
  induction scripts with
  | nil => rfl
  | cons script rest ih =>
    cases hfailure : (present o script.contents).failure with
    | none => simp [upToFailure, Work.code_eq_zero, presentAll, hfailure, ih]
    | some failure => simp [upToFailure, Work.code_eq_zero, presentAll, hfailure]

/-- What is written for a script in turn. -/
theorem standard_script (script : Script) (others : List Line) (failure : Option Failure) :
    (⟨outLine ("== " ++ Path.display script.path) :: (present o script.contents).lines ++ others,
        failure⟩ : Work).standard =
      heading script ++ (present o script.contents).standard ++ (⟨others, failure⟩ : Work).standard := by
  simp [Work.standard, Work.text, outLine, heading, String.join_cons, String.join_append,
    String.append_assoc]

theorem presentAll_standard (scripts : List Script) :
    (presentAll o scripts).standard =
      String.join ((upToFailure (fun s => present o s.contents) scripts).map fun script =>
        heading script ++ (present o script.contents).standard) := by
  induction scripts with
  | nil => rfl
  | cons script rest ih =>
    cases hfailure : (present o script.contents).failure with
    | none =>
      have hcode := Work.code_eq_zero.mpr hfailure
      simp only [presentAll, hfailure, upToFailure, hcode, if_pos, List.map_cons,
        String.join_cons, ← ih]
      exact standard_script o script _ _
    | some failure =>
      have hcode := mt Work.code_eq_zero.mp (hfailure ▸ Option.some_ne_none failure)
      simp only [presentAll, hfailure, upToFailure, if_neg hcode, List.map_cons, List.map_nil,
        String.join_cons]
      have h := standard_script o script [] (some failure)
      rwa [List.append_nil] at h

theorem presentAll_code (scripts : List Script) :
    (presentAll o scripts).code = 0 ↔
      ∀ script ∈ scripts, (present o script.contents).code = 0 := by
  induction scripts with
  | nil => simp [presentAll, Work.code]
  | cons script rest ih =>
    rw [List.forall_mem_cons, ← ih, Work.code_eq_zero, Work.code_eq_zero, Work.code_eq_zero]
    cases hfailure : (present o script.contents).failure <;> simp [presentAll, hfailure]

/-! ### A directory and its files -/

variable {walk : Walk} {files : Entry}

/-- What the command does for a script of the directory `name` whose path it is given. -/
def alone (walk : Walk) (files : Entry) (standardInput : ByteArray) (name : String)
    (script : Script) : Work :=
  execute walk { o with input := some (Path.below name script.path) } files standardInput

theorem execute_directory {name : String} {items : List Item} (hinput : o.input = some name)
    (hdirectory : files.resolve name = .ok (.directory items)) (standardInput : ByteArray) :
    execute walk o files standardInput = work o (.directory name (Script.load walk files name)) := by
  simp [execute, consult, hinput, Entry.isDirectory, hdirectory]

/-- A script is shown by itself as it is shown among others: what to show and the limits do not
depend on the operand. -/
theorem alone_eq {name : String} {script : Script}
    (hfile : files.resolve (Path.below name script.path) = .ok (.file script.contents.toUTF8))
    (standardInput : ByteArray) :
    alone o walk files standardInput name script = present o script.contents := by
  simp only [alone, execute, consult, Entry.isDirectory, hfile, Script.read_file hfile,
    Script.decode_eq_ok.mpr rfl, work, presentText]
  rfl

theorem upToFailure_congr {shown shown' : Script → Work} {scripts : List Script}
    (h : ∀ script ∈ scripts, shown script = shown' script) :
    upToFailure shown scripts = upToFailure shown' scripts := by
  induction scripts with
  | nil => rfl
  | cons script rest ih =>
    obtain ⟨hscript, hrest⟩ := List.forall_mem_cons.mp h
    rw [upToFailure, upToFailure, hscript, ih hrest]

theorem mem_of_mem_upToFailure {shown : Script → Work} {scripts : List Script} {script : Script}
    (h : script ∈ upToFailure shown scripts) : script ∈ scripts := by
  induction scripts with
  | nil => cases h
  | cons first rest ih =>
    rw [upToFailure] at h
    split at h
    · exact (List.mem_cons.mp h).elim (fun heq => heq ▸ List.mem_cons_self)
        fun hrest => List.mem_cons_of_mem _ (ih hrest)
    · exact List.mem_singleton.mp h ▸ List.mem_cons_self

/-- A directory with a script that is further below, one that fails, and one after it. -/
def threeScripts : List Item :=
  [⟨"b.lm", .file "print(3); 1 / 0;".toUTF8⟩, ⟨"c.lm", .file "4;".toUTF8⟩,
    ⟨"a", .directory [⟨"x.lm", .file "print(1); 2;".toUTF8⟩]⟩]

/-- A directory with these scripts in it. -/
def threeFiles : Entry := .directory [⟨"d", .directory threeScripts⟩]

theorem threeFiles_proper : threeFiles.Proper := by
  have ha : (Entry.directory [⟨"x.lm", .file "print(1); 2;".toUTF8⟩]).Proper :=
    .directory (by decide) (by decide) (by simp [Entry.Proper.file])
  have hthree : (Entry.directory threeScripts).Proper := by
    refine .directory (by decide) (by decide) ?_
    simp only [threeScripts, List.forall_mem_cons]
    exact ⟨.file _, .file _, ha, List.forall_mem_nil _⟩
  exact .directory (by decide) (by decide) (by simp [hthree])

end Lumen.Command
