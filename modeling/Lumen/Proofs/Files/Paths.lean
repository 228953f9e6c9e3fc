import Mathlib
import Lumen.Files

/-! Paths and the trees that they lead into.

In a tree as file systems have it (`Entry.Proper`) names lead from a directory down to an entry
(`Entry.Leads`). The path of further names below a path has their components behind its own
(`Path.components_below`), and where the path leads to a directory, it leads to where the names lead
from there, unless it has too many bytes (`Entry.resolve_below`). -/
namespace Lumen

/-- A name that a file can have. -/
structure IsFileName (name : String) : Prop where
  notEmpty : name ≠ ""
  notHere : name ≠ "."
  notAbove : name ≠ ".."
  noSlash : '/' ∉ name.toList
  noNull : '\x00' ∉ name.toList
  short : name.utf8ByteSize ≤ Entry.maxNameBytes

instance (name : String) : Decidable (IsFileName name) :=
  decidable_of_iff
    (name ≠ "" ∧ name ≠ "." ∧ name ≠ ".." ∧ '/' ∉ name.toList ∧ '\x00' ∉ name.toList ∧
      name.utf8ByteSize ≤ Entry.maxNameBytes)
    ⟨fun ⟨h₁, h₂, h₃, h₄, h₅, h₆⟩ => ⟨h₁, h₂, h₃, h₄, h₅, h₆⟩,
      fun ⟨h₁, h₂, h₃, h₄, h₅, h₆⟩ => ⟨h₁, h₂, h₃, h₄, h₅, h₆⟩⟩

theorem IsFileName.moves {name : String} (h : IsFileName name) : Path.moves name = true := by
  simp [Path.moves, h.notEmpty, h.notHere]

/-- A tree as file systems have it: files have possible names, and no two entries of a directory
have the same. -/
inductive Entry.Proper : Entry → Prop
  | file (bytes : ByteArray) : Proper (.file bytes)
  | directory {items : List Item} (hnames : ∀ item ∈ items, IsFileName item.name)
    (hdistinct : (items.map (·.name)).Nodup) (hentries : ∀ item ∈ items, item.entry.Proper) :
    Proper (.directory items)

/-- The names lead down from an entry to another one. -/
inductive Entry.Leads : Entry → List String → Entry → Prop
  | here (entry : Entry) : Leads entry [] entry
  | down {items : List Item} {name : String} {inner entry : Entry} {rest : List String}
    (hname : IsFileName name) (hfind : Item.find? name items = some inner)
    (hrest : Leads inner rest entry) : Leads (.directory items) (name :: rest) entry

theorem Entry.Leads.isFileName {entry entry' : Entry} {path : List String}
    (h : entry.Leads path entry') : ∀ name ∈ path, IsFileName name := by
  induction h with
  | here => exact List.forall_mem_nil _
  | down hname _ _ ih => exact List.forall_mem_cons.mpr ⟨hname, ih⟩

theorem Item.find?_of_mem {items : List Item} (hdistinct : (items.map (·.name)).Nodup)
    {item : Item} (h : item ∈ items) : Item.find? item.name items = some item.entry := by
  induction items with
  | nil => cases h
  | cons first rest ih =>
    rw [List.map_cons, List.nodup_cons] at hdistinct
    rw [Item.find?, List.find?_cons]
    obtain rfl | h := List.mem_cons.mp h
    · simp
    · have hne : (first.name == item.name) = false := by
        refine beq_eq_false_iff_ne.mpr fun heq => hdistinct.1 ?_
        rw [heq]
        exact List.mem_map_of_mem h
      rw [hne]
      exact ih hdistinct.2 h

theorem Item.mem_of_find? {items : List Item} {name : String} {entry : Entry}
    (h : Item.find? name items = some entry) : ⟨name, entry⟩ ∈ items := by
  rw [Item.find?, Option.map_eq_some_iff] at h
  obtain ⟨⟨first, inner⟩, hitem, rfl⟩ := h
  obtain rfl : first = name := by simpa using List.find?_some hitem
  exact List.mem_of_find?_eq_some hitem

/-! ### Names of paths -/

namespace Path

theorem names_append_slash (front back : String) :
    names (front ++ "/" ++ back) = names front ++ names back := by
  simp [names, List.splitOn_append_cons_self]

theorem names_of_noSlash {name : String} (h : '/' ∉ name.toList) : names name = [name] := by
  rw [names, List.splitOn_eq_singleton h]
  simp

theorem isAbsolute_of_noSlash {name : String} (h : '/' ∉ name.toList) : isAbsolute name = false := by
  rw [isAbsolute, beq_eq_false_iff_ne]
  exact fun hhead => h (List.mem_of_head? hhead)

/-- A path that does not end in a slash is continued by one. -/
theorem join_cases {path name : String} (hpath : path ≠ "") (hname : IsFileName name) :
    (∃ front, path = front ++ "/" ∧ join path name = path ++ name) ∨
      join path name = path ++ ("/" ++ name) := by
  rw [join, isAbsolute_of_noSlash hname.noSlash, if_neg Bool.false_ne_true]
  by_cases hslash : path.toList.getLast? = some '/'
  · obtain ⟨front, hfront⟩ := List.getLast?_eq_some_iff.mp hslash
    refine .inl ⟨String.ofList front, ?_, if_pos (.inr hslash)⟩
    rw [← String.toList_inj]
    simp [hfront]
  · rw [if_neg (not_or.mpr ⟨hpath, hslash⟩), String.append_assoc]
    exact .inr rfl

theorem names_ne_nil (path : String) : names path ≠ [] := by
  simp [names, List.splitOn_ne_nil]

/-- The names of a path, less the empty one behind a slash at its end, come before a name that
continues it. -/
theorem names_join {path name : String} (hpath : path ≠ "") (hname : IsFileName name) :
    ∃ front back, front ≠ [] ∧ (back = [] ∨ back = [""]) ∧ names path = front ++ back ∧
      names (join path name) = front ++ [name] := by
  obtain ⟨front, rfl, hjoin⟩ | hjoin := join_cases hpath hname
  · refine ⟨names front, [""], names_ne_nil front, .inr rfl, ?_, ?_⟩
    · rw [← String.append_empty (s := front ++ "/"), names_append_slash]
      rfl
    · rw [hjoin, names_append_slash, names_of_noSlash hname.noSlash]
  · refine ⟨names path, [], names_ne_nil path, .inl rfl, (List.append_nil _).symm, ?_⟩
    rw [hjoin, ← String.append_assoc, names_append_slash, names_of_noSlash hname.noSlash]

theorem mem_join {path name : String} (hpath : path ≠ "") (hname : IsFileName name) {c : Char}
    (h : c ∈ (join path name).toList) : c ∈ path.toList ∨ c = '/' ∨ c ∈ name.toList := by
  obtain ⟨front, -, hjoin⟩ | hjoin := join_cases hpath hname
  · rw [hjoin, String.toList_append, List.mem_append] at h
    exact h.imp_right .inr
  · rw [hjoin] at h
    simpa using h

theorem join_eq_append {path name : String} (hpath : path ≠ "") (hname : IsFileName name) :
    ∃ more, join path name = path ++ more := by
  obtain ⟨front, -, hjoin⟩ | hjoin := join_cases hpath hname
  · exact ⟨_, hjoin⟩
  · exact ⟨_, hjoin⟩

theorem isAbsolute_join {path name : String} (hpath : path ≠ "") (hname : IsFileName name) :
    isAbsolute (join path name) = isAbsolute path := by
  have hne : path.toList ≠ [] := mt String.toList_eq_nil_iff.mp hpath
  obtain ⟨more, hjoin⟩ := join_eq_append hpath hname
  rw [hjoin, isAbsolute, isAbsolute, String.toList_append, List.head?_append_of_ne_nil _ hne]

theorem utf8ByteSize_le_join {path name : String} (hpath : path ≠ "") (hname : IsFileName name) :
    path.utf8ByteSize ≤ (join path name).utf8ByteSize := by
  obtain ⟨more, hjoin⟩ := join_eq_append hpath hname
  rw [hjoin, String.utf8ByteSize_append]
  exact Nat.le_add_right _ _

theorem join_ne_empty {path name : String} (hpath : path ≠ "") (hname : IsFileName name) :
    join path name ≠ "" := by
  obtain ⟨more, hjoin⟩ := join_eq_append hpath hname
  simp [hjoin, hpath]

theorem utf8ByteSize_le_below {path : String} (hpath : path ≠ "") {rest : List String}
    (hrest : ∀ name ∈ rest, IsFileName name) :
    path.utf8ByteSize ≤ (below path rest).utf8ByteSize := by
  induction rest generalizing path with
  | nil => exact Nat.le_refl _
  | cons name rest ih =>
    obtain ⟨hname, hrest⟩ := List.forall_mem_cons.mp hrest
    exact Nat.le_trans (utf8ByteSize_le_join hpath hname) (ih (join_ne_empty hpath hname) hrest)

theorem components_join (path : String) {name : String} (hname : IsFileName name) :
    components (join path name) = components path ++ [name] := by
  by_cases hpath : path = ""
  · subst hpath
    have hjoin : join "" name = name := by
      simp [join]
    have hempty : components "" = [] := by decide
    rw [hjoin, hempty, components, isAbsolute_of_noSlash hname.noSlash,
      names_of_noSlash hname.noSlash]
    simp [hname.moves, hname.notHere]
  · obtain ⟨front, back, hfront, hback, hnames, hjoin⟩ := names_join hpath hname
    have hmoves : back.filter moves = [] := by
      obtain rfl | rfl := hback <;> rfl
    rw [components, components, isAbsolute_join hpath hname, hnames, hjoin,
      List.head?_append_of_ne_nil _ hfront, List.head?_append_of_ne_nil _ hfront]
    simp [hmoves, hname.moves]

theorem below_cons (path name : String) (rest : List String) :
    below path (name :: rest) = below (join path name) rest := rfl

theorem components_below (path : String) {rest : List String}
    (hrest : ∀ name ∈ rest, IsFileName name) :
    components (below path rest) = components path ++ rest := by
  induction rest generalizing path with
  | nil => exact (List.append_nil _).symm
  | cons name rest ih =>
    obtain ⟨hname, hrest⟩ := List.forall_mem_cons.mp hrest
    rw [below_cons, ih _ hrest, components_join path hname, List.append_assoc]
    rfl

/-- Behind the path that a walk began with there are the names that it went down. -/
theorem relativeTo_below (path : String) {rest : List String}
    (hrest : ∀ name ∈ rest, IsFileName name) : relativeTo path (below path rest) = rest := by
  rw [relativeTo, components_below path hrest,
    if_pos (List.isPrefixOf_iff_prefix.mpr (List.prefix_append ..)), List.drop_left]

end Path

/-! ### Where paths lead -/

namespace Entry

/-- Names that go on are followed from where the ones before them have led. -/
theorem follow_append (above : List Entry) (here : Entry) (front back : List String) :
    follow above here (front ++ back) =
      (follow above here front).bind fun (above, here) => follow above here back := by
  fun_induction follow above here front with
  | case1 => rfl
  | case2 => rfl
  | case3 rest items hmoves => simp [follow, hmoves, Except.bind]
  | case4 rest items up above hmoves ih => simp [follow, hmoves, ih]
  | case5 above name rest items hmoves hup hlong => simp [follow, hmoves, hup, hlong, Except.bind]
  | case6 above name rest items hmoves hup hlong hfind =>
    simp [follow, hmoves, hup, hlong, hfind, Except.bind]
  | case7 above name rest items hmoves hup hlong entry hfind ih =>
    simp [follow, hmoves, hup, hlong, hfind, ih]
  | case8 above name rest items hmoves ih => simp [follow, hmoves, ih]

/-- Behind a directory, an empty name at the end of a path leads nowhere else. -/
theorem follow_back {above above' : List Entry} {here : Entry} {items : List Item}
    {back : List String} (hback : back = [] ∨ back = [""])
    (h : follow above here back = .ok (above', directory items)) :
    above' = above ∧ here = directory items := by
  obtain rfl | rfl := hback
  · obtain ⟨rfl, rfl⟩ := Prod.mk.inj (Except.ok.inj h)
    exact ⟨rfl, rfl⟩
  · cases here with
    | file bytes => cases h
    | directory items' =>
      obtain ⟨rfl, heq⟩ := Prod.mk.inj (Except.ok.inj h)
      exact ⟨rfl, heq⟩

/-- What is met on the way through a proper tree is proper. -/
theorem follow_proper {above above' : List Entry} {here entry : Entry} {names : List String}
    (h : follow above here names = .ok (above', entry)) (habove : ∀ up ∈ above, up.Proper)
    (hhere : here.Proper) : entry.Proper := by
  fun_induction follow above here names with
  | case1 =>
    obtain ⟨rfl, rfl⟩ := Prod.mk.inj (Except.ok.inj h)
    exact hhere
  | case2 | case3 | case5 | case6 => cases h
  | case4 _ _ _ up above ih =>
    obtain ⟨hup, habove⟩ := List.forall_mem_cons.mp habove
    exact ih h habove hup
  | case7 above rest name items _ _ _ inner hfind ih =>
    refine ih h (List.forall_mem_cons.mpr ⟨hhere, habove⟩) ?_
    cases hhere with
    | directory _ _ hentries => exact hentries _ (Item.mem_of_find? hfind)
  | case8 _ _ _ _ _ ih => exact ih h habove hhere

theorem resolve_eq_ok {root entry : Entry} {path : String} :
    root.resolve path = .ok entry ↔
      '\x00' ∉ path.toList ∧ path.utf8ByteSize < pathBytesLimit ∧ path ≠ "" ∧
        Path.isAbsolute path = false ∧ ∃ above, follow [] root (Path.names path) = .ok (above, entry) := by
  rw [resolve]
  split
  · next hnull => simp [hnull]
  next hnull =>
  split
  · next hlong => simp [Nat.not_lt.mpr hlong]
  next hshort =>
  split
  · next houtside =>
    refine ⟨nofun, fun ⟨_, _, hempty, habsolute, _⟩ => ?_⟩
    obtain h | h := houtside
    · exact absurd h hempty
    · rw [habsolute] at h
      cases h
  next hinside =>
  rw [not_or, Bool.not_eq_true] at hinside
  cases hfollow : follow [] root (Path.names path) with
  | error fault => simp [Except.map]
  | ok found => simp [Except.map, hnull, Nat.not_le.mp hshort, hinside, Prod.ext_iff]

/-- What is in a proper tree is proper. -/
theorem Proper.of_resolve {root entry : Entry} {path : String} (hroot : root.Proper)
    (h : root.resolve path = .ok entry) : entry.Proper := by
  obtain ⟨-, -, -, -, above, hfollow⟩ := resolve_eq_ok.mp h
  exact follow_proper hfollow (List.forall_mem_nil _) hroot

/-- Where a path leads to a directory, the path of a name below it leads to the entry of the
name. -/
theorem resolve_join {root entry : Entry} {items : List Item} {path name : String}
    (hname : IsFileName name) (hdirectory : root.resolve path = .ok (.directory items))
    (hfind : Item.find? name items = some entry)
    (hshort : (Path.join path name).utf8ByteSize < pathBytesLimit) :
    root.resolve (Path.join path name) = .ok entry := by
  obtain ⟨hnull, -, hpath, habsolute, above, hfollow⟩ := resolve_eq_ok.mp hdirectory
  have hnull' : '\x00' ∉ (Path.join path name).toList := by
    intro h
    obtain h | h | h := Path.mem_join hpath hname h
    · exact hnull h
    · cases h
    · exact hname.noNull h
  refine resolve_eq_ok.mpr ⟨hnull', hshort, Path.join_ne_empty hpath hname,
    (Path.isAbsolute_join hpath hname).trans habsolute, .directory items :: above, ?_⟩
  obtain ⟨front, back, -, hback, hnames, hjoin⟩ := Path.names_join hpath hname
  rw [hnames, follow_append] at hfollow
  rw [hjoin, follow_append]
  cases hfront : follow [] root front with
  | error fault =>
    rw [hfront] at hfollow
    cases hfollow
  | ok found =>
    obtain ⟨above', here⟩ := found
    rw [hfront] at hfollow
    obtain ⟨rfl, rfl⟩ := follow_back hback hfollow
    simp only [Except.bind, follow, hname.moves, if_pos, if_neg hname.notAbove,
      if_neg (Nat.not_lt.mpr hname.short), hfind]

/-- Where a path leads, the path of further names below it leads to where they lead from there. -/
theorem resolve_below {root here entry : Entry} {path : String} {rest : List String}
    (hpath : root.resolve path = .ok here) (hleads : here.Leads rest entry)
    (hshort : (Path.below path rest).utf8ByteSize < pathBytesLimit) :
    root.resolve (Path.below path rest) = .ok entry := by
  induction hleads generalizing path with
  | here => exact hpath
  | @down items name inner entry rest hname hfind hrest ih =>
    obtain ⟨-, -, hne, -⟩ := resolve_eq_ok.mp hpath
    have hle := Path.utf8ByteSize_le_below (Path.join_ne_empty hne hname) hrest.isFileName
    exact ih (resolve_join hname hpath hfind (Nat.lt_of_le_of_lt hle hshort)) hshort

end Entry

end Lumen
