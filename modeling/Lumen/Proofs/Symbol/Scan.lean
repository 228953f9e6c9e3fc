import Lumen.Symbol

/-! The items of a text, read off its characters.

Fold every spelling of a line end into a line feed, and a text has one item for each of its
characters: the item's raw character is that character, its symbol follows from it, and its place
is told by the characters in front of it (`scan_eq`). So a piece of the items is the items of a
piece of the text (`take_itemsBehind`, `drop_itemsBehind`), and what the lexer leaves can be named
by what it has read. The items stand in reading order (`inOrder_scanFrom`). -/
namespace Lumen

/-- A text with every line end written as a line feed. -/
def Text.foldLineEnds : List Char → List Char
  | [] => []
  | '\r' :: '\n' :: rest => '\n' :: foldLineEnds rest
  | c :: rest => (if isLineEnd c then '\n' else c) :: foldLineEnds rest

/-- Taking from a list that is padded without end begins with what comes first in it. -/
theorem take_padded_cons {α : Type} (a : α) (l : List α) (pad : α) (count : Nat) :
    (a :: l ++ List.replicate (count + 1) pad).take (count + 1) =
      a :: (l ++ List.replicate count pad).take count := by
  rw [List.replicate_succ', List.cons_append, List.take_succ_cons, ← List.append_assoc]
  refine congrArg _ (List.take_append_of_le_length ?_)
  rw [List.length_append, List.length_replicate]
  exact Nat.le_add_left _ _

/-! ### Places -/

namespace Position

/-- The place behind a text: its line is one more than the line feeds in the text, its column one
more than the characters since the last of them. -/
def behind (text : List Char) : Position :=
  ⟨text.count '\n' + 1, (text.reverse.takeWhile (· ≠ '\n')).length + 1⟩

theorem behind_newline (text : List Char) : behind (text ++ ['\n']) = (behind text).nextLine := by
  simp [behind, nextLine, List.count_append]

theorem behind_char {c : Char} (h : c ≠ '\n') (text : List Char) :
    behind (text ++ [c]) = (behind text).nextColumn := by
  simp [behind, nextColumn, List.count_append, h]

/-- A text that stays in its line moves the column on. -/
theorem behind_append_line {line : List Char} (h : '\n' ∉ line) (text : List Char) :
    behind (text ++ line) = ⟨(behind text).line, (behind text).column + line.length⟩ := by
  induction line generalizing text with
  | nil => simp
  | cons c line ih =>
    obtain ⟨hc, hline⟩ := not_or.mp (mt List.mem_cons.mpr h)
    rw [List.append_cons, ih hline, behind_char (Ne.symm hc)]
    simp [nextColumn, Nat.add_assoc, Nat.add_comm 1]

/-- More text never moves the place back. -/
theorem behind_le_append (text more : List Char) :
    (behind text).line < (behind (text ++ more)).line ∨
      (behind text).line = (behind (text ++ more)).line ∧
        (behind text).column ≤ (behind (text ++ more)).column := by
  by_cases h : '\n' ∈ more
  · have hcount := List.count_pos_iff.mpr h
    refine .inl ?_
    simp only [behind, List.count_append]
    omega
  · rw [behind_append_line h]
    simp

end Position

/-! ### Items -/

/-- The symbol of a character of a folded text. -/
def Symbol.ofRaw (c : Char) : Symbol := if c = '\n' then .newline else .ofChar c

theorem Symbol.ofRaw_eq_char {c d : Char} (h : ofRaw c = .char d) : c = d := by
  unfold ofRaw ofChar at h
  split at h
  · cases h
  · split at h
    · cases h
    · exact char.inj h

/-- The items of a folded text that stands behind `read`. -/
def itemsBehind (read : List Char) : List Char → List Scanned
  | [] => []
  | c :: text => ⟨.ofRaw c, c, .behind read⟩ :: itemsBehind (read ++ [c]) text

section Items
variable (read text : List Char)

@[simp] theorem itemsBehind_nil : itemsBehind read [] = [] := rfl

@[simp] theorem map_raw_itemsBehind : (itemsBehind read text).map (·.raw) = text := by
  induction text generalizing read with
  | nil => rfl
  | cons c text ih => rw [itemsBehind, List.map_cons, ih]

@[simp] theorem map_symbol_itemsBehind :
    (itemsBehind read text).map (·.symbol) = text.map .ofRaw := by
  induction text generalizing read with
  | nil => rfl
  | cons c text ih => rw [itemsBehind, List.map_cons, List.map_cons, ih]

@[simp] theorem length_itemsBehind : (itemsBehind read text).length = text.length := by
  rw [← List.length_map (·.raw), map_raw_itemsBehind]

theorem take_itemsBehind (n : Nat) :
    (itemsBehind read text).take n = itemsBehind read (text.take n) := by
  induction n generalizing read text with
  | zero => simp
  | succ n ih =>
    cases text with
    | nil => simp
    | cons c text => rw [itemsBehind, List.take_succ_cons, List.take_succ_cons, itemsBehind, ih]

theorem drop_itemsBehind (n : Nat) :
    (itemsBehind read text).drop n = itemsBehind (read ++ text.take n) (text.drop n) := by
  induction n generalizing read text with
  | zero => simp
  | succ n ih =>
    cases text with
    | nil => simp
    | cons c text => rw [itemsBehind, List.drop_succ_cons, ih]; simp

/-- An item is blank if its character is. -/
theorem isBlank_ofRaw (c : Char) (p : Position) :
    (⟨.ofRaw c, c, p⟩ : Scanned).isBlank = Text.isBlank c := by
  have hnewline : Text.isBlank '\n' := by decide
  unfold Symbol.ofRaw Symbol.ofChar
  split
  · next h => rw [h, hnewline]; rfl
  · split
    · next h => rw [h]; rfl
    · next h => rw [Bool.eq_false_iff.mpr h]; rfl

theorem dropWhile_itemsBehind :
    (itemsBehind read text).dropWhile (·.isBlank) =
      itemsBehind (read ++ text.takeWhile Text.isBlank) (text.dropWhile Text.isBlank) := by
  induction text generalizing read with
  | nil => simp
  | cons c text ih =>
    rw [itemsBehind, List.dropWhile_cons, isBlank_ofRaw, List.takeWhile_cons, List.dropWhile_cons]
    split
    · rw [ih]; simp
    · rw [List.append_nil, itemsBehind]

/-- The last place is the one behind the text. -/
theorem placeAfter_itemsBehind :
    placeAfter (.behind read) (itemsBehind read text) = .behind (read ++ text) := by
  induction text generalizing read with
  | nil => simp [placeAfter]
  | cons c text ih =>
    have hafter : (⟨.ofRaw c, c, .behind read⟩ : Scanned).after = .behind (read ++ [c]) := by
      unfold Scanned.after Symbol.ofRaw Symbol.ofChar
      by_cases hc : c = '\n'
      · subst hc
        exact (Position.behind_newline read).symm
      · rw [Position.behind_char hc, if_neg hc]
        cases Text.isBlank c <;> rfl
    rw [itemsBehind, placeAfter, hafter, ih, ← List.append_cons]

end Items

/-- Scanning folds the line ends and keeps everything else. -/
theorem scanFrom_eq (read cs : List Char) :
    scanFrom (.behind read) cs = itemsBehind read (Text.foldLineEnds cs) := by
  generalize hp : Position.behind read = p
  fun_induction scanFrom p cs generalizing read with
  | case1 p => rfl
  | case2 p rest ih =>
    rw [ih (read ++ ['\n']) (hp ▸ Position.behind_newline read), ← hp]
    rfl
  | case3 p c rest hpair hend ih =>
    rw [ih (read ++ ['\n']) (hp ▸ Position.behind_newline read), ← hp,
      Text.foldLineEnds.eq_3 c rest hpair, if_pos hend]
    rfl
  | case4 p c rest hpair hend ih =>
    have hc : c ≠ '\n' := by
      intro h
      exact hend (h ▸ rfl)
    rw [ih (read ++ [c]) (hp ▸ Position.behind_char hc read), ← hp,
      Text.foldLineEnds.eq_3 c rest hpair, if_neg hend, itemsBehind, Symbol.ofRaw, if_neg hc]

theorem scan_eq (source : String) :
    scan source = itemsBehind [] (Text.foldLineEnds source.toList) := scanFrom_eq [] source.toList

/-! ### The size of places -/

/-- A place is no further than the text is long. -/
theorem Position.behind_le (text : List Char) :
    (behind text).line + (behind text).column ≤ text.length + 2 := by
  have hcount := List.count_le_length (a := '\n') (l := text.reverse.dropWhile (· ≠ '\n'))
  have hsplit := List.takeWhile_append_dropWhile (p := (· ≠ '\n')) (l := text.reverse)
  have hlength := congrArg List.length hsplit
  have hnone : (text.reverse.takeWhile (· ≠ '\n')).count '\n' = 0 :=
    List.count_eq_zero.mpr fun h => by simpa using List.all_eq_true.mp List.all_takeWhile _ h
  have hall : text.count '\n' = (text.reverse.dropWhile (· ≠ '\n')).count '\n' := by
    rw [← List.count_reverse, ← hsplit, List.count_append, hnone, Nat.zero_add, hsplit]
  rw [List.length_append, List.length_reverse] at hlength
  simp only [behind]
  omega

theorem Text.length_foldLineEnds_le (cs : List Char) : (foldLineEnds cs).length ≤ cs.length := by
  fun_induction foldLineEnds cs with
  | case1 => exact Nat.le_refl _
  | case2 rest ih => exact Nat.le_succ_of_le (Nat.succ_le_succ ih)
  | case3 c rest _ ih => exact Nat.succ_le_succ ih

/-- An item stands behind a piece of the text. -/
theorem exists_behind_of_mem {read text : List Char} {s : Scanned} (h : s ∈ itemsBehind read text) :
    ∃ n ≤ text.length, s.position = .behind (read ++ text.take n) := by
  induction text generalizing read with
  | nil => cases h
  | cons c text ih =>
    rw [itemsBehind] at h
    obtain rfl | h := List.mem_cons.mp h
    · exact ⟨0, Nat.zero_le _, by simp⟩
    · obtain ⟨n, hn, hposition⟩ := ih h
      refine ⟨n + 1, Nat.succ_le_succ hn, ?_⟩
      rw [hposition, List.append_assoc]
      rfl

/-- **Places fit words of 32 bits** in every source with fewer characters than those count. -/
theorem scanned_position_lt {source : String} (hshort : source.length + 1 < UInt32.size)
    {count : Nat} {s : Scanned} (hs : s ∈ scanThrough source count) :
    s.position.line < UInt32.size ∧ s.position.column < UInt32.size := by
  have hlength := Text.length_foldLineEnds_le source.toList
  rw [String.length_toList] at hlength
  have hbehind : ∃ text : List Char, text.length ≤ source.length ∧ s.position = .behind text := by
    rw [scanThrough, scan_eq, List.mem_append] at hs
    obtain hs | hs := hs
    · obtain ⟨n, hn, hposition⟩ := exists_behind_of_mem hs
      exact ⟨_, Nat.le_trans (List.length_take_le' _ _) hlength, hposition⟩
    · obtain rfl := (List.mem_replicate.mp hs).2
      exact ⟨_, hlength, placeAfter_itemsBehind [] _⟩
  obtain ⟨text, htext, hposition⟩ := hbehind
  have hle := Position.behind_le text
  have hpos : 0 < (Position.behind text).line ∧ 0 < (Position.behind text).column :=
    ⟨Nat.succ_pos _, Nat.succ_pos _⟩
  rw [hposition]
  omega

/-! ### Items in order -/

/-- Items in reading order, from `p` on. -/
structure InOrder (p : Position) (items : List Scanned) : Prop where
  bound : ∀ s ∈ items, p ≤ s.position
  pairwise : items.Pairwise fun s s' => s.position < s'.position

namespace InOrder
variable {p q : Position} {items items' : List Scanned}

theorem cons {s : Scanned} (hs : s.position = p) (hpq : p < q) (h : InOrder q items) :
    InOrder p (s :: items) := by
  have hlt : ∀ s' ∈ items, p < s'.position := fun s' hs' =>
    (h.bound s' hs').elim (Position.lt_trans hpq) (· ▸ hpq)
  constructor
  · intro s' hs'
    obtain rfl | hs' := List.mem_cons.mp hs'
    · exact .inr hs.symm
    · exact .inl (hlt s' hs')
  · exact .cons (hs ▸ hlt) h.pairwise

theorem sublist (h : InOrder p items) (hsub : items'.Sublist items) : InOrder p items' :=
  ⟨fun s hs => h.bound s (hsub.subset hs), h.pairwise.sublist hsub⟩

end InOrder

theorem inOrder_scanFrom (p : Position) (cs : List Char) : InOrder p (scanFrom p cs) := by
  fun_induction scanFrom p cs with
  | case1 => exact ⟨nofun, .nil⟩
  | case2 p rest ih => exact .cons rfl p.lt_nextLine ih
  | case3 p c rest _ _ ih => exact .cons rfl p.lt_nextLine ih
  | case4 p c rest _ _ ih => exact .cons rfl p.lt_nextColumn ih

theorem Position.sort_of_pairwise {ps : List Position} (h : ps.Pairwise (· < ·)) : sort ps = ps :=
  List.mergeSort_of_pairwise (h.imp fun hlt => decide_eq_true (.inl hlt))

/-- The items of a text are sorted by their places. -/
theorem sort_scan (source : String) :
    Position.sort ((scan source).map (·.position)) = (scan source).map (·.position) :=
  Position.sort_of_pairwise
    (List.pairwise_map.mpr (inOrder_scanFrom .start source.toList).pairwise)

end Lumen
