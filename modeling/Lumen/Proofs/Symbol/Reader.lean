import Lumen.Proofs.Symbol.Scan
import Lumen.Session

/-! Reading a source text one item at a time.

A reader has the characters that are left and the place of the next item. It takes one character for
an item, and a second one when a line feed follows a carriage return, which a look at the next
character tells it. What it gives is the items of the scan, and past them the end of text for good
(`Reader.pull_eq`).

The items have the characters of the text with its line ends folded, and each of them stands where
the line ends in front of it put it (`placeBehind_take`). Since everything else is read off the
items, a text means the same with its line ends written as line feeds (`scan_laws`). -/
namespace Lumen

/-! ### The reader -/

/-- A source text of which a part has been read. -/
structure Reader where
  rest : List Char
  /-- The place of the next item. -/
  position : Position

namespace Reader

def ofSource (source : String) : Reader := ⟨source.toList, .start⟩

/-- The next item. The end of text is never used up. -/
def next (r : Reader) : Scanned × Reader :=
  match r.rest with
  | [] => (.endAt r.position, r)
  | c :: rest =>
    let rest := if c = '\r' ∧ rest.head? = some '\n' then rest.tail else rest
    if isLineEnd c then (.newlineAt r.position, ⟨rest, r.position.nextLine⟩)
    else (⟨.ofChar c, c, r.position⟩, ⟨rest, r.position.nextColumn⟩)

/-- The next `count` items. -/
def pull : Nat → Reader → List Scanned
  | 0, _ => []
  | count + 1, r => r.next.1 :: pull count r.next.2

/-- The items in front of the end of text. -/
def items (r : Reader) : List Scanned := scanFrom r.position r.rest

/-- Where the text ends. -/
def finish (r : Reader) : Position := placeAfter r.position r.items

/-- A line feed behind a carriage return is the only case in which an item takes two characters. -/
theorem scanFrom_of_single {c : Char} {rest : List Char}
    (h : ¬(c = '\r' ∧ rest.head? = some '\n')) (p : Position) :
    scanFrom p (c :: rest) =
      if isLineEnd c then .newlineAt p :: scanFrom p.nextLine rest
      else ⟨.ofChar c, c, p⟩ :: scanFrom p.nextColumn rest := by
  refine scanFrom.eq_3 p c rest fun tail hc hrest => h ⟨hc, ?_⟩
  rw [hrest]
  rfl

theorem after_ofChar (c : Char) (p : Position) :
    (⟨.ofChar c, c, p⟩ : Scanned).after = p.nextColumn := by
  unfold Scanned.after Symbol.ofChar
  cases Text.isBlank c <;> rfl

/-- A reader is at the end of text and stays there, or it gives the first of its items. -/
theorem next_cases (r : Reader) :
    (r.items = [] ∧ r.next = (.endAt r.finish, r)) ∨
      r.items = r.next.1 :: r.next.2.items ∧ r.next.2.finish = r.finish := by
  obtain ⟨cs, p⟩ := r
  unfold finish items next
  cases cs with
  | nil => exact .inl ⟨rfl, rfl⟩
  | cons c rest =>
    right
    dsimp only
    by_cases hpair : c = '\r' ∧ rest.head? = some '\n'
    · obtain ⟨rfl, hfeed⟩ := hpair
      cases rest with
      | nil => cases hfeed
      | cons d rest =>
        obtain rfl := Option.some.inj hfeed
        exact ⟨rfl, rfl⟩
    · rw [scanFrom_of_single hpair, if_neg hpair]
      by_cases hend : isLineEnd c = true
      · rw [if_pos hend, if_pos hend]
        exact ⟨rfl, rfl⟩
      · rw [if_neg hend, if_neg hend]
        refine ⟨rfl, ?_⟩
        rw [placeAfter, after_ofChar]

/-- A reader gives its items, and then the end of text over and over. -/
theorem pull_eq (count : Nat) (r : Reader) :
    r.pull count = (r.items ++ List.replicate count (Scanned.endAt r.finish)).take count := by
  induction count generalizing r with
  | zero => rfl
  | succ count ih =>
    rw [pull, ih]
    obtain ⟨hnil, hnext⟩ | ⟨hcons, hfinish⟩ := r.next_cases
    · rw [hnext, hnil]
      rfl
    · rw [hcons, hfinish, take_padded_cons]

end Reader

/-! ### Places -/

/-- The place behind some items, as the line ends among them tell it. -/
def placeBehind (items : List Scanned) : Position :=
  let symbols := items.map (·.symbol)
  ⟨1 + symbols.count .newline, 1 + (symbols.reverse.takeWhile (· ≠ .newline)).length⟩

theorem Symbol.ofRaw_eq_newline {c : Char} : ofRaw c = .newline ↔ c = '\n' := by
  unfold ofRaw ofChar
  split
  · next h => simp [h]
  · next h => split <;> simp [h]

theorem placeBehind_itemsBehind (read text : List Char) :
    placeBehind (itemsBehind read text) = .behind text := by
  have hcount : (text.map Symbol.ofRaw).count .newline = text.count '\n' := by
    simp only [List.count, List.countP_map]
    refine List.countP_congr fun c _ => ?_
    simp [Symbol.ofRaw_eq_newline]
  have hline : (fun s => decide (s ≠ .newline)) ∘ Symbol.ofRaw = fun c => decide (c ≠ '\n') := by
    funext c
    simp [Symbol.ofRaw_eq_newline]
  rw [placeBehind, map_symbol_itemsBehind, ← List.map_reverse, List.takeWhile_map, hcount, hline,
    List.length_map, Position.behind, Nat.add_comm 1, Nat.add_comm 1]

theorem getElem?_itemsBehind {read text : List Char} {i : Nat} {s : Scanned}
    (h : (itemsBehind read text)[i]? = some s) : s.position = .behind (read ++ text.take i) := by
  induction text generalizing read i with
  | nil => cases h
  | cons c text ih =>
    cases i with
    | zero =>
      obtain rfl := Option.some.inj h
      rw [List.take_zero, List.append_nil]
    | succ i =>
      rw [ih h, List.take_succ_cons, List.append_assoc]
      rfl

/-- An item stands behind the items in front of it. -/
theorem position_of_scan {source : String} {i : Nat} {s : Scanned}
    (h : (scan source)[i]? = some s) : s.position = placeBehind ((scan source).take i) := by
  rw [scan_eq] at h ⊢
  rw [getElem?_itemsBehind h, take_itemsBehind, placeBehind_itemsBehind, List.nil_append]

theorem placeAfter_scan (source : String) :
    placeAfter .start (scan source) = placeBehind (scan source) := by
  rw [scan_eq, placeBehind_itemsBehind]
  exact placeAfter_itemsBehind [] _

theorem Position.behind_lt_append (text : List Char) {more : List Char} (h : more ≠ []) :
    behind text < behind (text ++ more) := by
  obtain ⟨c, rest, rfl⟩ := List.exists_cons_of_ne_nil h
  have hnext : behind text < behind (text ++ [c]) := by
    by_cases hc : c = '\n'
    · rw [hc, behind_newline]
      exact lt_nextLine _
    · rw [behind_char hc]
      exact lt_nextColumn _
  have hrest := behind_le_append (text ++ [c]) rest
  rw [List.append_assoc] at hrest
  rw [lt_def] at hnext ⊢
  simp only [List.cons_append, List.nil_append] at hrest
  omega

/-- Every item stands in front of the end of text. -/
theorem position_lt_of_scan {source : String} {s : Scanned} (h : s ∈ scan source) :
    s.position < placeBehind (scan source) := by
  obtain ⟨i, hi⟩ := List.mem_iff_getElem?.mp h
  rw [scan_eq] at hi
  have hlt := (List.getElem?_eq_some_iff.mp hi).1
  rw [length_itemsBehind] at hlt
  have hrest : (Text.foldLineEnds source.toList).drop i ≠ [] := by
    rw [Ne, List.drop_eq_nil_iff]
    omega
  have hbehind := Position.behind_lt_append ((Text.foldLineEnds source.toList).take i) hrest
  rw [List.take_append_drop] at hbehind
  rwa [scan_eq, placeBehind_itemsBehind, getElem?_itemsBehind hi, List.nil_append]

theorem symbol_of_scan {source : String} {s : Scanned} (h : s ∈ scan source) :
    s.symbol ≠ .endOfText := by
  have hsymbol := List.mem_map_of_mem (f := (·.symbol)) h
  rw [scan_eq, map_symbol_itemsBehind] at hsymbol
  obtain ⟨c, -, hc⟩ := List.mem_map.mp hsymbol
  rw [← hc, Symbol.ofRaw, Symbol.ofChar]
  split
  · simp
  · split <;> simp

/-! ### Line ends -/

namespace Text

theorem foldLineEnds_cons {c : Char} (h : c ≠ '\r') (cs : List Char) :
    foldLineEnds (c :: cs) = (if isLineEnd c then '\n' else c) :: foldLineEnds cs :=
  foldLineEnds.eq_3 c cs fun _ hc _ => h hc

/-- Folding leaves no other line end than the line feed, and so there is nothing left to fold. -/
theorem foldLineEnds_idem (cs : List Char) : foldLineEnds (foldLineEnds cs) = foldLineEnds cs := by
  have hfeed : ∀ cs, foldLineEnds ('\n' :: cs) = '\n' :: foldLineEnds cs :=
    foldLineEnds_cons (by decide)
  fun_induction foldLineEnds cs with
  | case1 => rfl
  | case2 rest ih => rw [hfeed, ih]
  | case3 c rest _ ih =>
    by_cases hend : isLineEnd c = true
    · rw [if_pos hend, hfeed, ih]
    · have hreturn : c ≠ '\r' := by
        rintro rfl
        exact hend rfl
      rw [if_neg hend, foldLineEnds_cons hreturn, if_neg hend, ih]

/-- A source text with its line ends written as line feeds. -/
def withLineFeeds (source : String) : String := String.ofList (foldLineEnds source.toList)

end Text

theorem scan_withLineFeeds (source : String) : scan (Text.withLineFeeds source) = scan source := by
  rw [scan_eq, scan_eq, Text.withLineFeeds, String.toList_ofList, Text.foldLineEnds_idem]

/-! ### What the items decide -/

section Consequences
variable {source source' : String} (h : scan source' = scan source)
include h

theorem Lexer.ofSource_of_scan : Lexer.ofSource source' = Lexer.ofSource source := by
  rw [Lexer.ofSource, Lexer.ofSource, h]

theorem Token.Stream.ofSource_of_scan : ofSource source' = ofSource source := by
  rw [ofSource, ofSource, Lexer.ofSource_of_scan h]

theorem tokenize_of_scan : tokenize source' = tokenize source := by
  rw [tokenize, tokenize, Token.Stream.ofSource_of_scan h]

theorem parse_of_scan : parse source' = parse source := by
  rw [parse, parse, parseWithin, parseWithin, Cursor.ofSource, Cursor.ofSource,
    Token.Stream.ofSource_of_scan h]

theorem run_of_scan (host : Host) : run host source' = run host source := by
  rw [run, run, Session.run, Session.run, parse_of_scan h]

end Consequences

/-- **A scan folds the line ends and keeps everything else in its place.** A reader gives the items
of the scan, none of which is an end of text, and then the end of text for good, just past the last
item. The raw characters of the items are those of the text with every line end written as a line
feed. An item is on the line that the line ends in front of it begin, as many columns from there as
there are items since the last of them; so places increase. And the text with its line ends written
as line feeds has the same items, the same tokens or the same error, the same tree and the same run,
places included. -/
theorem scan_laws (source : String) :
    (∀ count, (Reader.ofSource source).pull count =
      (scan source ++ List.replicate count (Scanned.endAt (placeBehind (scan source)))).take count) ∧
    (∀ s ∈ scan source, s.symbol ≠ .endOfText) ∧
    (scan source).map (·.raw) = Text.foldLineEnds source.toList ∧
    (∀ i s, (scan source)[i]? = some s → s.position = placeBehind ((scan source).take i)) ∧
    (scan source ++ [Scanned.endAt (placeBehind (scan source))]).Pairwise
      (fun s s' => s.position < s'.position) ∧
    scan (Text.withLineFeeds source) = scan source ∧
    tokenize (Text.withLineFeeds source) = tokenize source ∧
    parse (Text.withLineFeeds source) = parse source ∧
    ∀ host, run host (Text.withLineFeeds source) = run host source := by
  have hsame := scan_withLineFeeds source
  refine ⟨fun count => ?_, fun _ => symbol_of_scan, ?_, fun _ _ => position_of_scan, ?_, hsame,
    tokenize_of_scan hsame, parse_of_scan hsame, run_of_scan hsame⟩
  · rw [← placeAfter_scan]
    exact Reader.pull_eq count _
  · rw [scan_eq]
    exact map_raw_itemsBehind [] _
  · rw [List.pairwise_append]
    refine ⟨(inOrder_scanFrom _ _).pairwise, List.pairwise_singleton _ _, fun s hs s' hs' => ?_⟩
    obtain rfl := List.mem_singleton.mp hs'
    exact position_lt_of_scan hs

/-- Every spelling of a line end, two of them side by side. -/
theorem scan_laws_spellings :
    Text.withLineFeeds "a\r\nb\r\r\n\u2028\tc" = "a\nb\n\n\n\tc" ∧
      (∃ s, (scan "a\r\nb\r\r\n\u2028\tc")[7]? = some s ∧ s.position = ⟨5, 2⟩) ∧
      tokenize "a\nb\n\n\n\tc" = tokenize "a\r\nb\r\r\n\u2028\tc" := by
  obtain ⟨-, -, -, hplaces, -, -, htokens, -⟩ := scan_laws "a\r\nb\r\r\n\u2028\tc"
  refine ⟨by decide, ⟨_, by rfl, ?_⟩, htokens⟩
  rw [hplaces 7 _ (by rfl)]
  rfl

end Lumen
