import Lumen.Proofs.Token.Stream

/-! Tokens written out.

A word is what a token says: its kind and its value. Every word has one spelling
(`Word.letters`), and where what may end it or the end of text follows, the lexer reads a
well-formed one back from it (`Spelled.drain_eq`). So the tokens of a text of words with a blank
between any two are those words (`pending_of_joined`). -/
namespace Lumen
open Token

/-! ### Characters -/

namespace Text

theorem mem_of_inRanges {ranges : List CodeRange} {n : Nat} (h : inRanges ranges n) :
    ∃ r ∈ ranges, r.1 ≤ n ∧ n ≤ r.2 := by
  induction ranges with
  | nil => cases h
  | cons r rest ih =>
    rw [inRanges] at h
    split at h
    · cases h
    · next hfirst =>
      obtain hlast | hrest := Bool.or_eq_true_iff.mp h
      · exact ⟨r, List.mem_cons_self, by omega, of_decide_eq_true hlast⟩
      · obtain ⟨r', hr', hbounds⟩ := ih hrest
        exact ⟨r', List.mem_cons_of_mem _ hr', hbounds⟩

/-- Every blank character. -/
def blankCodes : List Nat := blankRanges.flatMap fun r => List.range' r.1 (r.2 + 1 - r.1)

theorem mem_blankCodes {c : Char} (h : isBlank c) : c.toNat ∈ blankCodes := by
  obtain ⟨r, hr, hfirst, hlast⟩ := mem_of_inRanges h
  refine List.mem_flatMap.mpr ⟨r, hr, List.mem_range'_1.mpr ⟨hfirst, ?_⟩⟩
  omega

end Text

namespace Token

/-- Neither a digit nor a sign begins an identifier. -/
theorem le_of_isIdentifierStart {c : Char} (h : isIdentifierStart c) : 'A'.toNat ≤ c.toNat := by
  obtain halphabetic | hunderscore := Bool.or_eq_true_iff.mp h
  · rw [Text.isAlphabetic, Text.alphabeticRanges, Text.inRanges] at halphabetic
    split at halphabetic
    · cases halphabetic
    · next hlt => exact Nat.le_of_not_lt hlt
  · rw [beq_iff_eq.mp hunderscore]
    decide

/-- No blank is part of an identifier. -/
theorem not_isBlank_of_isIdentifierPart {c : Char} (h : isIdentifierPart c) :
    Text.isBlank c = false := by
  have hcodes : ∀ n ∈ Text.blankCodes, Text.inRanges Text.alphabeticRanges n = false ∧
      Text.inRanges Text.numericRanges n = false ∧ n ≠ '_'.toNat := by decide +kernel
  cases hblank : Text.isBlank c with
  | false => rfl
  | true =>
    obtain ⟨halphabetic, hnumeric, hunderscore⟩ := hcodes _ (Text.mem_blankCodes hblank)
    have hne : c ≠ '_' := fun hc => hunderscore (hc ▸ rfl)
    simp [isIdentifierPart, isIdentifierStart, Text.isAlphabetic, Text.isNumeric, halphabetic,
      hnumeric, hne] at h

theorem toNat_of_isDigit {c : Char} (h : c.isDigit) : 48 ≤ c.toNat ∧ c.toNat ≤ 57 := by
  simpa [Char.isDigit, UInt32.le_iff_toNat_le] using h

theorem isIdentifierPart_of_isDigit {c : Char} (h : c.isDigit) : isIdentifierPart c := by
  have hbounds := toNat_of_isDigit h
  have hnumeric : Text.isNumeric c := by
    rw [Text.isNumeric, Text.numericRanges, Text.inRanges, if_neg (by omega)]
    simp [hbounds.2]
  simp [isIdentifierPart, hnumeric]

end Token

theorem not_isLineEnd_of_not_isBlank {c : Char} (h : Text.isBlank c = false) :
    isLineEnd c = false := by
  cases hend : isLineEnd c with
  | false => rfl
  | true =>
    have hblank := List.all_eq_true.mp
      (by decide : ['\n', '\r', '\u2028', '\u2029'].all Text.isBlank)
    have hmem : c ∈ ['\n', '\r', '\u2028', '\u2029'] := by simpa [isLineEnd, or_assoc] using hend
    rw [hblank c hmem] at h
    cases h

theorem Token.not_isBlank_of_isDigit {c : Char} (h : c.isDigit) : Text.isBlank c = false :=
  not_isBlank_of_isIdentifierPart (isIdentifierPart_of_isDigit h)

theorem Token.not_isLineEnd_of_isDigit {c : Char} (h : c.isDigit) : isLineEnd c = false :=
  not_isLineEnd_of_not_isBlank (not_isBlank_of_isDigit h)

/-! ### Items of a text -/

theorem scanFrom_cons {c : Char} (h : isLineEnd c = false) (p : Position) (rest : List Char) :
    scanFrom p (c :: rest) = ⟨.ofChar c, c, p⟩ :: scanFrom p.nextColumn rest := by
  have hreturn : c ≠ '\r' := by
    rintro rfl
    cases h
  rw [scanFrom.eq_3 p c rest (fun _ hc _ => hreturn hc), h]
  rfl

theorem scanFrom_append {cs : List Char} (h : ∀ c ∈ cs, isLineEnd c = false) (p : Position)
    (more : List Char) :
    scanFrom p (cs ++ more) = scanFrom p cs ++ scanFrom ⟨p.line, p.column + cs.length⟩ more := by
  induction cs generalizing p with
  | nil => simp [scanFrom]
  | cons c cs ih =>
    rw [List.forall_mem_cons] at h
    rw [List.cons_append, scanFrom_cons h.1, scanFrom_cons h.1, ih h.2, List.cons_append]
    simp [Position.nextColumn, Nat.add_assoc, Nat.add_comm 1]

theorem map_symbol_scanFrom {cs : List Char} (h : ∀ c ∈ cs, isLineEnd c = false) (p : Position) :
    (scanFrom p cs).map (·.symbol) = cs.map .ofChar := by
  induction cs generalizing p with
  | nil => simp [scanFrom]
  | cons c cs ih =>
    rw [List.forall_mem_cons] at h
    rw [scanFrom_cons h.1, List.map_cons, List.map_cons, ih h.2]

theorem map_raw_scanFrom {cs : List Char} (h : ∀ c ∈ cs, isLineEnd c = false) (p : Position) :
    (scanFrom p cs).map (·.raw) = cs := by
  induction cs generalizing p with
  | nil => simp [scanFrom]
  | cons c cs ih =>
    rw [List.forall_mem_cons] at h
    rw [scanFrom_cons h.1, List.map_cons, ih h.2]

theorem length_scanFrom {cs : List Char} (h : ∀ c ∈ cs, isLineEnd c = false) (p : Position) :
    (scanFrom p cs).length = cs.length := by
  rw [← List.length_map (f := (·.raw)), map_raw_scanFrom h]

/-- A symbol between words. -/
def Symbol.IsBlank (s : Symbol) : Prop := s = .whitespace ∨ s = .newline

theorem Scanned.isBlank_iff (s : Scanned) : s.isBlank ↔ s.symbol.IsBlank := by
  rw [isBlank, Symbol.IsBlank]
  cases s.symbol <;> simp

/-! ### Lexemes between blanks -/

namespace Token.Category

/-- A lexeme that is read whole wherever the end of text follows it, or one of the symbols that
can end it. -/
structure StandsBefore (Ends : Symbol → Prop) (c : Category) (w : List Symbol) : Prop where
  found : all.find? (·.spells w) = some c
  quiet : ∀ rest : List Symbol, (∀ s ∈ rest.head?, Ends s) →
    ∀ d : Category, d.fault (w ++ rest) = none
  whole : ∀ (s : Symbol) (rest : List Symbol), Ends s →
    ∀ d : Category, d.spells (w ++ s :: rest) = false
  nonempty : w ≠ []

/-- A lexeme that is read whole wherever a blank or the end of text follows it. -/
abbrev StandsAlone := StandsBefore Symbol.IsBlank

variable {Ends Ends' : Symbol → Prop} {c : Category} {w rest : List Symbol}

theorem StandsBefore.mono (h : c.StandsBefore Ends w) (hends : ∀ s, Ends' s → Ends s) :
    c.StandsBefore Ends' w :=
  ⟨h.found, fun rest hrest => h.quiet rest fun s hs => hends s (hrest s hs),
    fun s rest hs => h.whole s rest (hends s hs), h.nonempty⟩

/-- A lexeme is the longest one if no lexeme is longer. -/
theorem longest_append (hfound : all.find? (·.spells w) = some c) (hne : w ≠ [])
    (hwhole : ∀ s more, s ∈ rest.head? → ∀ d ∈ all, d.spells (w ++ s :: more) = false) :
    Lexer.longest (w ++ rest) (w ++ rest).length = some (c, w.length) := by
  have hlongest : ∀ k ≤ rest.length,
      Lexer.longest (w ++ rest) (w.length + k) = some (c, w.length) := by
    intro k hk
    induction k with
    | zero =>
      obtain ⟨n, hn⟩ : ∃ n, w.length = n + 1 :=
        Nat.exists_eq_succ_of_ne_zero (mt List.length_eq_zero_iff.mp hne)
      have htake : (w ++ rest).take (n + 1) = w := by rw [← hn, List.take_left]
      rw [Nat.add_zero, hn, Lexer.longest, htake, hfound]
      rfl
    | succ k ih =>
      cases rest with
      | nil => cases hk
      | cons s rest =>
        have hnone : all.find? (·.spells ((w ++ s :: rest).take (w.length + k + 1))) = none := by
          rw [Nat.add_assoc, List.take_length_add_append, List.take_succ_cons, List.find?_eq_none]
          intro d hd
          rw [hwhole s _ rfl d hd]
          exact Bool.false_ne_true
        rw [← Nat.add_assoc, Lexer.longest, hnone]
        exact ih (Nat.le_of_succ_le hk)
  rw [List.length_append]
  exact hlongest _ (Nat.le_refl _)

theorem StandsBefore.longest_eq (h : c.StandsBefore Ends w) (hrest : ∀ s ∈ rest.head?, Ends s) :
    Lexer.longest (w ++ rest) (w ++ rest).length = some (c, w.length) :=
  longest_append h.found h.nonempty fun s more hs d _ => h.whole s more (hrest s hs) d

theorem spells_fixed_blank {f : Spelling} {w : List Symbol} {s : Symbol} (hs : s.IsBlank)
    (hmem : s ∈ w) : (fixed f).spells w = false := by
  refine beq_eq_false_iff_ne.mpr fun heq => ?_
  rw [heq] at hmem
  obtain ⟨c, _, rfl⟩ := List.mem_map.mp hmem
  obtain h | h := hs <;> cases h

/-- No lexeme begins with a blank. -/
theorem spells_blank_first {d : Category} {s : Symbol} (hs : s.IsBlank) (w : List Symbol) :
    d.spells (s :: w) = false := by
  cases d with
  | fixed f => exact spells_fixed_blank hs List.mem_cons_self
  | integer => obtain rfl | rfl := hs <;> rfl
  | text => obtain rfl | rfl := hs <;> rfl
  | comment => obtain rfl | rfl := hs <;> rfl
  | identifier => obtain rfl | rfl := hs <;> rfl

/-- Only texts and comments have blanks in them. -/
theorem spells_blank {d : Category} {first : Symbol} {w rest : List Symbol} {s : Symbol}
    (htext : first ≠ .char '"') (hcomment : first ≠ .char '#') (hs : s.IsBlank) :
    d.spells (first :: w ++ s :: rest) = false := by
  have hdigit : s.isDigit = false := by obtain rfl | rfl := hs <;> rfl
  have hpart : s.isPart = false := by obtain rfl | rfl := hs <;> rfl
  rw [List.cons_append]
  unfold spells
  split
  · next f => exact spells_fixed_blank (f := f) hs (by simp)
  · next heq =>
    obtain ⟨rfl, rfl⟩ := List.cons.inj heq
    simp [hdigit]
  · next heq => exact absurd (List.cons.inj heq).1 htext
  · next heq => exact absurd (List.cons.inj heq).1 hcomment
  · next heq =>
    obtain ⟨rfl, rfl⟩ := List.cons.inj heq
    simp [hpart]
  · rfl

/-- Texts, comments and numbers begin with a sign of their own. -/
theorem fault_none {d : Category} {first : Symbol} {w : List Symbol} (hdigit : first.isDigit = false)
    (htext : first ≠ .char '"') (hcomment : first ≠ .char '#') : d.fault (first :: w) = none := by
  unfold fault
  split
  · next heq =>
    obtain ⟨rfl, rfl⟩ := List.cons.inj heq
    rw [if_neg]
    rintro ⟨h, _⟩
    rw [hdigit] at h
    cases h
  · next heq => exact absurd (List.cons.inj heq).1 htext
  · next heq => exact absurd (List.cons.inj heq).1 hcomment
  · rfl

/-- Where no fixed spelling matches, one of the other categories does. -/
theorem find?_all (hfixed : ∀ f ∈ spellings, f.letters.map .char ≠ w) :
    all.find? (·.spells w) = [integer, text, comment, identifier].find? (·.spells w) := by
  have hnone : (spellings.map fixed).find? (·.spells w) = none := by
    rw [List.find?_eq_none]
    intro d hd
    obtain ⟨f, hf, rfl⟩ := List.mem_map.mp hd
    exact fun h => hfixed f hf (beq_iff_eq.mp h).symm
  rw [all, List.find?_append, hnone, Option.none_or]

theorem standsAlone_fixed {f : Spelling} (hf : f ∈ spellings) :
    (fixed f).StandsAlone (f.letters.map .char) := by
  have hfound : ∀ f ∈ spellings, all.find? (·.spells (f.letters.map .char)) = some (fixed f) := by
    decide +kernel
  have hfirst : ∀ f ∈ spellings,
      f.letters ≠ [] ∧ f.letters.head?.all fun c => !c.isDigit && c != '"' && c != '#' := by
    decide
  obtain ⟨hne, hfirst⟩ := hfirst f hf
  obtain ⟨c, cs, hcs⟩ := List.ne_nil_iff_exists_cons.mp hne
  obtain ⟨⟨hdigit, htext⟩, hcomment⟩ : (c.isDigit = false ∧ c ≠ '"') ∧ c ≠ '#' := by
    simpa [hcs] using hfirst
  refine ⟨hfound f hf, ?_, ?_, ?_⟩
  · intro rest _ d
    rw [hcs, List.map_cons, List.cons_append]
    exact fault_none hdigit (by simpa using htext) (by simpa using hcomment)
  · intro s rest hs d
    rw [hcs, List.map_cons]
    exact spells_blank (by simpa using htext) (by simpa using hcomment) hs
  · simp [hcs]

theorem spells_text {first : Symbol} (h : first ≠ .char '"') (w : List Symbol) :
    text.spells (first :: w) = false := by
  unfold spells
  split
  all_goals simp_all

theorem spells_comment {first : Symbol} (h : first ≠ .char '#') (w : List Symbol) :
    comment.spells (first :: w) = false := by
  unfold spells
  split
  all_goals simp_all

theorem standsAlone_identifier {cs : List Char} (h : identifier.spells (cs.map .char))
    (hfixed : ∀ f ∈ spellings, f.letters ≠ cs) : identifier.StandsAlone (cs.map .char) := by
  have hmap : ∀ f ∈ spellings, f.letters.map Symbol.char ≠ cs.map .char := fun f hf heq =>
    hfixed f hf ((List.map_inj_right fun _ _ => Symbol.char.inj).mp heq)
  cases cs with
  | nil => cases h
  | cons c cs =>
    have hbound := le_of_isIdentifierStart (Bool.and_eq_true_iff.mp h).1
    have hdigit : Symbol.isDigit (.char c) = false := by
      rw [Bool.eq_false_iff]
      intro hc
      have hc' := toNat_of_isDigit hc
      have : 'A'.toNat = 65 := rfl
      omega
    have htext : Symbol.char c ≠ .char '"' := by
      rintro ⟨⟩
      exact absurd hbound (by decide)
    have hcomment : Symbol.char c ≠ .char '#' := by
      rintro ⟨⟩
      exact absurd hbound (by decide)
    refine ⟨?_, fun rest _ d => fault_none hdigit htext hcomment,
      fun s rest hs d => spells_blank htext hcomment hs, by simp⟩
    have hinteger : integer.spells (.char c :: cs.map .char) = false := by simp [spells, hdigit]
    rw [find?_all hmap, List.map_cons]
    rw [List.map_cons] at h
    simp [hinteger, spells_text htext, spells_comment hcomment, h]

theorem isIdentifierPart_of_spells {cs : List Char} (h : identifier.spells (cs.map .char)) :
    ∀ c ∈ cs, isIdentifierPart c := by
  cases cs with
  | nil => exact nofun
  | cons c cs =>
    obtain ⟨hstart, hrest⟩ := Bool.and_eq_true_iff.mp h
    rw [List.forall_mem_cons]
    refine ⟨by simp [isIdentifierPart, hstart], fun d hd => ?_⟩
    exact List.all_eq_true.mp hrest _ (List.mem_map_of_mem hd)

/-- The digits of a number have no zero in front. -/
theorem head_toDigits {n : Nat} (h : 0 < n) : '0' ∉ (Nat.toDigits 10 n).head? := by
  induction n using Nat.strongRecOn with
  | ind n ih =>
    by_cases hlt : n < 10
    · rw [Nat.toDigits_of_lt_base hlt]
      simp
      omega
    · have hrest := ih (n / 10) (by omega) (by omega)
      rw [Nat.toDigits_of_base_le (by decide) (by omega)]
      cases hdigits : Nat.toDigits 10 (n / 10) with
      | nil => exact absurd hdigits Nat.toDigits_ne_nil
      | cons c cs =>
        rw [hdigits] at hrest
        exact hrest

theorem decimal_chars (ds : List Char) :
    Symbol.decimal (ds.map .char) = Nat.ofDigitChars 10 ds 0 := by
  have hshown : (Symbol.char? ∘ Symbol.char) = some := rfl
  rw [Symbol.decimal, Symbol.decimalFrom, List.filterMap_map, hshown, List.filterMap_some]

theorem decimal_toDigits (n : Nat) : Symbol.decimal ((Nat.toDigits 10 n).map .char) = n := by
  rw [decimal_chars, Nat.ofDigitChars_ten_toDigits]

theorem spells_toDigits (n : Nat) : integer.spells ((Nat.toDigits 10 n).map .char) := by
  have hdigits : ∀ c ∈ Nat.toDigits 10 n, c.isDigit := fun c hc =>
    Nat.isDigit_of_mem_toDigits (by decide) (by decide) hc
  cases hn : Nat.toDigits 10 n with
  | nil => exact absurd hn Nat.toDigits_ne_nil
  | cons c cs =>
    rw [hn, List.forall_mem_cons] at hdigits
    rw [List.map_cons, spells, Bool.and_eq_true]
    refine ⟨hdigits.1, ?_⟩
    split
    · next hzero =>
      -- A zero in front is the whole number.
      obtain rfl | hpos := Nat.eq_zero_or_pos n
      · rw [Nat.toDigits_zero] at hn
        obtain ⟨_, rfl⟩ := List.cons.inj hn
        rfl
      · have hhead := head_toDigits hpos
        rw [hn, Symbol.char.inj hzero] at hhead
        exact absurd rfl hhead
    · simpa [Symbol.isDigit, Symbol.char?] using hdigits.2

/-- No fixed spelling begins with a digit. -/
theorem letters_ne_of_isDigit {f : Spelling} (hf : f ∈ spellings) {first : Symbol}
    (hfirst : first.isDigit) (w : List Symbol) : f.letters.map .char ≠ first :: w := by
  have hletters : ∀ f ∈ spellings, f.letters.all (!·.isDigit) := by decide
  intro heq
  obtain ⟨c, hc, rfl⟩ := List.mem_map.mp (heq ▸ List.mem_cons_self : first ∈ f.letters.map .char)
  have hdigit := List.all_eq_true.mp (hletters f hf) c hc
  exact absurd hfirst (by simpa [Symbol.isDigit, Symbol.char?] using hdigit)

theorem standsAlone_integer {n : Nat} (hn : n ≤ maxInteger) :
    integer.StandsAlone ((Nat.toDigits 10 n).map .char) := by
  have hspells := spells_toDigits n
  have hdecimal := decimal_toDigits n
  have hdigits : ∀ s ∈ (Nat.toDigits 10 n).map Symbol.char, s.isDigit := by
    intro s hs
    obtain ⟨c, hc, rfl⟩ := List.mem_map.mp hs
    exact Nat.isDigit_of_mem_toDigits (by decide) (by decide) hc
  generalize (Nat.toDigits 10 n).map Symbol.char = w at hspells hdecimal hdigits
  cases w with
  | nil => cases hspells
  | cons first w =>
    have hfirst := hdigits first List.mem_cons_self
    have hfixed : ∀ f ∈ spellings, f.letters.map Symbol.char ≠ first :: w := fun f hf =>
      letters_ne_of_isDigit hf hfirst w
    have htext : first ≠ .char '"' := by
      rintro rfl
      cases hfirst
    have hcomment : first ≠ .char '#' := by
      rintro rfl
      cases hfirst
    refine ⟨?_, ?_, fun s rest hs d => spells_blank htext hcomment hs, by simp⟩
    · rw [find?_all hfixed, List.find?_cons, hspells]
    · intro rest hrest d
      have hstop : rest.takeWhile (·.isDigit) = [] := by
        cases rest with
        | nil => rfl
        | cons s rest => obtain rfl | rfl := hrest s rfl <;> rfl
      have hnumber : (first :: w ++ rest).takeWhile (·.isDigit) = first :: w := by
        rw [List.takeWhile_append_of_pos hdigits, hstop, List.append_nil]
      rw [List.cons_append] at hnumber ⊢
      unfold fault
      split
      · next heq =>
        rw [← heq, hnumber, hdecimal, if_neg]
        exact fun h => absurd h.2.2 (Nat.not_lt.mpr hn)
      · next heq => exact absurd (List.cons.inj heq).1 htext
      · next heq => exact absurd (List.cons.inj heq).1 hcomment
      · rfl

theorem standsAlone_text {content : List Symbol} (hlength : content.length ≤ maxContent)
    (hcontent : ∀ s ∈ content, s.isContent) :
    text.StandsAlone (.char '"' :: (content ++ [.char '"'])) := by
  have htake : ∀ rest : List Symbol,
      (content ++ .char '"' :: rest).takeWhile (·.isContent) = content := by
    intro rest
    rw [List.takeWhile_append_of_pos hcontent, List.takeWhile_cons, if_neg (by decide),
      List.append_nil]
  have hfixed : ∀ f ∈ spellings, f.letters.map Symbol.char ≠ .char '"' :: (content ++ [.char '"']) := by
    have hletters : ∀ f ∈ spellings, '"' ∉ f.letters := by decide
    intro f hf heq
    obtain ⟨c, hc, hquote⟩ := List.mem_map.mp
      (heq ▸ List.mem_cons_self : Symbol.char '"' ∈ f.letters.map .char)
    exact hletters f hf (Symbol.char.inj hquote ▸ hc)
  refine ⟨?_, ?_, ?_, by simp⟩
  · have hspells : text.spells (.char '"' :: (content ++ [.char '"'])) := by
      rw [spells, htake]
      exact beq_self_eq_true _
    have hinteger : integer.spells (.char '"' :: (content ++ [.char '"'])) = false := rfl
    rw [find?_all hfixed, List.find?_cons, hinteger, List.find?_cons, hspells]
  · intro rest _ d
    cases d with
    | text =>
      have hclosed : (content ++ .char '"' :: rest)[content.length]? = some (.char '"') := by simp
      rw [List.cons_append, List.append_assoc, List.singleton_append, fault, htake, hclosed,
        if_neg (Nat.not_lt.mpr hlength), if_pos rfl]
    | _ => rfl
  · intro s rest hs d
    rw [List.cons_append, List.append_assoc, List.singleton_append]
    cases d with
    | text =>
      rw [spells, htake]
      refine beq_eq_false_iff_ne.mpr fun heq => ?_
      cases (List.cons.inj (List.append_cancel_left heq)).2
    | fixed f => exact spells_fixed_blank hs (by simp)
    | integer => rfl
    | comment => rfl
    | identifier =>
      have hquote : isIdentifierStart '"' = false := by decide
      rw [spells, hquote, Bool.false_and]

end Token.Category

/-- A lexeme that stands alone is the next token, and what follows it is left. -/
theorem Lexer.next_of_standsBefore {l : Lexer} {Ends : Symbol → Prop} {c : Category} {p : Position}
    {cs more : List Char} (hl : l.skipBlanks.rest = scanFrom p (cs ++ more))
    (hline : ∀ c ∈ cs, isLineEnd c = false) (h : c.StandsBefore Ends (cs.map .ofChar))
    (hmore : ∀ q, ∀ s ∈ ((scanFrom q more).map (·.symbol)).head?, Ends s) :
    l.next = (.ok ⟨c.kind, c.value (scanFrom p cs), p, cs.length⟩,
      { l with rest := scanFrom ⟨p.line, p.column + cs.length⟩ more }) := by
  rw [scanFrom_append hline] at hl
  have hblank := hmore ⟨p.line, p.column + cs.length⟩
  generalize (⟨p.line, p.column + cs.length⟩ : Position) = q at hl hblank ⊢
  have hsymbols : (scanFrom p cs ++ scanFrom q more).map (·.symbol) =
      cs.map .ofChar ++ (scanFrom q more).map (·.symbol) := by
    rw [List.map_append, map_symbol_scanFrom hline]
  have hlength := length_scanFrom hline p
  have hquiet : Category.all.findSome? (·.fault ((scanFrom p cs ++ scanFrom q more).map (·.symbol))) =
      none := by
    rw [hsymbols, List.findSome?_eq_none_iff]
    exact fun d _ => h.quiet _ hblank d
  have hlongest := h.longest_eq hblank
  rw [← hsymbols, List.length_map, List.length_map] at hlongest
  obtain ⟨first, rest, hfirst, hplace⟩ : ∃ first rest,
      scanFrom p cs ++ scanFrom q more = first :: rest ∧ first.position = p := by
    cases cs with
    | nil => exact absurd rfl h.nonempty
    | cons d ds =>
      rw [scanFrom_cons (hline d List.mem_cons_self)]
      exact ⟨_, _, rfl, rfl⟩
  rw [hfirst] at hl hquiet hlongest
  rw [next_of_longest hl hquiet hlongest, hplace, ← hfirst, ← hlength, List.take_left,
    List.drop_left]

/-! ### Words -/

/-- What a token says, wherever it stands. -/
structure Token.Word where
  kind : Kind
  value : Payload
  deriving DecidableEq, Repr

def Token.word (t : Token) : Word := ⟨t.kind, t.value⟩

def Token.Spelling.word (f : Spelling) : Word := ⟨f.kind, (Category.fixed f).value []⟩

namespace Token.Word

/-- How a word is written. -/
def letters : Word → List Char
  | ⟨.integer, .integer n⟩ => Nat.toDigits 10 n.toNatClampNeg
  | ⟨.identifier, .text s⟩ => s.toList
  | ⟨.text, .text s⟩ => '"' :: (s.toList ++ ['"'])
  | ⟨.comment, .text s⟩ => '#' :: s.toList
  | w => ((spellings.find? (·.word = w)).map (·.letters)).getD []

/-- A word that some text spells. An identifier is not one of the fixed spellings, a text stays
in its line and has no quote in it, and neither it nor a comment is too long. -/
def WellFormed : Word → Prop
  | ⟨.integer, .integer n⟩ => 0 ≤ n
  | ⟨.identifier, .text s⟩ => Category.identifier.spells (s.toList.map .char) ∧
      ∀ f ∈ spellings, f.letters ≠ s.toList
  | ⟨.text, .text s⟩ => s.length ≤ maxContent ∧ ∀ c ∈ s.toList, c ≠ '"' ∧ isLineEnd c = false
  | ⟨.comment, .text s⟩ => s.length ≤ maxContent ∧ ∀ c ∈ s.toList, isLineEnd c = false
  | w => ∃ f ∈ spellings, f.word = w

/-- A well-formed word that is part of a program. -/
def IsCode (w : Word) : Prop := w.WellFormed ∧ w.kind ≠ .comment

theorem ofChar_of_not_isBlank {cs : List Char} (h : ∀ c ∈ cs, Text.isBlank c = false) :
    cs.map Symbol.ofChar = cs.map .char :=
  List.map_congr_left fun c hc => by simp [Symbol.ofChar, h c hc]

/-- The spelling of a word is a lexeme of its kind, with its value, wherever the end of text or a
symbol that `Ends` it follows. -/
structure Spelled (Ends : Symbol → Prop) (w : Word) (c : Category) : Prop where
  line : ∀ d ∈ w.letters, isLineEnd d = false
  standsBefore : c.StandsBefore Ends (w.letters.map .ofChar)
  kind : c.kind = w.kind
  value : ∀ p, c.value (scanFrom p w.letters) = w.value

theorem letters_fixed : ∀ f ∈ spellings, f.word.letters = f.letters := by decide +kernel

theorem spelled_fixed {f : Spelling} (hf : f ∈ spellings) :
    f.word.Spelled Symbol.IsBlank (.fixed f) := by
  have hf' := letters_fixed f hf
  have hletters : ∀ f ∈ spellings, f.letters.all (!Text.isBlank ·) := by decide +kernel
  have hall := hletters f hf
  have hblank : ∀ c ∈ f.letters, Text.isBlank c = false := by simpa using hall
  refine ⟨?_, ?_, rfl, fun p => rfl⟩
  · rw [hf']
    exact fun d hd => not_isLineEnd_of_not_isBlank (hblank d hd)
  · rw [hf', ofChar_of_not_isBlank hblank]
    exact Category.standsAlone_fixed hf

theorem spelled_integer {n : Int32} (h : 0 ≤ n) :
    Spelled Symbol.IsBlank ⟨.integer, .integer n⟩ .integer := by
  have hdigits : ∀ c ∈ Nat.toDigits 10 n.toNatClampNeg, c.isDigit := fun c hc =>
    Nat.isDigit_of_mem_toDigits (by decide) (by decide) hc
  have hblank : ∀ c ∈ Nat.toDigits 10 n.toNatClampNeg, Text.isBlank c = false := fun c hc =>
    not_isBlank_of_isDigit (hdigits c hc)
  have hline : ∀ c ∈ Nat.toDigits 10 n.toNatClampNeg, isLineEnd c = false := fun c hc =>
    not_isLineEnd_of_isDigit (hdigits c hc)
  have hbound : n.toNatClampNeg ≤ maxInteger := Nat.le_of_lt_succ n.toNatClampNeg_lt
  refine ⟨hline, ?_, rfl, fun p => ?_⟩
  · rw [letters, ofChar_of_not_isBlank hblank]
    exact Category.standsAlone_integer hbound
  · rw [letters, Category.value, map_symbol_scanFrom hline, ofChar_of_not_isBlank hblank,
      Category.decimal_toDigits, Int32.ofNat_toNatClampNeg n h]

theorem spelled_identifier {s : String} (h : Category.identifier.spells (s.toList.map .char))
    (hfixed : ∀ f ∈ spellings, f.letters ≠ s.toList) :
    Spelled Symbol.IsBlank ⟨.identifier, .text s⟩ .identifier := by
  have hblank : ∀ c ∈ s.toList, Text.isBlank c = false := fun c hc =>
    not_isBlank_of_isIdentifierPart (Category.isIdentifierPart_of_spells h c hc)
  have hline : ∀ c ∈ s.toList, isLineEnd c = false := fun c hc =>
    not_isLineEnd_of_not_isBlank (hblank c hc)
  refine ⟨hline, ?_, rfl, fun p => ?_⟩
  · rw [letters, ofChar_of_not_isBlank hblank]
    exact Category.standsAlone_identifier h hfixed
  · rw [letters, Category.value, Lexer.rawText, map_raw_scanFrom hline, String.ofList_toList]

theorem spelled_text {s : String} (hlength : s.length ≤ maxContent)
    (h : ∀ c ∈ s.toList, c ≠ '"' ∧ isLineEnd c = false) :
    Spelled Symbol.IsBlank ⟨.text, .text s⟩ .text := by
  have hline : ∀ c ∈ '"' :: (s.toList ++ ['"']), isLineEnd c = false := by
    intro c hc
    simp only [List.mem_cons, List.mem_append, List.not_mem_nil, or_false] at hc
    obtain rfl | hc | rfl := hc
    · decide
    · exact (h c hc).2
    · decide
  refine ⟨hline, ?_, rfl, fun p => ?_⟩
  · have hcontent : ∀ t ∈ s.toList.map Symbol.ofChar, t.isContent := by
      intro t ht
      obtain ⟨c, hc, rfl⟩ := List.mem_map.mp ht
      have hquote := (h c hc).1
      cases hblank : Text.isBlank c <;>
        simp [Symbol.ofChar, hblank, Symbol.isContent, Symbol.staysInLine, hquote]
    have hquote : Symbol.ofChar '"' = .char '"' := by decide
    rw [letters, List.map_cons, List.map_append, List.map_singleton, hquote]
    exact Category.standsAlone_text (by rwa [List.length_map, String.length_toList]) hcontent
  · have hraw := map_raw_scanFrom hline p
    rw [letters, Category.value, Lexer.rawText, List.map_dropLast, List.map_drop, hraw]
    simp

/-- A word of a program is read wherever a blank follows it. -/
theorem IsCode.spelled {w : Word} (hw : w.IsCode) : ∃ c, w.Spelled Symbol.IsBlank c := by
  obtain ⟨h, hcomment⟩ := hw
  unfold WellFormed at h
  split at h
  · exact ⟨_, spelled_integer h⟩
  · exact ⟨_, spelled_identifier h.1 h.2⟩
  · exact ⟨_, spelled_text h.1 h.2⟩
  · exact absurd rfl hcomment
  · obtain ⟨f, hf, rfl⟩ := h
    exact ⟨_, spelled_fixed hf⟩

/-! ### Texts of words -/

/-- A character between words, which is always scanned as the blank `s`. -/
structure Separates (separator : Char) (s : Symbol) : Prop where
  blank : s.IsBlank
  scan : ∀ p more, ∃ q,
    scanFrom p (separator :: more) = ⟨s, separator, p⟩ :: scanFrom q more

theorem separates_space : Separates ' ' .whitespace := by
  refine ⟨.inl rfl, fun p more => ⟨p.nextColumn, ?_⟩⟩
  rw [scanFrom_cons (by decide)]
  rfl

/-- Words with a separator in front of each. -/
def separated (separator : Char) (ws : List Word) : List Char :=
  ws.flatMap fun w => separator :: w.letters

/-- Words with a separator between any two. -/
def joined (separator : Char) (ws : List Word) : String :=
  String.ofList ([separator].intercalate (ws.map letters))

/-- Words with a space between any two. -/
def write (ws : List Word) : String := String.ofList ([' '].intercalate (ws.map letters))

theorem toList_joined_cons (separator : Char) (w : Word) (ws : List Word) :
    (joined separator (w :: ws)).toList = w.letters ++ separated separator ws := by
  rw [joined, String.toList_ofList]
  induction ws generalizing w with
  | nil => simp [separated, List.intercalate]
  | cons w' ws ih =>
    have hrest := ih w'
    simp only [List.intercalate, List.map_cons, List.intersperse_cons_cons,
      List.flatten_cons] at hrest ⊢
    rw [hrest]
    simp [separated]

section Separated
variable {Ends Ends' : Symbol → Prop} {w : Word} {c : Category} {separator : Char} {s : Symbol}

theorem Spelled.mono (h : w.Spelled Ends c) (hends : ∀ s, Ends' s → Ends s) : w.Spelled Ends' c :=
  ⟨h.line, h.standsBefore.mono hends, h.kind, h.value⟩

theorem Spelled.letters_ne_nil (h : w.Spelled Ends c) : w.letters ≠ [] := fun hnil =>
  h.standsBefore.nonempty (by rw [hnil]; rfl)

/-- A word is not taken for a blank. -/
theorem Spelled.skipBlanks (h : w.Spelled Ends c) {l : Lexer} {p : Position} {more : List Char}
    (hl : l.rest = scanFrom p (w.letters ++ more)) :
    l.skipBlanks.rest = scanFrom p (w.letters ++ more) := by
  rw [Lexer.skipBlanks, hl]
  cases hletters : w.letters with
  | nil => exact absurd hletters h.letters_ne_nil
  | cons d ds =>
    have hfound := h.standsBefore.found
    rw [hletters] at hfound
    rw [List.cons_append, scanFrom_cons (h.line d (by simp [hletters])), List.dropWhile_cons, if_neg]
    intro hblank
    have hspells := List.find?_some hfound
    rw [List.map_cons, Category.spells_blank_first ((Scanned.isBlank_iff _).mp hblank)] at hspells
    cases hspells

/-- What follows a word begins with a separator, if with anything. -/
theorem Separates.head (h : Separates separator s) (ws : List Word) (q : Position) :
    ∀ t ∈ ((scanFrom q (separated separator ws)).map (·.symbol)).head?, t = s := by
  intro t ht
  cases ws with
  | nil => simp [separated, scanFrom] at ht
  | cons w ws =>
    rw [separated, List.flatMap_cons, List.cons_append] at ht
    obtain ⟨q', hscan⟩ := h.scan q (w.letters ++ separated separator ws)
    rw [separated] at hscan
    simpa [hscan] using ht.symm

theorem Separates.skipBlanks (h : Separates separator s) {l : Lexer} {p : Position} {cs : List Char}
    (hl : l.rest = scanFrom p (separator :: cs)) :
    ∃ q, l.skipBlanks = ({ l with rest := scanFrom q cs } : Lexer).skipBlanks := by
  obtain ⟨q, hscan⟩ := h.scan p cs
  have hblank : (⟨s, separator, p⟩ : Scanned).isBlank := (Scanned.isBlank_iff _).mpr h.blank
  refine ⟨q, ?_⟩
  rw [Lexer.skipBlanks, hl, hscan, List.dropWhile_cons_of_pos hblank]
  rfl

/-- A word is the next token, where it stands, and what follows it is left. -/
theorem Spelled.drain_eq (h : w.Spelled Ends c) {l : Lexer} {p : Position} {more : List Char}
    (hl : l.skipBlanks.rest = scanFrom p (w.letters ++ more))
    (hmore : ∀ q, ∀ s ∈ ((scanFrom q more).map (·.symbol)).head?, Ends s) (n : Nat) :
    l.drain (n + 1) = .ok ⟨w.kind, w.value, p, w.letters.length⟩ ::
      ({ l with rest := scanFrom ⟨p.line, p.column + w.letters.length⟩ more } : Lexer).drain n := by
  have hnext := Lexer.next_of_standsBefore hl h.line h.standsBefore hmore
  rw [h.kind, h.value] at hnext
  cases hletters : w.letters with
  | nil => exact absurd hletters h.letters_ne_nil
  | cons d ds =>
    rw [hletters] at hl hnext
    rw [List.cons_append, scanFrom_cons (h.line d (by simp [hletters]))] at hl
    rw [Lexer.drain_of_cons hl, hnext]

end Separated

section Texts
variable {separator : Char} {s : Symbol} {ws : List Word} (hsep : Separates separator s)
  (hws : ∀ w ∈ ws, ∃ c, w.Spelled (· = s) c)
include hsep hws

theorem drain_separated {l : Lexer} {p : Position} (hl : l.rest = scanFrom p (separated separator ws))
    {n : Nat} (hn : ws.length ≤ n) : ∃ ts : List Token, l.drain n = ts.map .ok ∧ ts.map word = ws := by
  induction ws generalizing l p n with
  | nil =>
    have hnil : l.skipBlanks.rest = [] := by
      rw [Lexer.skipBlanks, hl, separated, List.flatMap_nil, scanFrom]
      rfl
    exact ⟨[], Lexer.drain_of_nil hnil n, rfl⟩
  | cons w ws ih =>
    obtain ⟨n, rfl⟩ : ∃ m, n = m + 1 := ⟨n - 1, by simp at hn; omega⟩
    rw [List.forall_mem_cons] at hws
    obtain ⟨c, hc⟩ := hws.1
    have hl' : l.rest = scanFrom p (separator :: (w.letters ++ separated separator ws)) := hl
    obtain ⟨q, hskip⟩ := hsep.skipBlanks hl'
    have hrest : l.skipBlanks.rest = scanFrom q (w.letters ++ separated separator ws) := by
      rw [hskip]
      exact hc.skipBlanks rfl
    have hdrain := hc.drain_eq hrest (hsep.head ws) n
    obtain ⟨ts, hts, hwords⟩ := ih hws.2
      (l := { l with rest := scanFrom ⟨q.line, q.column + w.letters.length⟩ (separated separator ws) })
      rfl (Nat.le_of_succ_le_succ hn)
    exact ⟨_ :: ts, by rw [hdrain, hts, List.map_cons], by rw [List.map_cons, hwords, word]⟩

theorem length_le_separated (p : Position) :
    ws.length ≤ (scanFrom p (separated separator ws)).length := by
  induction ws generalizing p with
  | nil => exact Nat.zero_le _
  | cons w ws ih =>
    rw [List.forall_mem_cons] at hws
    obtain ⟨c, hc⟩ := hws.1
    obtain ⟨q, hscan⟩ := hsep.scan p (w.letters ++ separated separator ws)
    have hrest := ih hws.2 ⟨q.line, q.column + w.letters.length⟩
    rw [separated, List.flatMap_cons, List.cons_append, ← separated, hscan, scanFrom_append hc.line,
      List.length_cons, List.length_cons, List.length_append]
    omega

/-- The tokens of a text of words are those words. -/
theorem pending_of_joined :
    ∃ ts : List Token, (Stream.ofSource (joined separator ws)).pending = ts.map .ok ∧
      ts.map word = ws := by
  cases ws with
  | nil => exact ⟨[], rfl, rfl⟩
  | cons w ws =>
    rw [List.forall_mem_cons] at hws
    obtain ⟨c, hc⟩ := hws.1
    have hscan : scan (joined separator (w :: ws)) =
        scanFrom .start (w.letters ++ separated separator ws) := by
      rw [scan, toList_joined_cons]
    obtain ⟨n, hlength, hn⟩ : ∃ n, (scan (joined separator (w :: ws))).length = n + 1 ∧
        ws.length ≤ n := by
      have hpos := List.length_pos_iff.mpr hc.letters_ne_nil
      have hrest := length_le_separated hsep hws.2
        ⟨Position.start.line, Position.start.column + w.letters.length⟩
      rw [hscan, scanFrom_append hc.line, List.length_append, length_scanFrom hc.line]
      exact ⟨w.letters.length - 1 + _, by omega, Nat.le_add_left_of_le hrest⟩
    have hdrain := hc.drain_eq (l := .ofSource (joined separator (w :: ws)))
      (hc.skipBlanks hscan) (hsep.head ws) n
    obtain ⟨ts, hts, hwords⟩ := drain_separated hsep hws.2
      (l := { Lexer.ofSource (joined separator (w :: ws)) with
        rest := scanFrom ⟨Position.start.line, Position.start.column + w.letters.length⟩
          (separated separator ws) }) rfl hn
    refine ⟨⟨w.kind, w.value, .start, w.letters.length⟩ :: ts, ?_,
      by rw [List.map_cons, hwords, word]⟩
    rw [Stream.ofSource, List.map_cons, ← hts, ← hdrain, ← hlength]
    rfl

end Texts

/-- The tokens of a program that is written with spaces are its words. -/
theorem pending_of_words {ws : List Word} (hws : ∀ w ∈ ws, w.IsCode) :
    ∃ ts : List Token, (Stream.ofSource (write ws)).pending = ts.map .ok ∧ ts.map word = ws := by
  refine pending_of_joined separates_space fun w hw => ?_
  obtain ⟨c, hc⟩ := (hws w hw).spelled
  exact ⟨c, hc.mono fun s hs => .inl hs⟩

end Token.Word

end Lumen
