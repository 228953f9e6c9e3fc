import Lumen.Proofs.Token.Words

/-! Where the tokens of a text stand.

A token says how it was written: of the characters that the lexer took for it, its word is the
spelling (`letters_of_spells`). So a text, its line ends folded, is its tokens written out with
blanks in front of each (`Piece`), and every place follows from what is written before it
(`LaidOut`). Nothing is lost, and no character belongs to two tokens (`tokenize_tiles`). -/
namespace Lumen
open Token

/-! ### Lexemes are spelled as their words -/

theorem toDigits_digit {d : Char} (h : d.isDigit) :
    Nat.toDigits 10 (d.toNat - '0'.toNat) = [d] := by
  have hbounds := toNat_of_isDigit h
  have hzero : '0'.toNat = 48 := rfl
  have hvalues : ∀ n < 10, (Nat.digitChar n).toNat = n + 48 := by decide
  rw [Nat.toDigits_of_lt_base (by omega), List.cons.injEq]
  refine ⟨Char.toNat_inj.mp ?_, rfl⟩
  rw [hvalues _ (by omega)]
  omega

/-- Digits behind those of a number are digits of the number that they write together. -/
theorem toDigits_ofDigitChars {n : Nat} (hn : 0 < n) {ds : List Char}
    (hdigits : ∀ d ∈ ds, d.isDigit) :
    Nat.toDigits 10 (Nat.ofDigitChars 10 ds n) = Nat.toDigits 10 n ++ ds := by
  induction ds generalizing n with
  | nil => simp
  | cons d ds ih =>
    rw [List.forall_mem_cons] at hdigits
    have hbounds := toNat_of_isDigit hdigits.1
    have hzero : '0'.toNat = 48 := rfl
    rw [Nat.ofDigitChars_cons, ih (by omega) hdigits.2,
      ← Nat.toDigits_append_toDigits (by decide) hn (by omega), toDigits_digit hdigits.1,
      ← List.append_cons]

/-- Digits without a zero in front are the digits of the number that they write. -/
theorem toDigits_ofDigitChars_cons {d : Char} {ds : List Char} (hne : d ≠ '0')
    (hdigits : ∀ c ∈ d :: ds, c.isDigit) :
    Nat.toDigits 10 (Nat.ofDigitChars 10 (d :: ds) 0) = d :: ds := by
  rw [List.forall_mem_cons] at hdigits
  have hpos : 0 < d.toNat - '0'.toNat := by
    have hlow := (toNat_of_isDigit hdigits.1).1
    have hcode : d.toNat ≠ '0'.toNat := mt Char.toNat_inj.mp hne
    have hzero : '0'.toNat = 48 := rfl
    omega
  rw [Nat.ofDigitChars_cons, Nat.mul_zero, Nat.zero_add, toDigits_ofDigitChars hpos hdigits.2,
    toDigits_digit hdigits.1, List.singleton_append]

namespace Token.Category
variable {c : Category} {lexeme rest : List Char}

/-- No lexeme leaves its line. -/
theorem newline_notMem_of_spells {w : List Symbol} (h : c.spells w) : .newline ∉ w := by
  intro hmem
  unfold spells at h
  split at h
  · rw [beq_iff_eq.mp h] at hmem
    simp at hmem
  · next first rest =>
    obtain ⟨hfirst, hrest⟩ := Bool.and_eq_true_iff.mp h
    obtain rfl | hmem := List.mem_cons.mp hmem
    · cases hfirst
    · split at hrest
      · cases List.isEmpty_iff.mp hrest
        cases hmem
      · cases List.all_eq_true.mp hrest _ hmem
  · next rest =>
    rw [beq_iff_eq.mp h] at hmem
    simp at hmem
    cases List.all_eq_true.mp List.all_takeWhile _ hmem
  · next rest =>
    cases List.all_eq_true.mp h .newline (by simpa using hmem)
  · next d rest =>
    cases List.all_eq_true.mp (Bool.and_eq_true_iff.mp h).2 .newline (by simpa using hmem)
  · cases h

theorem map_ofRaw_eq {cs ds : List Char} (h : cs.map Symbol.ofRaw = ds.map .char) : cs = ds := by
  induction cs generalizing ds with
  | nil => simpa using h
  | cons c cs ih =>
    cases ds with
    | nil => cases h
    | cons d ds =>
      obtain ⟨hc, hcs⟩ := List.cons.inj h
      rw [Symbol.ofRaw_eq_char hc, ih hcs]

/-- Digits show themselves. -/
theorem map_ofRaw_of_isDigit {ds : List Char} (h : ∀ s ∈ ds.map Symbol.ofRaw, s.isDigit) :
    ds.map Symbol.ofRaw = ds.map .char ∧ ∀ d ∈ ds, d.isDigit := by
  induction ds with
  | nil => simp
  | cons d ds ih =>
    rw [List.map_cons, List.forall_mem_cons] at h
    obtain ⟨hds, hdigits⟩ := ih h.2
    obtain ⟨e, he, hdigit⟩ := Automaton.isDigit_iff.mp h.1
    obtain rfl := Symbol.ofRaw_eq_char he
    rw [List.map_cons, List.map_cons, he, hds, List.forall_mem_cons]
    exact ⟨rfl, hdigit, hdigits⟩

theorem decimal_le_append (w more : List Symbol) :
    Symbol.decimal w ≤ Symbol.decimal (w ++ more) := by
  have happend : Symbol.decimal (w ++ more) = Symbol.decimalFrom (Symbol.decimal w) more := by
    simp [Symbol.decimal, Symbol.decimalFrom, Nat.ofDigitChars_append]
  rw [happend]
  exact Automaton.le_decimalFrom _ more

/-- A number that is read is not too large. -/
theorem decimal_le_of_fault {d : Symbol} {ds more : List Symbol}
    (hdigits : ∀ s ∈ d :: ds, s.isDigit) (hzero : d ≠ .char '0')
    (hquiet : integer.fault (d :: ds ++ more) = none) :
    Symbol.decimal (d :: ds) ≤ maxInteger := by
  rw [List.cons_append, fault, ← List.cons_append, List.takeWhile_append_of_pos hdigits] at hquiet
  by_cases hlarge : maxInteger < Symbol.decimal (d :: ds ++ more.takeWhile (·.isDigit))
  · rw [if_pos ⟨hdigits d List.mem_cons_self, hzero, hlarge⟩] at hquiet
    cases hquiet
  · exact Nat.le_trans (decimal_le_append _ _) (Nat.le_of_not_lt hlarge)

theorem letters_of_spells_integer (hspells : integer.spells (lexeme.map .ofRaw))
    (hquiet : integer.fault ((lexeme ++ rest).map .ofRaw) = none) (read : List Char) :
    (⟨.integer, integer.value (itemsBehind read lexeme)⟩ : Word).letters = lexeme := by
  -- It is enough that the digits write a number in range, and none other than they write it.
  suffices h : Symbol.decimal (lexeme.map .ofRaw) ≤ maxInteger ∧
      Nat.toDigits 10 (Symbol.decimal (lexeme.map .ofRaw)) = lexeme by
    rw [value, map_symbol_itemsBehind, Word.letters, Int32.toNatClampNeg_ofNat_of_lt
      (Nat.lt_succ_of_le h.1)]
    exact h.2
  cases lexeme with
  | nil => cases hspells
  | cons d ds =>
    obtain ⟨hd, hds⟩ := Bool.and_eq_true_iff.mp hspells
    split at hds
    · next hzero =>
      obtain rfl := Symbol.ofRaw_eq_char hzero
      obtain rfl : ds = [] := by simpa using hds
      decide
    · next hzero =>
      have hall : ∀ s ∈ (d :: ds).map Symbol.ofRaw, s.isDigit :=
        List.forall_mem_cons.mpr ⟨hd, List.all_eq_true.mp hds⟩
      obtain ⟨hchars, hdigits⟩ := map_ofRaw_of_isDigit hall
      rw [List.map_append] at hquiet
      refine ⟨decimal_le_of_fault hall hzero hquiet, ?_⟩
      have hne : d ≠ '0' := by
        rintro rfl
        exact hzero rfl
      rw [hchars, decimal_chars, toDigits_ofDigitChars_cons hne hdigits]

/-- The word of a lexeme is written as the lexeme is. -/
theorem letters_of_spells (hc : c ∈ all) (hspells : c.spells (lexeme.map .ofRaw))
    (hquiet : c.fault ((lexeme ++ rest).map .ofRaw) = none) (read : List Char) :
    (⟨c.kind, c.value (itemsBehind read lexeme)⟩ : Word).letters = lexeme := by
  cases c with
  | fixed f =>
    have hf : f ∈ spellings := by simpa [all] using hc
    rw [map_ofRaw_eq (beq_iff_eq.mp hspells)]
    exact Word.letters_fixed f hf
  | integer => exact letters_of_spells_integer hspells hquiet read
  | text =>
    cases lexeme with
    | nil => cases hspells
    | cons d ds =>
      by_cases hd : Symbol.ofRaw d = .char '"'
      · rw [List.map_cons, hd, spells, beq_iff_eq] at hspells
        obtain ⟨content, quote, rfl, _, hquote⟩ := List.map_eq_append_iff.mp hspells
        obtain rfl : quote = ['"'] := map_ofRaw_eq hquote
        obtain rfl := Symbol.ofRaw_eq_char hd
        simp [Word.letters, kind, value, Lexer.rawText, List.map_dropLast]
      · rw [List.map_cons, spells_text hd] at hspells
        cases hspells
  | comment =>
    cases lexeme with
    | nil => cases hspells
    | cons d ds =>
      by_cases hd : Symbol.ofRaw d = .char '#'
      · obtain rfl := Symbol.ofRaw_eq_char hd
        simp [Word.letters, kind, value, Lexer.rawText]
      · rw [List.map_cons, spells_comment hd] at hspells
        cases hspells
  | identifier => simp [Word.letters, kind, value, Lexer.rawText]

end Token.Category

/-! ### Pieces -/

namespace Token

/-- A token and the blanks in front of it. -/
structure Piece where
  gap : List Char
  token : Token

/-- A piece written out. -/
def Piece.letters (p : Piece) : List Char := p.gap ++ p.token.word.letters

/-- A piece that stands behind the text `read`: the token takes up the characters that spell it,
all in one line, and its place is that of the first of them. -/
structure Piece.Placed (read : List Char) (p : Piece) : Prop where
  blank : ∀ c ∈ p.gap, Text.isBlank c
  length : p.token.length = p.token.word.letters.length
  inLine : '\n' ∉ p.token.word.letters
  position : p.token.position = .behind (read ++ p.gap)

/-- Pieces that stand one behind another, the first of them behind `read`. -/
def LaidOut : List Char → List Piece → Prop
  | _, [] => True
  | read, p :: ps => p.Placed read ∧ LaidOut (read ++ p.letters) ps

theorem laidOut_append {read : List Char} {ps qs : List Piece} :
    LaidOut read (ps ++ qs) ↔ LaidOut read ps ∧ LaidOut (read ++ ps.flatMap Piece.letters) qs := by
  induction ps generalizing read with
  | nil => simp [LaidOut]
  | cons p ps ih => simp [LaidOut, ih, and_assoc]

/-! ### Reading pieces -/

section Reading
variable {l : Lexer} {read : List Char} {t : Token}

/-- A token that is read takes up the characters that spell it, and leaves the others. -/
theorem next_letters {body : List Char} (hl : l.skipBlanks.rest = itemsBehind read body)
    (hbody : body ≠ []) (hok : l.next.1 = .ok t) :
    ∃ lexeme more, body = lexeme ++ more ∧ t.word.letters = lexeme ∧ '\n' ∉ lexeme ∧
      0 < t.length ∧ t.length = lexeme.length ∧ t.position = .behind read ∧
      l.next.2.rest = itemsBehind (read ++ lexeme) more := by
  obtain ⟨d, ds, rfl⟩ := List.ne_nil_iff_exists_cons.mp hbody
  obtain ⟨c, n, hc, hquiet, hspells, hpos, hle, hnext⟩ := Lexer.next_of_ok hl hok
  rw [← itemsBehind] at hquiet hspells hle hnext
  rw [map_symbol_itemsBehind] at hquiet hspells
  rw [← List.map_take] at hspells
  rw [length_itemsBehind] at hle
  rw [take_itemsBehind, drop_itemsBehind] at hnext
  rw [hnext] at hok ⊢
  obtain rfl := Except.ok.inj hok
  refine ⟨(d :: ds).take n, (d :: ds).drop n, (List.take_append_drop n _).symm, ?_, ?_, hpos,
    (List.length_take_of_le hle).symm, rfl, rfl⟩
  · apply Category.letters_of_spells hc hspells
    rw [List.take_append_drop]
    exact hquiet c hc
  · intro hmem
    apply Category.newline_notMem_of_spells hspells
    exact List.mem_map.mpr ⟨'\n', hmem, rfl⟩

theorem skipBlanks_of_items {text : List Char} (hl : l.rest = itemsBehind read text) :
    l.skipBlanks.rest =
      itemsBehind (read ++ text.takeWhile Text.isBlank) (text.dropWhile Text.isBlank) := by
  rw [Lexer.skipBlanks, hl, dropWhile_itemsBehind]

/-- One attempt that succeeds takes the blanks and a token away, and leaves the rest. -/
theorem next_piece {text : List Char} (hl : l.rest = itemsBehind read text)
    (hmore : l.skipBlanks.rest ≠ []) (hok : l.next.1 = .ok t) :
    ∃ (p : Piece) (more : List Char), p.token = t ∧ p.Placed read ∧ 0 < t.length ∧
      text = p.letters ++ more ∧ l.next.2.rest = itemsBehind (read ++ p.letters) more := by
  have hskip := skipBlanks_of_items hl
  have hbody : text.dropWhile Text.isBlank ≠ [] := by
    intro hnil
    rw [hskip, hnil] at hmore
    exact hmore rfl
  obtain ⟨lexeme, more, htext, rfl, hline, hpos, hlength, hplace, hrest⟩ :=
    next_letters hskip hbody hok
  refine ⟨⟨text.takeWhile Text.isBlank, t⟩, more, rfl, ?_, hpos, ?_, ?_⟩
  · exact ⟨List.all_eq_true.mp List.all_takeWhile, hlength, hline, hplace⟩
  · rw [Piece.letters, List.append_assoc, ← htext, List.takeWhile_append_dropWhile]
  · rw [hrest, Piece.letters, List.append_assoc]

theorem drain_pieces {text : List Char} {n : Nat} {ts : List Token}
    (hl : l.rest = itemsBehind read text) (hn : text.length ≤ n) (h : l.drain n = ts.map .ok) :
    ∃ (ps : List Piece) (gap : List Char), ps.map (·.token) = ts ∧ LaidOut read ps ∧
      (∀ t ∈ ts, 0 < t.length) ∧ (∀ c ∈ gap, Text.isBlank c) ∧
      ps.flatMap Piece.letters ++ gap = text := by
  induction n generalizing l read text ts with
  | zero =>
    obtain rfl : text = [] := List.length_eq_zero_iff.mp (Nat.le_zero.mp hn)
    obtain rfl : ts = [] := by simpa [Lexer.drain] using h.symm
    exact ⟨[], [], rfl, trivial, List.forall_mem_nil _, List.forall_mem_nil _, rfl⟩
  | succ n ih =>
    cases hrest : l.skipBlanks.rest with
    | nil =>
      have hblank : ∀ c ∈ text, Text.isBlank c := by
        have hlength := congrArg List.length ((skipBlanks_of_items hl).symm.trans hrest)
        have hnil : text.dropWhile Text.isBlank = [] := by simpa using hlength
        rw [← List.takeWhile_append_dropWhile (p := Text.isBlank) (l := text), hnil,
          List.append_nil]
        exact List.all_eq_true.mp List.all_takeWhile
      obtain rfl : ts = [] := by simpa [Lexer.drain_of_nil hrest] using h.symm
      exact ⟨[], text, rfl, trivial, List.forall_mem_nil _, hblank, rfl⟩
    | cons first rest =>
      rw [Lexer.drain_of_cons hrest] at h
      cases ts with
      | nil => cases h
      | cons t ts =>
        -- A token has a character at least, so the attempts that are left are enough for the rest.
        obtain ⟨hok, hdrain⟩ := List.cons.inj h
        obtain ⟨p, more, rfl, hplaced, hpos, rfl, hleft⟩ :=
          next_piece hl (hrest ▸ List.cons_ne_nil first rest) hok
        have hletters : 0 < p.letters.length := by
          rw [hplaced.length] at hpos
          rw [Piece.letters, List.length_append]
          omega
        obtain ⟨ps, gap, rfl, hlaid, hall, hgap, rfl⟩ := ih hleft
          (by rw [List.length_append] at hn; omega) hdrain
        refine ⟨p :: ps, gap, rfl, ⟨hplaced, hlaid⟩, ?_, hgap, by simp⟩
        exact List.forall_mem_cons.mpr ⟨hpos, hall⟩

end Reading

/-! ### Places of tokens -/

/-- One token ends in front of the other. -/
def EndsBefore (t u : Token) : Prop :=
  t.position.line < u.position.line ∨
    t.position.line = u.position.line ∧ t.position.column + t.length ≤ u.position.column

/-- The token takes up the character at a place. -/
def Covers (t : Token) (p : Position) : Prop :=
  t.position.line = p.line ∧ t.position.column ≤ p.column ∧ p.column < t.position.column + t.length

theorem EndsBefore.position_lt {t u : Token} (h : t.EndsBefore u) (ht : 0 < t.length) :
    t.position < u.position := by
  rw [Position.lt_def]
  unfold EndsBefore at h
  omega

/-- Tokens that end in front of each other share no character. -/
theorem covers_unique {ts : List Token} (h : ts.Pairwise EndsBefore) {t u : Token} (ht : t ∈ ts)
    (hu : u ∈ ts) {q : Position} (htq : t.Covers q) (huq : u.Covers q) : u = t := by
  have hpairs : ts.Pairwise fun t u => t.Covers q → u.Covers q → u = t := by
    refine h.imp fun hends htq huq => ?_
    unfold EndsBefore at hends
    unfold Covers at htq huq
    omega
  have hflip : ts.Pairwise (flip fun t u => t.Covers q → u.Covers q → u = t) :=
    hpairs.imp fun h huq htq => (h htq huq).symm
  exact hpairs.forall_of_forall_of_flip (fun _ _ _ _ => rfl) hflip ht hu htq huq

theorem append_eq_append_cons {before after front back : List Char} {c : Char}
    (h : front ++ back = before ++ c :: after) :
    (∃ more, front = before ++ c :: more) ∨
      ∃ more, before = front ++ more ∧ back = more ++ c :: after := by
  obtain hback | ⟨more, hfront, hrest⟩ := List.append_eq_append_iff.mp h
  · exact .inr hback
  · cases more with
    | nil => exact .inr ⟨[], by simpa using hfront.symm, by simpa using hrest.symm⟩
    | cons d more => exact .inl ⟨more, by rw [hfront, (List.cons.inj hrest).1]⟩

section Places
variable {read before after : List Char} {c : Char}

theorem Piece.Placed.covers {p : Piece} (h : p.Placed read)
    (hletters : p.letters = before ++ c :: after) (hc : Text.isBlank c = false) :
    p.token.Covers (.behind (read ++ before)) := by
  obtain ⟨more, hgap⟩ | ⟨more, rfl, hmore⟩ := append_eq_append_cons hletters
  · rw [h.blank c (by simp [hgap])] at hc
    cases hc
  · have hline : '\n' ∉ more := fun hmem => h.inLine (by simp [hmore, hmem])
    have hlength := h.length
    rw [hmore, List.length_append, List.length_cons] at hlength
    rw [Covers, h.position, ← List.append_assoc, Position.behind_append_line hline]
    simp
    omega

namespace LaidOut
variable {ps : List Piece}

/-- Every character that is not blank belongs to a token. -/
theorem exists_covers (h : LaidOut read ps)
    (htext : ps.flatMap Piece.letters = before ++ c :: after) (hc : Text.isBlank c = false) :
    ∃ t ∈ ps.map (·.token), t.Covers (.behind (read ++ before)) := by
  induction ps generalizing read before with
  | nil => simp at htext
  | cons p ps ih =>
    rw [List.flatMap_cons] at htext
    obtain ⟨more, hletters⟩ | ⟨more, rfl, hmore⟩ := append_eq_append_cons htext
    · exact ⟨p.token, List.mem_cons_self, h.1.covers hletters hc⟩
    · obtain ⟨t, ht, hcovers⟩ := ih h.2 hmore
      rw [List.append_assoc] at hcovers
      exact ⟨t, List.mem_cons_of_mem _ ht, hcovers⟩

theorem position_of_mem (h : LaidOut read ps) {t : Token} (ht : t ∈ ps.map (·.token)) :
    ∃ more, t.position = .behind (read ++ more) := by
  induction ps generalizing read with
  | nil => cases ht
  | cons p ps ih =>
    obtain rfl | ht := List.mem_cons.mp ht
    · exact ⟨p.gap, h.1.position⟩
    · obtain ⟨more, hmore⟩ := ih h.2 ht
      exact ⟨p.letters ++ more, by rw [hmore, List.append_assoc]⟩

/-- The tokens end in front of each other. -/
theorem pairwise (h : LaidOut read ps) : (ps.map (·.token)).Pairwise EndsBefore := by
  induction ps generalizing read with
  | nil => exact .nil
  | cons p ps ih =>
    refine .cons (fun u hu => ?_) (ih h.2)
    obtain ⟨more, hmore⟩ := position_of_mem h.2 hu
    have hend := Position.behind_append_line h.1.inLine (read ++ p.gap)
    have hle := Position.behind_le_append (read ++ p.letters) more
    rw [Piece.letters, ← List.append_assoc, hend] at hle
    rw [EndsBefore, hmore, h.1.position, h.1.length, Piece.letters, ← List.append_assoc]
    exact hle

end LaidOut

end Places

/-! ### The tokens of a text -/

/-- How tokens make up a text. -/
structure Tiles (ts : List Token) (text : List Char) : Prop where
  /-- The text is the tokens written out, with blanks in front of each. -/
  pieces : ∃ ps : List Piece, ps.map (·.token) = ts ∧ LaidOut [] ps ∧
    ps.flatMap Piece.letters = text
  /-- The last token ends the text, and no other does. -/
  ends : ∃ body p, ts = body ++ [.endAt p] ∧ ∀ t ∈ body, t.kind ≠ .endOfText
  /-- The tokens are in reading order, and each ends before the next one begins. -/
  ordered : ts.Pairwise fun t u => t.position < u.position ∧ t.EndsBefore u
  /-- Each character that is not blank belongs to exactly one token. -/
  covered : ∀ before c after, text = before ++ c :: after → Text.isBlank c = false →
    ∃ t ∈ ts, t.Covers (.behind before) ∧ ∀ u ∈ ts, u.Covers (.behind before) → u = t

theorem tiles_of_laidOut {ps : List Piece} {gap : List Char} (hlaid : LaidOut [] ps)
    (hpos : ∀ t ∈ ps.map (·.token), 0 < t.length)
    (hkind : ∀ t ∈ ps.map (·.token), t.kind ≠ .endOfText) (hgap : ∀ c ∈ gap, Text.isBlank c) :
    Tiles (ps.map (·.token) ++ [.endAt (.behind (ps.flatMap Piece.letters ++ gap))])
      (ps.flatMap Piece.letters ++ gap) := by
  let last : Piece := ⟨gap, .endAt (.behind (ps.flatMap Piece.letters ++ gap))⟩
  have htokens : (ps ++ [last]).map (·.token) = ps.map (·.token) ++ [last.token] := by simp
  have hletters : (ps ++ [last]).flatMap Piece.letters = ps.flatMap Piece.letters ++ gap := by
    have hnone : last.token.word.letters = [] := rfl
    simp [Piece.letters, hnone, last]
  have hall : LaidOut [] (ps ++ [last]) := by
    rw [laidOut_append]
    exact ⟨hlaid, ⟨hgap, rfl, nofun, rfl⟩, trivial⟩
  have hends := hall.pairwise
  rw [htokens] at hends
  refine ⟨⟨_, htokens, hall, hletters⟩, ⟨_, _, rfl, hkind⟩, ?_, ?_⟩
  · obtain ⟨hbody, _, hcross⟩ := List.pairwise_append.mp hends
    refine List.pairwise_append.mpr ⟨hbody.imp_of_mem ?_, List.pairwise_singleton _ _, ?_⟩
    · intro t u ht _ htu
      exact ⟨htu.position_lt (hpos t ht), htu⟩
    · intro t ht u hu
      exact ⟨(hcross t ht u hu).position_lt (hpos t ht), hcross t ht u hu⟩
  · intro before c after htext hc
    obtain ⟨t, ht, hcovers⟩ := hall.exists_covers (hletters.trans htext) hc
    rw [htokens] at ht
    exact ⟨t, ht, hcovers, fun u hu huc => covers_unique hends ht hu hcovers huc⟩

/-- **Tokens lose nothing.** If a text has all its tokens, it is those tokens written out one by
one, with blanks in front of each, and each stands where its first character does. -/
theorem tokenize_tiles {source : String} {ts : List Token} (h : tokenize source = .ok ts) :
    Tiles ts (Text.foldLineEnds source.toList) := by
  obtain ⟨us, hpending, rfl⟩ := Stream.tokens_eq_ok_iff.mp h
  have hkind : ∀ t ∈ us, t.kind ≠ .endOfText := by
    intro t ht
    apply Lexer.kind_of_mem_drain (l := .ofSource source) (n := (scan source).length)
    show .ok t ∈ (Stream.ofSource source).pending
    rw [hpending]
    exact List.mem_map_of_mem ht
  have hscan := scan_eq source
  generalize Text.foldLineEnds source.toList = text at hscan ⊢
  have hfinish : (Stream.ofSource source).finish = .behind text := by
    show placeAfter .start (scan source) = _
    rw [hscan]
    exact placeAfter_itemsBehind [] text
  obtain ⟨ps, gap, rfl, hlaid, hpos, hgap, rfl⟩ := drain_pieces (l := .ofSource source) hscan
    (by simp [Lexer.ofSource, hscan]) hpending
  rw [hfinish]
  exact tiles_of_laidOut hlaid hpos hkind hgap

/-- A name, a sign of three characters, a carriage return with its line feed, a text with a blank
in it, and a comment that a paragraph separator ends. -/
theorem tokenize_tiles_twoLines :
    ∃ ts, tokenize "x??= 70\r\n \"a b\"# c\u2029" = .ok ts ∧
      ts.map (·.position) = [⟨1, 1⟩, ⟨1, 2⟩, ⟨1, 6⟩, ⟨2, 2⟩, ⟨2, 7⟩, ⟨3, 1⟩] ∧
      Tiles ts "x??= 70\n \"a b\"# c\n".toList := by
  have htokens : tokenize "x??= 70\r\n \"a b\"# c\u2029" = .ok
      [⟨.identifier, .text "x", ⟨1, 1⟩, 1⟩, ⟨.nullAssign, .none, ⟨1, 2⟩, 3⟩,
        ⟨.integer, .integer 70, ⟨1, 6⟩, 2⟩, ⟨.text, .text "a b", ⟨2, 2⟩, 5⟩,
        ⟨.comment, .text " c", ⟨2, 7⟩, 3⟩, .endAt ⟨3, 1⟩] := by
    rfl
  exact ⟨_, htokens, rfl, tokenize_tiles htokens⟩

end Token

end Lumen
