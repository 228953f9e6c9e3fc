import Lumen.Proofs.Token.Layout

/-! One text behind another.

No token and no fault goes beyond the end of a line. So a lexer that has a line end ahead of it
reads what it would read if the text ended there (`Lexer.next_before_newline`), and behind the line
end it starts afresh: places apart, it reads what follows as a text of its own
(`Lexer.drain_down`). A text with a line end and another text behind it has the tokens of both, the
latter on lower lines (`Stream.ofSource_newline`), and it fails where the first of them does
(`tokenize_newline`). -/
namespace Lumen
open Token

/-! ### Lower lines -/

/-- The place `k` lines further down. -/
def Position.down (k : Nat) (p : Position) : Position := ⟨p.line + k, p.column⟩

def Scanned.down (k : Nat) (s : Scanned) : Scanned := { s with position := s.position.down k }

def Token.down (k : Nat) (t : Token) : Token := { t with position := t.position.down k }

/-- An error that stands `k` lines further down. -/
def Error.down (k : Nat) : Error → Error
  | unreadable words => unreadable words
  | lex p cause => lex (p.down k) cause
  | parse p cause => parse (p.down k) cause
  | runtime p cause => runtime (p.down k) cause

/-- What an attempt of the lexer gives `k` lines further down. -/
def Lexer.attemptDown (k : Nat) : Except Error Token → Except Error Token
  | .ok t => .ok (t.down k)
  | .error e => .error (e.down k)

theorem Position.nextLine_eq (p : Position) : p.nextLine = Position.start.down p.line := by
  simp [nextLine, down, start, Nat.add_comm]

theorem Scanned.after_down (k : Nat) (s : Scanned) : (s.down k).after = s.after.down k := by
  obtain ⟨symbol, raw, p⟩ := s
  cases symbol <;> simp [after, down, Position.nextLine, Position.nextColumn, Position.down,
    Nat.add_right_comm]

theorem scanFrom_down (k : Nat) (p : Position) (cs : List Char) :
    scanFrom (p.down k) cs = (scanFrom p cs).map (·.down k) := by
  have hline : ∀ p : Position, (p.down k).nextLine = p.nextLine.down k := fun p => by
    simp [Position.nextLine, Position.down, Nat.add_right_comm]
  fun_induction scanFrom p cs with
  | case1 p => rfl
  | case2 p rest ih =>
    rw [scanFrom, hline, ih]
    rfl
  | case3 p c rest hpair hend ih =>
    rw [scanFrom.eq_3 _ c rest hpair, if_pos hend, hline, ih]
    rfl
  | case4 p c rest hpair hend ih =>
    rw [scanFrom.eq_3 _ c rest hpair, if_neg hend]
    exact congrArg (_ :: ·) ih

theorem placeAfter_down (k : Nat) (p : Position) (items : List Scanned) :
    placeAfter (p.down k) (items.map (·.down k)) = (placeAfter p items).down k := by
  induction items generalizing p with
  | nil => rfl
  | cons s items ih => rw [List.map_cons, placeAfter, placeAfter, s.after_down, ih]

theorem placeAfter_append (p : Position) (items more : List Scanned) :
    placeAfter p (items ++ more) = placeAfter (placeAfter p items) more := by
  induction items generalizing p with
  | nil => rfl
  | cons s items ih => exact ih s.after

theorem getLast?_ne_of_cons {c : Char} {cs : List Char} (h : (c :: cs).getLast? ≠ some '\r') :
    cs.getLast? ≠ some '\r' := by
  cases cs with
  | nil => simp
  | cons d ds => simpa using h

/-- A line feed divides a text, unless a carriage return stands in front of it. -/
theorem scanFrom_newline {cs : List Char} (h : cs.getLast? ≠ some '\r') (p : Position)
    (more : List Char) :
    scanFrom p (cs ++ '\n' :: more) = scanFrom p cs ++
      .newlineAt (placeAfter p (scanFrom p cs)) ::
        scanFrom (placeAfter p (scanFrom p cs)).nextLine more := by
  -- Where the text goes on, a carriage return and its line feed are still next to each other.
  have hpairs : ∀ {c : Char} {rest : List Char}, (c :: rest).getLast? ≠ some '\r' →
      (∀ rest', c = '\r' → rest = '\n' :: rest' → False) →
      ∀ rest', c = '\r' → rest ++ '\n' :: more = '\n' :: rest' → False := by
    rintro c rest hlast hpair rest' rfl heq
    cases rest with
    | nil => exact hlast rfl
    | cons d ds => exact hpair ds rfl (by rw [(List.cons.inj heq).1])
  fun_induction scanFrom p cs with
  | case1 p => rfl
  | case2 p rest ih =>
    rw [List.cons_append, List.cons_append, scanFrom,
      ih (getLast?_ne_of_cons (getLast?_ne_of_cons h))]
    rfl
  | case3 p c rest hpair hend ih =>
    rw [List.cons_append, scanFrom.eq_3 _ c _ (hpairs h hpair), if_pos hend,
      ih (getLast?_ne_of_cons h)]
    rfl
  | case4 p c rest hpair hend ih =>
    have hafter : (⟨.ofChar c, c, p⟩ : Scanned).after = p.nextColumn := by
      unfold Scanned.after Symbol.ofChar
      cases Text.isBlank c <;> rfl
    rw [List.cons_append, scanFrom.eq_3 _ c _ (hpairs h hpair), if_neg hend,
      ih (getLast?_ne_of_cons h), placeAfter, hafter]
    rfl

/-! ### The end of a line -/

theorem takeWhile_append_stop {α : Type} {p : α → Bool} {a : α} (ha : p a = false)
    (as more : List α) : (as ++ a :: more).takeWhile p = as.takeWhile p := by
  induction as with
  | nil => simp [ha]
  | cons b as ih => rw [List.cons_append, List.takeWhile_cons, List.takeWhile_cons, ih]

namespace Token.Category

/-- A quote behind the contents of a text is there whatever follows the line. -/
theorem closed_newline (w more : List Symbol) :
    (w ++ .newline :: more)[(w.takeWhile (·.isContent)).length]? = some (.char '"') ↔
      w[(w.takeWhile (·.isContent)).length]? = some (.char '"') := by
  have hle := (List.takeWhile_sublist (l := w) (·.isContent)).length_le
  rw [List.getElem?_append]
  split
  · rfl
  · next hge =>
    rw [show (w.takeWhile (·.isContent)).length = w.length by omega]
    simp

/-- What is wrong with a text shows before its line ends. -/
theorem fault_newline (c : Category) (w more : List Symbol) :
    c.fault (w ++ .newline :: more) = c.fault w := by
  cases w with
  | nil => cases c <;> rfl
  | cons first w =>
    cases c with
    | fixed spelling => rfl
    | identifier => rfl
    | integer =>
      rw [List.cons_append, fault, fault, ← List.cons_append, takeWhile_append_stop rfl]
    | comment =>
      by_cases hfirst : first = .char '#'
      · rw [hfirst, List.cons_append, fault, fault, takeWhile_append_stop rfl]
      · unfold fault
        split <;> simp_all
    | text =>
      by_cases hfirst : first = .char '"'
      · rw [hfirst, List.cons_append, fault, fault, takeWhile_append_stop rfl]
        simp only [closed_newline]
      · unfold fault
        split <;> simp_all

end Token.Category

namespace Lexer

/-- The longest lexeme ends before its line does. -/
theorem longest_newline (w more : List Symbol) :
    longest (w ++ .newline :: more) (w ++ .newline :: more).length = longest w w.length := by
  have hbehind : ∀ n, longest (w ++ .newline :: more) (w.length + n) =
      longest (w ++ .newline :: more) w.length := by
    intro n
    induction n with
    | zero => rfl
    | succ n ih =>
      have hnone : Category.all.find? (·.spells ((w ++ .newline :: more).take (w.length + n + 1))) =
          none := by
        refine List.find?_eq_none.mpr fun c _ hspells => ?_
        refine Category.newline_notMem_of_spells hspells ?_
        rw [Nat.add_assoc, List.take_length_add_append, List.take_succ_cons]
        simp
      rw [← Nat.add_assoc, longest, hnone]
      exact ih
  have hbefore : ∀ n ≤ w.length, longest (w ++ .newline :: more) n = longest w n := by
    intro n hn
    induction n with
    | zero => rfl
    | succ n ih => rw [longest, longest, List.take_append_of_le_length hn, ih (Nat.le_of_succ_le hn)]
  rw [List.length_append, hbehind, hbefore _ (Nat.le_refl _)]

/-! ### One attempt -/

/-- An attempt to read a token uses up at least the item that it begins with. -/
theorem le_race (live : List Automaton) (best : Best) (used : Nat) (items : List Scanned) :
    used ≤ (race live best used items).2 := by
  induction items generalizing live best used with
  | nil =>
    rw [race]
    split <;> exact Nat.le_refl used
  | cons s rest ih =>
    rw [race]
    split
    · exact Nat.le_refl used
    · split
      · exact Nat.le_succ used
      · exact Nat.le_of_succ_le (ih _ _ _)

theorem race_cons_pos (s : Scanned) (rest : List Scanned) :
    0 < (race Automaton.initialSet none 0 (s :: rest)).2 := by
  have hlive : Automaton.initialSet.isEmpty = false := rfl
  rw [race, hlive, if_neg Bool.false_ne_true]
  split
  · exact Nat.one_pos
  · exact le_race _ _ _ _

section Next
variable {l l' : Lexer} {s first : Scanned} {rest : List Scanned}

theorem next_rest (h : l.skipBlanks.rest = first :: rest) :
    ∃ n, l.next.2 = { l with rest := rest.drop n } := by
  obtain ⟨cause, herror⟩ | ⟨t, n, hnext, _⟩ := next_cases h
  · have hpos := race_cons_pos first rest
    simp only [next, h, readToken] at herror ⊢
    generalize race Automaton.initialSet none 0 (first :: rest) = verdict at hpos herror ⊢
    obtain ⟨result, used⟩ := verdict
    obtain ⟨used, rfl⟩ := Nat.exists_eq_succ_of_ne_zero (Nat.ne_of_gt hpos)
    rcases result with f | _ | ⟨winner, length⟩
    · exact ⟨used, rfl⟩
    · exact ⟨used, rfl⟩
    · cases herror
  · exact ⟨n, by rw [hnext]⟩

theorem length_next_lt (h : l.skipBlanks.rest = first :: rest) :
    l.next.2.rest.length < l.rest.length := by
  obtain ⟨n, hnext⟩ := next_rest h
  have hskip := l.skipBlanks_sublist.length_le
  rw [h, List.length_cons] at hskip
  rw [hnext, List.length_drop]
  omega

/-- The lexer of a text that a line end and a second text follow. -/
def followedBy (l : Lexer) (s : Scanned) (l' : Lexer) : Lexer := ⟨l.rest ++ s :: l'.rest, l'.finish⟩

theorem skipBlanks_followedBy (h : l.skipBlanks.rest = first :: rest) (s : Scanned) (l' : Lexer) :
    (l.followedBy s l').skipBlanks.rest = first :: (rest ++ s :: l'.rest) := by
  have hrest : l.rest.dropWhile (·.isBlank) = first :: rest := h
  rw [skipBlanks, followedBy, List.dropWhile_append, hrest]
  rfl

theorem skipBlanks_behind (h : l.skipBlanks.rest = []) (hs : s.symbol = .newline) :
    (l.followedBy s l').skipBlanks = l'.skipBlanks := by
  have hrest : l.rest.dropWhile (·.isBlank) = [] := h
  have hblank : s.isBlank := s.isBlank_iff.mpr (.inr hs)
  simp only [skipBlanks, followedBy, List.dropWhile_append, hrest, List.isEmpty_nil, if_true,
    List.dropWhile_cons_of_pos hblank]

/-- Where a line end follows, the lexer reads what it reads where the text ends. -/
theorem next_before_newline (hs : s.symbol = .newline) (h : l.skipBlanks.rest = first :: rest)
    (l' : Lexer) : (l.followedBy s l').next.1 = l.next.1 ∧
      ∀ t, l.next.1 = .ok t → (l.followedBy s l').next.2 = l.next.2.followedBy s l' := by
  have hskip := skipBlanks_followedBy h s l'
  have hsymbols : (first :: (rest ++ s :: l'.rest)).map (·.symbol) =
      (first :: rest).map (·.symbol) ++ .newline :: l'.rest.map (·.symbol) := by
    simp [hs]
  have hfaults :
      Category.all.findSome? (·.fault ((first :: (rest ++ s :: l'.rest)).map (·.symbol))) =
        Category.all.findSome? (·.fault ((first :: rest).map (·.symbol))) := by
    simp only [hsymbols, Category.fault_newline]
  have hlongest := longest_newline ((first :: rest).map (·.symbol)) (l'.rest.map (·.symbol))
  rw [← hsymbols, List.length_map, List.length_map] at hlongest
  cases hquiet : Category.all.findSome? (·.fault ((first :: rest).map (·.symbol))) with
  | some f =>
    rw [next_of_fault h hquiet]
    exact ⟨next_of_fault hskip (hfaults.trans hquiet), nofun⟩
  | none =>
    cases hfound : longest ((first :: rest).map (·.symbol)) (first :: rest).length with
    | none =>
      rw [next_of_no_lexeme h hquiet hfound]
      exact ⟨next_of_no_lexeme hskip (hfaults.trans hquiet) (hlongest.trans hfound), nofun⟩
    | some found =>
      obtain ⟨c, n⟩ := found
      obtain ⟨_, _, _, hn⟩ := longest_eq_some hfound
      rw [next_of_longest h hquiet hfound,
        next_of_longest hskip (hfaults.trans hquiet) (hlongest.trans hfound), ← List.cons_append,
        List.take_append_of_le_length hn, List.drop_append_of_le_length hn]
      exact ⟨rfl, fun _ _ => rfl⟩

end Next

/-! ### All attempts -/

section Drain
variable {l l' : Lexer} {s : Scanned}

/-- Blanks in front make no difference. -/
theorem drain_of_skipBlanks (h : l.skipBlanks = l'.skipBlanks) (n : Nat) :
    l.drain n = l'.drain n := by
  cases n with
  | zero => rfl
  | succ n => simp only [drain, next, h]

/-- As many attempts as there are items are enough. -/
theorem drain_of_length_le {n m : Nat} (hn : l.rest.length ≤ n) (hm : l.rest.length ≤ m) :
    l.drain n = l.drain m := by
  induction n generalizing l m with
  | zero =>
    have hnil : l.skipBlanks.rest = [] :=
      List.length_eq_zero_iff.mp (Nat.le_zero.mp (Nat.le_trans l.skipBlanks_sublist.length_le hn))
    rw [drain_of_nil hnil, drain_of_nil hnil]
  | succ n ih =>
    cases hrest : l.skipBlanks.rest with
    | nil => rw [drain_of_nil hrest, drain_of_nil hrest]
    | cons first rest =>
      have hlt := length_next_lt hrest
      obtain ⟨m, rfl⟩ : ∃ m', m = m' + 1 := ⟨m - 1, by omega⟩
      have hrest' : l.next.2.drain n = l.next.2.drain m := ih (by omega) (by omega)
      rw [drain_of_cons hrest, drain_of_cons hrest, hrest']

/-- A text without failures has its tokens, and behind the line end come those of the next one. -/
theorem drain_followedBy (hs : s.symbol = .newline) {ts : List Token} {n m : Nat}
    (hn : l.rest.length ≤ n) (h : l.drain n = ts.map .ok)
    (hm : (l.followedBy s l').rest.length ≤ m) :
    (l.followedBy s l').drain m = ts.map .ok ++ l'.drain l'.rest.length := by
  have hlength : ∀ l : Lexer, (l.followedBy s l').rest.length =
      l.rest.length + (l'.rest.length + 1) := fun l => List.length_append
  induction n generalizing l ts m with
  | zero =>
    have hnil : l.rest = [] := List.length_eq_zero_iff.mp (Nat.le_zero.mp hn)
    have hskip : l.skipBlanks.rest = [] := by rw [skipBlanks, hnil]; rfl
    rw [hlength] at hm
    rw [← h, drain, List.nil_append, drain_of_skipBlanks (skipBlanks_behind hskip hs) m]
    exact drain_of_length_le (by omega) (Nat.le_refl _)
  | succ n ih =>
    rw [hlength] at hm
    cases hrest : l.skipBlanks.rest with
    | nil =>
      rw [drain_of_nil hrest] at h
      rw [← h, List.nil_append, drain_of_skipBlanks (skipBlanks_behind hrest hs) m]
      exact drain_of_length_le (by omega) (Nat.le_refl _)
    | cons first rest =>
      rw [drain_of_cons hrest] at h
      obtain ⟨t, us, rfl, ht, hus⟩ := List.map_eq_cons_iff.mp h.symm
      obtain ⟨hsame, hbehind⟩ := next_before_newline hs hrest l'
      have hlt := length_next_lt hrest
      obtain ⟨m, rfl⟩ : ∃ m', m = m' + 1 := ⟨m - 1, by omega⟩
      have hfurther : (l.next.2.followedBy s l').drain m = us.map .ok ++ l'.drain l'.rest.length :=
        ih (by omega) hus.symm (by rw [hlength]; omega)
      rw [drain_of_cons (skipBlanks_followedBy hrest s l'), hsame, hbehind t ht.symm, hfurther, ← ht]
      rfl

end Drain

/-! ### The same text on lower lines -/

def down (k : Nat) (l : Lexer) : Lexer := ⟨l.rest.map (·.down k), l.finish.down k⟩

theorem skipBlanks_down (k : Nat) (l : Lexer) : (l.down k).skipBlanks = l.skipBlanks.down k := by
  simp only [skipBlanks, down, List.dropWhile_map]
  rfl

theorem race_down (k : Nat) (live : List Automaton) (best : Best) (used : Nat)
    (items : List Scanned) :
    race live best used (items.map (·.down k)) = race live best used items := by
  induction items generalizing live best used with
  | nil => rfl
  | cons s rest ih =>
    have hsymbol : (s.down k).symbol = s.symbol := rfl
    simp only [List.map_cons, race, ih, hsymbol]

theorem valueOf_down (k : Nat) (winner : Automaton) (items : List Scanned) :
    valueOf winner (items.map (·.down k)) = valueOf winner items := by
  have hraw : ∀ items : List Scanned, rawText (items.map (·.down k)) = rawText items := fun items => by
    simp only [rawText, List.map_map]
    rfl
  cases winner <;> simp only [valueOf, ← List.map_drop, ← List.map_dropLast, hraw]

theorem next_down (k : Nat) (l : Lexer) :
    (l.down k).next = (attemptDown k l.next.1, l.next.2.down k) := by
  simp only [next, skipBlanks_down]
  cases hrest : l.skipBlanks.rest with
  | nil => simp [down, hrest, attemptDown, Token.down, Token.endAt]
  | cons first rest =>
    simp only [down, hrest, List.map_cons, readToken]
    rw [← List.map_cons, race_down]
    rcases race Automaton.initialSet none 0 (first :: rest) with ⟨f | _ | ⟨winner, length⟩, used⟩
    · simp only [List.map_drop]
      rfl
    · simp only [List.map_drop]
      rfl
    · simp only [← List.map_take, valueOf_down, List.map_drop]
      rfl

/-- On lower lines a lexer reads the same tokens, and fails for the same causes. -/
theorem drain_down (k n : Nat) (l : Lexer) :
    (l.down k).drain n = (l.drain n).map (attemptDown k) := by
  induction n generalizing l with
  | zero => rfl
  | succ n ih =>
    simp only [drain, skipBlanks_down, next_down, ih]
    cases hrest : l.skipBlanks.rest <;> simp [down, hrest]

end Lexer

/-- The lexer of a text with a line end and a second text behind it. -/
theorem Lexer.ofSource_newline {s₁ : String} (s₂ : String)
    (hreturn : s₁.toList.getLast? ≠ some '\r') :
    ofSource (s₁ ++ "\n" ++ s₂) =
      (ofSource s₁).followedBy (.newlineAt (ofSource s₁).finish)
        ((ofSource s₂).down (ofSource s₁).finish.line) := by
  have hchars : (s₁ ++ "\n" ++ s₂).toList = s₁.toList ++ '\n' :: s₂.toList := by simp
  have hscan : scan (s₁ ++ "\n" ++ s₂) = scan s₁ ++ .newlineAt (ofSource s₁).finish ::
      (scan s₂).map (·.down (ofSource s₁).finish.line) := by
    rw [scan, hchars, scanFrom_newline hreturn, Position.nextLine_eq, scanFrom_down]
    rfl
  have hfinish : placeAfter .start (scan (s₁ ++ "\n" ++ s₂)) =
      (placeAfter .start (scan s₂)).down (ofSource s₁).finish.line := by
    rw [hscan, placeAfter_append, ← placeAfter_down, ← Position.nextLine_eq]
    rfl
  rw [ofSource, hfinish, hscan]
  rfl

/-- A text without failures, a line end and a second text: the tokens of the first text come first,
and what the second text gives comes next, on lower lines. -/
theorem Token.Stream.ofSource_newline {s₁ s₂ : String} {ts : List Token}
    (hreturn : s₁.toList.getLast? ≠ some '\r') (h : (ofSource s₁).pending = ts.map .ok) :
    ofSource (s₁ ++ "\n" ++ s₂) =
      ⟨ts.map .ok ++ (ofSource s₂).pending.map (Lexer.attemptDown (ofSource s₁).finish.line),
        (ofSource s₂).finish.down (ofSource s₁).finish.line⟩ := by
  have hlexer : Lexer.ofSource (s₁ ++ "\n" ++ s₂) =
      (Lexer.ofSource s₁).followedBy (.newlineAt (ofSource s₁).finish)
        ((Lexer.ofSource s₂).down (ofSource s₁).finish.line) := Lexer.ofSource_newline s₂ hreturn
  have hpending := @Lexer.drain_followedBy _ ((Lexer.ofSource s₂).down (ofSource s₁).finish.line)
    (.newlineAt (ofSource s₁).finish) rfl _ _ _ (Nat.le_refl _) h (Nat.le_refl _)
  have hlength : ((Lexer.ofSource s₂).down (ofSource s₁).finish.line).rest.length =
      (Lexer.ofSource s₂).rest.length := List.length_map _
  rw [Lexer.drain_down, ← hlexer, hlength] at hpending
  show Stream.mk _ _ = _
  rw [hpending, hlexer]
  rfl

/-! ### All tokens of both texts -/

/-- The first failure of a text is met whatever follows its last line. -/
theorem Lexer.failure_followedBy {l : Lexer} {s : Scanned} (hs : s.symbol = .newline) {e : Error}
    {n m : Nat} (hn : l.rest.length ≤ n) (hm : n ≤ m)
    (h : Token.Stream.failure? (l.drain n) = some e) (l' : Lexer) :
    Token.Stream.failure? ((l.followedBy s l').drain m) = some e := by
  induction n generalizing l m with
  | zero => cases h
  | succ n ih =>
    obtain ⟨m, rfl⟩ : ∃ m', m = m' + 1 := ⟨m - 1, by omega⟩
    cases hrest : l.skipBlanks.rest with
    | nil =>
      rw [drain_of_nil hrest] at h
      cases h
    | cons first rest =>
      obtain ⟨hsame, hbehind⟩ := next_before_newline hs hrest l'
      have hlt := length_next_lt hrest
      rw [drain_of_cons hrest] at h
      rw [drain_of_cons (skipBlanks_followedBy hrest s l'), hsame]
      cases hnext : l.next.1 with
      | error e' =>
        rw [hnext] at h
        exact h
      | ok t =>
        rw [hnext] at h
        rw [hbehind t hnext]
        exact ih (by omega) (by omega) h

namespace Token.Stream

theorem stop_of_tokens_error {s : Token.Stream} {e : Error} (h : s.tokens = .error e) :
    s.stop = .error e := by
  cases hstop : s.stop with
  | ok p =>
    obtain ⟨ts, hts, _⟩ := tokens_of_ok hstop
    cases hts.symm.trans h
  | error e' => rw [Except.error.inj ((tokens_of_error hstop).symm.trans h)]

theorem failure?_eq_some {s : Token.Stream} {e : Error} :
    failure? s.pending = some e ↔ s.stop = .error e := by
  unfold stop
  cases failure? s.pending with
  | none => simp
  | some e' => simp

/-- Tokens in front do not hide a failure, and it is the same one on lower lines. -/
theorem failure?_down {pending : List (Except Error Token)} {e : Error}
    (h : failure? pending = some e) (k : Nat) (ts : List Token) :
    failure? (ts.map .ok ++ pending.map (Lexer.attemptDown k)) = some (e.down k) := by
  rw [failure?_append]
  induction pending with
  | nil => cases h
  | cons r rest ih =>
    cases r with
    | error e' =>
      obtain rfl := Option.some.inj h
      rfl
    | ok t => exact ih h

/-- The tokens of a stream behind others and on lower lines. -/
theorem tokens_down (k : Nat) (ts : List Token) (s : Token.Stream) :
    tokens ⟨ts.map .ok ++ s.pending.map (Lexer.attemptDown k), s.finish.down k⟩ =
      match s.tokens with
      | .ok us => .ok (ts ++ us.map (·.down k))
      | .error e => .error (e.down k) := by
  cases htokens : s.tokens with
  | ok us =>
    obtain ⟨us, hpending, rfl⟩ := tokens_eq_ok_iff.mp htokens
    refine tokens_eq_ok_iff.mpr ⟨ts ++ us.map (·.down k), ?_, ?_⟩
    · rw [hpending, List.map_append, List.map_map, List.map_map]
      rfl
    · rw [List.map_append, ← List.append_assoc]
      rfl
  | error e =>
    have hfailure := failure?_eq_some.mpr (stop_of_tokens_error htokens)
    exact tokens_of_error (failure?_eq_some.mp (failure?_down hfailure k ts))

end Token.Stream

/-- **Tokens concatenate.** Put a line end and a second text behind a text that does not end in a
carriage return. If the first text fails, the whole fails in the same way. Otherwise the whole has
the tokens of the first text up to its end, which is on some line `k`, and then those of the second
text, `k` lines further down; and if the second text fails, so does the whole, `k` lines further
down. -/
theorem tokenize_newline {s₁ s₂ : String} (hreturn : s₁.toList.getLast? ≠ some '\r') :
    (∀ e, tokenize s₁ = .error e → tokenize (s₁ ++ "\n" ++ s₂) = .error e) ∧
    ∀ all, tokenize s₁ = .ok all → ∃ (ts : List Token) (p : Position), all = ts ++ [.endAt p] ∧
      tokenize (s₁ ++ "\n" ++ s₂) =
        match tokenize s₂ with
        | .ok us => .ok (ts ++ us.map (·.down p.line))
        | .error e => .error (e.down p.line) := by
  constructor
  · intro e he
    have hfailure := Token.Stream.failure?_eq_some.mpr (Token.Stream.stop_of_tokens_error he)
    have hlength : (Lexer.ofSource s₁).rest.length ≤
        (Lexer.ofSource (s₁ ++ "\n" ++ s₂)).rest.length := by
      rw [Lexer.ofSource_newline s₂ hreturn, Lexer.followedBy, List.length_append]
      exact Nat.le_add_right _ _
    have hwhole := Lexer.failure_followedBy (s := .newlineAt (Lexer.ofSource s₁).finish) rfl
      (Nat.le_refl _) hlength hfailure ((Lexer.ofSource s₂).down (Lexer.ofSource s₁).finish.line)
    rw [← Lexer.ofSource_newline s₂ hreturn] at hwhole
    exact Token.Stream.tokens_of_error (Token.Stream.failure?_eq_some.mp hwhole)
  · intro all hall
    obtain ⟨ts, hpending, rfl⟩ := Token.Stream.tokens_eq_ok_iff.mp hall
    refine ⟨ts, _, rfl, ?_⟩
    rw [tokenize, Token.Stream.ofSource_newline hreturn hpending]
    exact Token.Stream.tokens_down _ ts (.ofSource s₂)

/-- A comment ends with its line, a text that is not closed fails whatever follows, and what is
wrong with the second text is wrong further down. -/
theorem tokenize_newline_openEnds :
    tokenize "a # b\n?? =" = .ok [⟨.identifier, .text "a", ⟨1, 1⟩, 1⟩,
      ⟨.comment, .text " b", ⟨1, 3⟩, 3⟩, ⟨.nullCoalescing, .none, ⟨2, 1⟩, 2⟩,
      ⟨.assign, .none, ⟨2, 4⟩, 1⟩, .endAt ⟨2, 5⟩] ∧
    tokenize "\"a\nb\"" = .error (.lex ⟨1, 1⟩ (.fault .unterminatedText)) ∧
    tokenize "a # b\n ?" = .error (.lex ⟨2, 2⟩ (.unexpected '?')) := by
  have hreturn : "a # b".toList.getLast? ≠ some '\r' := by decide +kernel
  have hfirst : tokenize "a # b" = .ok ([⟨.identifier, .text "a", ⟨1, 1⟩, 1⟩,
      ⟨.comment, .text " b", ⟨1, 3⟩, 3⟩] ++ [.endAt ⟨1, 6⟩]) := by rfl
  refine ⟨?_, ?_, ?_⟩
  · obtain ⟨ts, p, hts, hwhole⟩ := (@tokenize_newline _ "?? =" hreturn).2 _ hfirst
    obtain ⟨rfl, hend⟩ := List.append_inj' hts rfl
    obtain rfl : (⟨1, 6⟩ : Position) = p := by simpa [Token.endAt] using hend
    exact hwhole
  · exact (@tokenize_newline "\"a" "b\"" (by decide +kernel)).1 _ rfl
  · obtain ⟨ts, p, hts, hwhole⟩ := (@tokenize_newline _ " ?" hreturn).2 _ hfirst
    obtain ⟨rfl, hend⟩ := List.append_inj' hts rfl
    obtain rfl : (⟨1, 6⟩ : Position) = p := by simpa [Token.endAt] using hend
    exact hwhole

end Lumen
