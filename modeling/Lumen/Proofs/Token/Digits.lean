import Lumen.Proofs.Token.Layout
import Mathlib.Data.List.TakeWhile

/-! Digits in a row.

Nothing follows a zero in front of a number, so of a text of digits each zero in front is a token
of its own (`drain_zeros`), and the digits behind them (`DigitRun`) are one number more, or a fault
at the first of them if that number is too large (`tokenize_digits`).

An automaton that reads a number counts in 64 bits. A race shows symbols only to automata whose
number can be written (`inRange_of_mem_shown`), and from such a number one digit leads to a little
more than ten times as much (`step_integer_exact`), so no count wraps around, and the number of a
token is the one that the automaton has counted (`toInt_of_race`). -/
namespace Lumen
open Token

/-! ### What the automata count -/

namespace Token.Automaton

/-- The number that an automaton holds, if it holds one, can be written. -/
def InRange : Automaton → Prop
  | integer value _ _ => value.toNat ≤ maxInteger
  | _ => True

/-- What a step makes of the number that an automaton holds: where it denies the symbol it keeps
the number, and else the symbol is a digit and stands behind the others. Nothing wraps around. -/
structure CountsOn (value : UInt64) (s : Symbol) (value' : UInt64) (status : Status) : Prop where
  kept : status = .deny → value' = value
  digit : status ≠ .deny → ∃ c, s = .char c ∧ c.isDigit ∧
    value'.toNat = 10 * value.toNat + (c.toNat - '0'.toNat)
  bound : value'.toNat ≤ 21474836479

theorem step_integer_exact {value : UInt64} (h : value.toNat ≤ maxInteger) (length : Nat)
    (leadingZero : Bool) (s : Symbol) : ∃ value' length' leadingZero' status,
      (integer value length leadingZero).step s = (integer value' length' leadingZero', status) ∧
      CountsOn value s value' status ∧
      (value'.toNat ≤ maxInteger ∨ status = .fault .integerTooLarge) := by
  have hmax := maxInteger_eq
  by_cases hreads : s.isDigit ∧ leadingZero = false
  · obtain ⟨hs, rfl⟩ := hreads
    obtain ⟨c, rfl, hc⟩ := isDigit_iff.mp hs
    have hstep := step_integer hc h length
    rw [UInt64.ofNat_toNat] at hstep
    have hnine : c.toNat ≤ 57 := (toNat_of_isDigit hc).2
    have hzero : '0'.toNat = 48 := rfl
    have hcount : (UInt64.ofNat (10 * value.toNat + (c.toNat - '0'.toNat))).toNat =
        10 * value.toNat + (c.toNat - '0'.toNat) := by
      have hsize : UInt64.size = 18446744073709551616 := rfl
      exact UInt64.toNat_ofNat_of_lt' (by omega)
    refine ⟨_, _, _, _, hstep, ⟨fun hdeny => ?_, fun _ => ⟨c, rfl, hc, hcount⟩, by omega⟩, ?_⟩
    · split at hdeny <;> cases hdeny
    · rw [hcount]
      split
      · exact .inr rfl
      · next hle => exact .inl (Nat.not_lt.mp hle)
  · refine ⟨value, length, leadingZero, .deny, ?_,
      ⟨fun _ => rfl, fun hne => absurd rfl hne, by omega⟩, .inl h⟩
    cases s with
    | char c =>
      have hdenied : ¬(c.isDigit && !leadingZero) = true := by
        simpa [Symbol.isDigit, Symbol.char?] using hreads
      rw [step, stepInteger, if_neg hdenied]
    | _ => rfl

theorem step_of_advance {a b : Automaton} {s : Symbol} {accepted : Bool}
    (h : a.advance s = some (b, accepted)) :
    (a.step s).1 = b ∧ ∀ f, (a.step s).2 ≠ .fault f := by
  unfold advance at h
  split at h
  · next heq =>
    cases h
    simp [heq]
  · next heq =>
    cases h
    simp [heq]
  · cases h

theorem advance_of_accept {a b : Automaton} {s : Symbol} {before : Bool}
    (h : a.accept before [s] = some b) : a.advance s = some (b, true) := by
  obtain ⟨⟨next, accepted⟩, hadvance, haccept⟩ := Option.bind_eq_some_iff.mp h
  cases accepted with
  | false => cases haccept
  | true =>
    cases haccept
    exact hadvance

/-- An automaton of another category never comes to hold a number. -/
theorem inRange_step {a : Automaton} (ha : ∀ value length leadingZero,
    a ≠ integer value length leadingZero) (s : Symbol) : (a.step s).1.InRange := by
  cases a with
  | integer value length leadingZero => exact absurd rfl (ha value length leadingZero)
  | fixed spelling matched => rw [step]; fun_cases stepFixed spelling matched s <;> trivial
  | text phase => rw [step]; fun_cases stepText phase s <;> trivial
  | comment phase => rw [step]; fun_cases stepComment phase s <;> trivial
  | identifier length => rw [step]; fun_cases stepIdentifier length s <;> trivial

/-- What is still in the race after a step holds a number that can be written. -/
theorem inRange_of_advance {a b : Automaton} {s : Symbol} {accepted : Bool} (ha : a.InRange)
    (h : a.advance s = some (b, accepted)) : b.InRange := by
  obtain ⟨rfl, hquiet⟩ := step_of_advance h
  by_cases hinteger : ∃ value length leadingZero, a = integer value length leadingZero
  · obtain ⟨value, length, leadingZero, rfl⟩ := hinteger
    obtain ⟨value', length', leadingZero', status, hstep, -, hrange⟩ :=
      step_integer_exact ha length leadingZero s
    rw [hstep] at hquiet ⊢
    exact hrange.resolve_right (hquiet _)
  · exact inRange_step (fun value length leadingZero ha' =>
      hinteger ⟨value, length, leadingZero, ha'⟩) s

theorem inRange_of_mem_initialSet {a : Automaton} (h : a ∈ initialSet) : a.InRange := by
  obtain ⟨c, -, rfl⟩ := Category.mem_initialSet.mp h
  cases c <;> simp [Category.automaton, InRange]

end Token.Automaton

namespace Lexer
open Automaton

/-- The automata that a race shows symbols, each with its symbol, round after round. -/
def shown (live : List Automaton) : List Scanned → List (Automaton × Symbol)
  | [] => live.map (·, .endOfText)
  | s :: rest =>
    live.map (·, s.symbol) ++
      match feed s.symbol live with
      | .error _ => []
      | .ok round => shown round.survivors rest

section
variable {live : List Automaton} {items : List Scanned} {a : Automaton} {s : Symbol}

theorem mem_shown_cons {item : Scanned} (h : (a, s) ∈ shown live (item :: items)) :
    (a ∈ live ∧ s = item.symbol) ∨ (a, s) ∈ shown (survivors item.symbol live) items := by
  rw [shown, feed_eq] at h
  obtain h | h := List.mem_append.mp h
  · obtain ⟨b, hb, heq⟩ := List.mem_map.mp h
    cases heq
    exact .inl ⟨hb, rfl⟩
  · cases hfault : faultAt item.symbol live with
    | some f =>
      rw [hfault] at h
      cases h
    | none =>
      rw [hfault] at h
      exact .inr h

/-- A race begun with numbers that can be written shows symbols to no others. -/
theorem inRange_of_mem_shown (hlive : ∀ a ∈ live, a.InRange) (h : (a, s) ∈ shown live items) :
    a.InRange := by
  induction items generalizing live with
  | nil =>
    obtain ⟨b, hb, heq⟩ := List.mem_map.mp h
    cases heq
    exact hlive _ hb
  | cons item items ih =>
    obtain ⟨ha, -⟩ | hrest := mem_shown_cons h
    · exact hlive a ha
    · refine ih (fun b hb => ?_) hrest
      obtain ⟨c, hc, _, hadvance⟩ := mem_survivors.mp hb
      exact inRange_of_advance (hlive c hc) hadvance

/-- What wins a race has just been shown a symbol, or was the best before. -/
theorem shown_of_race {best : Best} {used : Nat} {winner : Automaton} {count : Nat}
    (h : (race live best used items).1 = .ok (some (winner, count))) :
    best = some (winner, count) ∨
      ∃ a s, (a, s) ∈ shown live items ∧ a.advance s = some (winner, true) := by
  induction items generalizing live best used with
  | nil =>
    rw [race] at h
    split at h
    · cases h
    · exact .inl (Except.ok.inj h)
  | cons item items ih =>
    rw [race] at h
    split at h
    · exact .inl (Except.ok.inj h)
    · rw [shown]
      rw [feed_eq] at h ⊢
      cases hfault : faultAt item.symbol live with
      | some f =>
        rw [hfault] at h
        cases h
      | none =>
        rw [hfault] at h
        obtain hbest | ⟨a, s, hmem, hadvance⟩ := ih h
        · cases hcompleted : live.findSome? (·.accept false [item.symbol]) with
          | none =>
            rw [hcompleted] at hbest
            exact .inl hbest
          | some b =>
            rw [hcompleted] at hbest
            cases hbest
            obtain ⟨a, ha, haccept⟩ := List.exists_of_findSome?_eq_some hcompleted
            exact .inr ⟨a, _, List.mem_append_left _ (List.mem_map_of_mem ha),
              advance_of_accept haccept⟩
        · exact .inr ⟨a, s, List.mem_append_right _ hmem, hadvance⟩

/-- The number of a token is the one that the automaton has counted. -/
theorem toInt_of_race {value : UInt64} {length count : Nat} {leadingZero : Bool}
    (h : (race Automaton.initialSet none 0 items).1 =
      .ok (some (.integer value length leadingZero, count))) :
    (Int32.ofNat value.toNat).toInt = value.toNat := by
  obtain hbest | ⟨a, s, hmem, hadvance⟩ := shown_of_race h
  · cases hbest
  · have hrange : value.toNat ≤ maxInteger :=
      inRange_of_advance (inRange_of_mem_shown (fun _ => inRange_of_mem_initialSet) hmem) hadvance
    exact Int32.toInt_ofNat_of_lt (Nat.lt_succ_of_le hrange)

end

end Lexer

/-! ### Digits in front of the end of text -/

namespace Token

/-- A text of digits: `zeros` of them in front, and behind them the digits of a number that does not
begin with a zero, or none. -/
structure DigitRun (d : String) (zeros : Nat) (digits : List Char) : Prop where
  letters : d.toList = List.replicate zeros '0' ++ digits
  digit : ∀ c ∈ digits, c.isDigit
  first : '0' ∉ digits.head?

/-- Every text of digits is of this form. -/
theorem exists_digitRun {d : String} (h : ∀ c ∈ d.toList, c.isDigit) :
    ∃ zeros digits, DigitRun d zeros digits := by
  have hsplit := List.takeWhile_append_dropWhile (p := (· == '0')) (l := d.toList)
  have hzeros : d.toList.takeWhile (· == '0') =
      List.replicate (d.toList.takeWhile (· == '0')).length '0' :=
    List.eq_replicate_of_mem fun c hc => beq_iff_eq.mp (List.all_eq_true.mp List.all_takeWhile c hc)
  refine ⟨(d.toList.takeWhile (· == '0')).length, d.toList.dropWhile (· == '0'), ?_, ?_, ?_⟩
  · rw [← hzeros, hsplit]
  · exact fun c hc => h c ((List.dropWhile_sublist _).subset hc)
  · intro hhead
    have hfirst := List.head?_dropWhile_not (· == '0') d.toList
    rw [Option.mem_def.mp hhead] at hfirst
    cases hfirst

/-- The tokens of `count` zeros in a row, the first of them at `p`. -/
def zeros (p : Position) (count : Nat) : List Token :=
  (List.range count).map fun i => ⟨.integer, .integer 0, ⟨p.line, p.column + i⟩, 1⟩

theorem zeros_succ (p : Position) (count : Nat) :
    zeros p (count + 1) = ⟨.integer, .integer 0, p, 1⟩ :: zeros p.nextColumn count := by
  rw [zeros, List.range_succ_eq_map, List.map_cons, List.map_map]
  simp [zeros, Function.comp_def, Position.nextColumn, Nat.add_assoc, Nat.add_comm 1]

end Token

namespace Token.Category

theorem fault_zero (d : Category) (w : List Symbol) : d.fault (.char '0' :: w) = none := by
  cases d <;> simp [fault]

theorem spells_zero {d : Category} (hd : d ∈ all) (s : Symbol) (w : List Symbol) :
    d.spells (.char '0' :: s :: w) = false := by
  have hstart : isIdentifierStart '0' = false := by decide +kernel
  cases d with
  | fixed f =>
    have hf : f ∈ spellings := by simpa [all] using hd
    exact beq_eq_false_iff_ne.mpr (letters_ne_of_isDigit hf rfl _).symm
  | integer => rfl
  | text => rfl
  | comment => rfl
  | identifier => rw [spells, hstart, Bool.false_and]

/-- The fault of one category is the fault of the text. -/
theorem findSome?_fault {c : Category} (hc : c ∈ all) {w : List Symbol} {f : Fault}
    (h : c.fault w = some f) : all.findSome? (·.fault w) = some f := by
  cases hfound : all.findSome? (·.fault w) with
  | none =>
    rw [List.findSome?_eq_none_iff] at hfound
    cases h.symm.trans (hfound c hc)
  | some g =>
    obtain ⟨d, -, hd⟩ := List.exists_of_findSome?_eq_some hfound
    rw [fault_unique h hd]

end Token.Category

/-- Characters of one line move the column on. -/
theorem placeAfter_line {cs : List Char} (h : ∀ c ∈ cs, isLineEnd c = false) (p : Position) :
    placeAfter p (scanFrom p cs) = ⟨p.line, p.column + cs.length⟩ := by
  induction cs generalizing p with
  | nil => simp [scanFrom, placeAfter]
  | cons c cs ih =>
    rw [List.forall_mem_cons] at h
    have hafter : (⟨.ofChar c, c, p⟩ : Scanned).after = p.nextColumn := by
      unfold Symbol.ofChar Scanned.after
      cases Text.isBlank c <;> rfl
    rw [scanFrom_cons h.1, placeAfter, hafter, ih h.2]
    simp [Position.nextColumn, Nat.add_assoc, Nat.add_comm 1]

namespace Lexer

/-- A zero is a token, whatever follows it. -/
theorem next_zero {l : Lexer} {p : Position} {more : List Char}
    (hl : l.skipBlanks.rest = scanFrom p ('0' :: more)) :
    l.next = (.ok ⟨.integer, .integer 0, p, 1⟩, { l with rest := scanFrom p.nextColumn more }) := by
  have hsymbol : Symbol.ofChar '0' = .char '0' := by decide +kernel
  rw [scanFrom_cons (by decide), hsymbol] at hl
  have hfound : Category.all.find? (·.spells [.char '0']) = some .integer := by decide +kernel
  have hlongest : ∀ w, longest ([.char '0'] ++ w) ([.char '0'] ++ w).length = some (.integer, 1) :=
    fun w => Category.longest_append hfound (by simp) fun s more _ d hd =>
      Category.spells_zero hd s more
  have hitems := hlongest ((scanFrom p.nextColumn more).map (·.symbol))
  refine (next_of_longest hl ?_ (by simpa using hitems)).trans rfl
  exact List.findSome?_eq_none_iff.mpr fun d _ => Category.fault_zero d _

theorem drain_zeros {l : Lexer} {p : Position} {count : Nat} {more : List Char}
    (hl : l.rest = scanFrom p (List.replicate count '0' ++ more)) (n : Nat) :
    l.drain (count + n) = (Token.zeros p count).map .ok ++
      ({ l with rest := scanFrom ⟨p.line, p.column + count⟩ more } : Lexer).drain n := by
  induction count generalizing l p with
  | zero =>
    rw [List.replicate_zero, List.nil_append] at hl
    rw [Nat.zero_add, Nat.add_zero, ← hl]
    rfl
  | succ count ih =>
    rw [List.replicate_succ, List.cons_append] at hl
    have hskip : l.skipBlanks.rest = scanFrom p ('0' :: (List.replicate count '0' ++ more)) := by
      rw [skipBlanks, hl, scanFrom_cons (by decide)]
      rfl
    have hitems := hskip
    rw [scanFrom_cons (by decide)] at hitems
    rw [Nat.add_right_comm, drain_of_cons hitems, next_zero hskip, Token.zeros_succ,
      List.map_cons, List.cons_append]
    refine congrArg (_ :: ·) ((ih rfl).trans ?_)
    rw [Position.nextColumn, Nat.add_assoc, Nat.add_comm 1]

end Lexer

namespace Token.DigitRun
variable {d : String} {count : Nat} {digits : List Char} {l : Lexer} {p : Position}

/-- The word that digits write. -/
def number (digits : List Char) : Word :=
  ⟨.integer, .integer (.ofNat (Nat.ofDigitChars 10 digits 0))⟩

/-- The digits stand in one line. -/
theorem line (h : DigitRun d count digits) : ∀ c ∈ d.toList, isLineEnd c = false := by
  intro c hc
  rw [h.letters] at hc
  obtain hzero | hdigit := List.mem_append.mp hc
  · rw [List.eq_of_mem_replicate hzero]
    rfl
  · exact not_isLineEnd_of_isDigit (h.digit c hdigit)

theorem letters_number (h : DigitRun d count digits) (hne : digits ≠ [])
    (hle : Nat.ofDigitChars 10 digits 0 ≤ maxInteger) : (number digits).letters = digits := by
  obtain ⟨c, cs, rfl⟩ := List.exists_cons_of_ne_nil hne
  have hfirst : c ≠ '0' := fun hc => h.first (hc ▸ rfl)
  rw [number, Word.letters, Int32.toNatClampNeg_ofNat_of_lt (Nat.lt_succ_of_le hle)]
  exact toDigits_ofDigitChars_cons hfirst h.digit

theorem spelled_number (hle : Nat.ofDigitChars 10 digits 0 ≤ maxInteger) :
    (number digits).Spelled Symbol.IsBlank .integer := by
  refine Word.spelled_integer (Int32.le_iff_toInt_le.mpr ?_)
  rw [Int32.toInt_ofNat_of_lt (Nat.lt_succ_of_le hle)]
  exact Int.natCast_nonneg _

/-- The digits of a number in range are one token. -/
theorem drain_number (h : DigitRun d count digits) (hne : digits ≠ [])
    (hle : Nat.ofDigitChars 10 digits 0 ≤ maxInteger) (hl : l.rest = scanFrom p digits) (n : Nat) :
    l.drain (n + 1) = [.ok ⟨.integer, (number digits).value, p, digits.length⟩] := by
  have hletters := h.letters_number hne hle
  have hspelled := spelled_number hle
  have hrest : l.skipBlanks.rest = scanFrom p ((number digits).letters ++ []) := by
    refine hspelled.skipBlanks ?_
    rw [hletters, List.append_nil, hl]
  rw [hspelled.drain_eq hrest (fun _ => nofun), hletters, Lexer.drain_of_nil rfl]
  rfl

/-- The digits of a number that is too large are a fault. -/
theorem fault_integer (h : DigitRun d count digits)
    (hlt : maxInteger < Nat.ofDigitChars 10 digits 0) :
    Category.integer.fault (digits.map .char) = some .integerTooLarge := by
  cases digits with
  | nil => cases hlt
  | cons c cs =>
    have hdigits : ∀ s ∈ (c :: cs).map Symbol.char, s.isDigit := by
      intro s hs
      obtain ⟨b, hb, rfl⟩ := List.mem_map.mp hs
      exact h.digit b hb
    have hfirst : Symbol.char c ≠ .char '0' := by
      rintro ⟨⟩
      exact h.first rfl
    have hnumber := Category.decimal_chars (c :: cs)
    rw [List.map_cons] at hdigits hnumber ⊢
    rw [Category.fault, List.takeWhile_eq_self_iff.mpr hdigits, hnumber,
      if_pos ⟨hdigits _ List.mem_cons_self, hfirst, hlt⟩]

theorem drain_tooLarge (h : DigitRun d count digits)
    (hlt : maxInteger < Nat.ofDigitChars 10 digits 0) (hl : l.rest = scanFrom p digits) (n : Nat) :
    ∃ more, l.drain (n + 1) = .error (.lex p (.fault .integerTooLarge)) :: more := by
  have hfault := h.fault_integer hlt
  have hsymbols : (scanFrom p digits).map (·.symbol) = digits.map .char := by
    rw [map_symbol_scanFrom fun c hc => not_isLineEnd_of_isDigit (h.digit c hc),
      Word.ofChar_of_not_isBlank fun c hc => not_isBlank_of_isDigit (h.digit c hc)]
  obtain ⟨c, cs, rfl⟩ : ∃ c cs, digits = c :: cs := by
    refine List.exists_cons_of_ne_nil ?_
    rintro rfl
    cases hlt
  have hfirst := h.digit c List.mem_cons_self
  have hblank := not_isBlank_of_isDigit hfirst
  have hitems := scanFrom_cons (not_isLineEnd_of_isDigit hfirst) p cs
  have hskip : l.skipBlanks.rest = ⟨.ofChar c, c, p⟩ :: scanFrom p.nextColumn cs := by
    rw [Lexer.skipBlanks, hl, hitems, List.dropWhile_cons, if_neg]
    simp [Scanned.isBlank, Symbol.ofChar, hblank]
  have hfound := Category.findSome?_fault (by simp [Category.all]) hfault
  rw [← hsymbols, hitems] at hfound
  exact ⟨l.next.2.drain n, by rw [Lexer.drain_of_cons hskip, Lexer.next_of_fault hskip hfound]⟩

theorem pending_eq (h : DigitRun d count digits) : (Stream.ofSource d).pending =
    (zeros .start count).map .ok ++
      ({ Lexer.ofSource d with rest := scanFrom ⟨1, count + 1⟩ digits } : Lexer).drain
        digits.length := by
  have hlength : (Lexer.ofSource d).rest.length = count + digits.length := by
    show (scanFrom .start d.toList).length = _
    rw [length_scanFrom h.line, h.letters, List.length_append, List.length_replicate]
  have hrest : (Lexer.ofSource d).rest =
      scanFrom .start (List.replicate count '0' ++ digits) := by
    rw [← h.letters]
    rfl
  have hdrain := Lexer.drain_zeros hrest digits.length
  rw [← hlength, Position.start, Nat.add_comm 1] at hdrain
  exact hdrain

theorem finish_eq (h : DigitRun d count digits) :
    (Stream.ofSource d).finish = ⟨1, count + digits.length + 1⟩ := by
  show placeAfter .start (scanFrom .start d.toList) = _
  rw [placeAfter_line h.line, h.letters, List.length_append, List.length_replicate, Position.start,
    Nat.add_comm 1]

/-- The number behind the zeros in front is a token, if it is in range. -/
theorem tokenize_ok (h : DigitRun d count digits)
    (hle : Nat.ofDigitChars 10 digits 0 ≤ maxInteger) :
    tokenize d = .ok (zeros .start count ++
      (if digits = [] then []
        else [⟨.integer, (number digits).value, ⟨1, count + 1⟩, digits.length⟩]) ++
      [.endAt ⟨1, count + digits.length + 1⟩]) := by
  refine Stream.tokens_eq_ok_iff.mpr ⟨_, ?_, by rw [h.finish_eq]⟩
  rw [h.pending_eq, List.map_append]
  refine congrArg _ ?_
  split
  · next hnil =>
    subst hnil
    rfl
  · next hne =>
    obtain ⟨n, hn⟩ := Nat.exists_eq_succ_of_ne_zero (mt List.length_eq_zero_iff.mp hne)
    have hdrain := h.drain_number hne hle (l := { Lexer.ofSource d with
      rest := scanFrom ⟨1, count + 1⟩ digits }) rfl n
    rw [← Nat.succ_eq_add_one, ← hn] at hdrain
    exact hdrain

theorem tokenize_tooLarge (h : DigitRun d count digits)
    (hlt : maxInteger < Nat.ofDigitChars 10 digits 0) :
    tokenize d = .error (.lex ⟨1, count + 1⟩ (.fault .integerTooLarge)) := by
  have hne : digits ≠ [] := by
    rintro rfl
    cases hlt
  obtain ⟨n, hn⟩ := Nat.exists_eq_succ_of_ne_zero (mt List.length_eq_zero_iff.mp hne)
  obtain ⟨more, hdrain⟩ := h.drain_tooLarge hlt (l := { Lexer.ofSource d with
    rest := scanFrom ⟨1, count + 1⟩ digits }) rfl n
  refine Stream.tokens_of_error ?_
  rw [Stream.stop, h.pending_eq, hn, Nat.succ_eq_add_one, hdrain, Stream.failure?_append]
  rfl

end Token.DigitRun

/-- **Of digits in a row, each zero in front is a number of its own**, and what is left is one
more, or a failure at its first digit if it is too large, however long it is. In no race does an
automaton hold a number that could wrap around: what it is shown a symbol with can be written, one
step adds one digit to that, and the number of the token is the one that has been counted. -/
theorem tokenize_digits :
    (∀ d : String, (∀ c ∈ d.toList, c.isDigit) → ∃ count digits, DigitRun d count digits) ∧
    (∀ d count digits, DigitRun d count digits →
      (Nat.ofDigitChars 10 digits 0 ≤ 2147483647 → ∃ n : Int32,
        n.toInt = Nat.ofDigitChars 10 digits 0 ∧
        tokenize d = .ok (zeros .start count ++
          (if digits = [] then [] else [⟨.integer, .integer n, ⟨1, count + 1⟩, digits.length⟩]) ++
          [.endAt ⟨1, count + digits.length + 1⟩])) ∧
      ∀ e, tokenize d = .error e ↔ 2147483647 < Nat.ofDigitChars 10 digits 0 ∧
        e = .lex ⟨1, count + 1⟩ (.fault .integerTooLarge)) ∧
    Fault.integerTooLarge.message = "Integer literal exceeds 2147483647" ∧
    (∀ items value length leadingZero s,
      (.integer value length leadingZero, s) ∈ Lexer.shown Automaton.initialSet items →
      value.toNat ≤ 2147483647 ∧ ∃ value' length' leadingZero' status,
        (Automaton.integer value length leadingZero).step s =
          (.integer value' length' leadingZero', status) ∧
        Automaton.CountsOn value s value' status) ∧
    ∀ items value length leadingZero count,
      (Lexer.race Automaton.initialSet none 0 items).1 =
        .ok (some (.integer value length leadingZero, count)) →
      (Int32.ofNat value.toNat).toInt = value.toNat := by
  refine ⟨fun d => exists_digitRun,
    fun d count digits h => ⟨fun hle => ?_, fun e => ⟨fun he => ?_, ?_⟩⟩, rfl,
    fun items value length leadingZero s h => ?_, fun _ _ _ _ _ => Lexer.toInt_of_race⟩
  · exact ⟨_, Int32.toInt_ofNat_of_lt (Nat.lt_succ_of_le hle), h.tokenize_ok hle⟩
  · obtain hlt | hle := Nat.lt_or_ge maxInteger (Nat.ofDigitChars 10 digits 0)
    · exact ⟨hlt, Except.error.inj (he.symm.trans (h.tokenize_tooLarge hlt))⟩
    · cases he.symm.trans (h.tokenize_ok hle)
  · rintro ⟨hlt, rfl⟩
    exact h.tokenize_tooLarge hlt
  · have hrange : value.toNat ≤ maxInteger :=
      Lexer.inRange_of_mem_shown (fun _ => Automaton.inRange_of_mem_initialSet) h
    obtain ⟨value', length', leadingZero', status, hstep, hcounts, -⟩ :=
      Automaton.step_integer_exact hrange length leadingZero s
    exact ⟨hrange, value', length', leadingZero', status, hstep, hcounts⟩

/-- Two zeros in front of a ten, and a number that is too large behind one zero. The automaton that
has read `21` is shown the digit behind them. -/
theorem tokenize_digits_leadingZeros :
    (∀ c ∈ "0010".toList, c.isDigit) ∧ (∃ count digits, DigitRun "0010" count digits) ∧
    DigitRun "0010" 2 ['1', '0'] ∧
    (∃ n : Int32, n.toInt = 10 ∧ tokenize "0010" = .ok
      [⟨.integer, .integer 0, ⟨1, 1⟩, 1⟩, ⟨.integer, .integer 0, ⟨1, 2⟩, 1⟩,
        ⟨.integer, .integer n, ⟨1, 3⟩, 2⟩, .endAt ⟨1, 5⟩]) ∧
    DigitRun "02147483648" 1 "2147483648".toList ∧
    tokenize "02147483648" = .error (.lex ⟨1, 2⟩ (.fault .integerTooLarge)) ∧
    (.integer 21 2 false, .char '4') ∈ Lexer.shown Automaton.initialSet (scan "214") ∧
    (∃ value' length' leadingZero' status, (Automaton.integer 21 2 false).step (.char '4') =
        (.integer value' length' leadingZero', status) ∧
      Automaton.CountsOn 21 (.char '4') value' status) ∧
    (Lexer.race Automaton.initialSet none 0 (scan "214")).1 =
      .ok (some (.integer 214 3 false, 3)) ∧
    (Int32.ofNat (214 : UInt64).toNat).toInt = (214 : UInt64).toNat := by
  have hdigits : ∀ c ∈ "0010".toList, c.isDigit := List.all_eq_true.mp (by decide +kernel)
  have hten : DigitRun "0010" 2 ['1', '0'] :=
    ⟨by decide +kernel, List.all_eq_true.mp (by decide), by decide⟩
  have hlarge : DigitRun "02147483648" 1 "2147483648".toList :=
    ⟨by decide +kernel, List.all_eq_true.mp (by decide +kernel), by decide +kernel⟩
  have hshown : (.integer 21 2 false, .char '4') ∈
      Lexer.shown Automaton.initialSet (scan "214") := by decide +kernel
  have hrace : (Lexer.race Automaton.initialSet none 0 (scan "214")).1 =
      .ok (some (.integer 214 3 false, 3)) := by decide +kernel
  obtain ⟨hruns, htokens, -, hcounts, hnumber⟩ := tokenize_digits
  exact ⟨hdigits, hruns _ hdigits, hten, (htokens _ _ _ hten).1 (by decide), hlarge,
    ((htokens _ _ _ hlarge).2 _).mpr ⟨by decide +kernel, rfl⟩, hshown,
    (hcounts _ _ _ _ _ hshown).2, hrace, hnumber _ _ _ _ _ hrace⟩

end Lumen
