import Lumen.Proofs.Token.Lexeme
import Lumen.Proofs.Token.Race

/-! What the automata recognise.

For each automaton, what a single symbol does to it once it is on its way (it goes on,
it denies, or it meets a fault), and from that, by induction on the text, the fault that
it runs into and the texts that it accepts. Some automata accept what they do only where
they meet no fault: a digit behind a large number is a fault and not another number. -/
namespace Lumen
open Token

namespace Token.Automaton

/-! ### Fixed spellings -/

section Fixed
variable {spelling : Spelling} {matched : Nat}

theorem advance_fixed {c : Char} (h : spelling.letters[matched]? = some c) :
    (fixed spelling matched).advance (.char c) =
      some (fixed spelling (matched + 1), matched + 1 == spelling.letters.length) := by
  simp only [advance, step, stepFixed]
  by_cases hend : matched + 1 = spelling.letters.length <;> simp [h, hend]

theorem deny_fixed {s : Symbol} (h : ∀ c, s = .char c → spelling.letters[matched]? ≠ some c) :
    ((fixed spelling matched).step s).2 = .deny := by
  cases s with
  | char c => simp only [step, stepFixed, if_neg (h c rfl)]
  | _ => rfl

theorem faultOn_fixed (w : List Symbol) : (fixed spelling matched).faultOn w = none := by
  induction w generalizing matched with
  | nil => rfl
  | cons s rest ih =>
    by_cases h : ∃ c, s = .char c ∧ spelling.letters[matched]? = some c
    · obtain ⟨c, rfl, hc⟩ := h
      rw [faultOn_of_advance (advance_fixed hc), ih]
    · exact faultOn_of_deny (deny_fixed fun c hs hc => h ⟨c, hs, hc⟩) rest

/-- Accepted is what is left of the spelling. -/
theorem accept_fixed {left : List Char} (hleft : spelling.letters.drop matched = left)
    (w : List Symbol) : (fixed spelling matched).accept left.isEmpty w =
      if w = left.map .char then some (fixed spelling (matched + w.length)) else none := by
  induction w generalizing matched left with
  | nil => cases left <;> simp [accept]
  | cons s rest ih =>
    have hhead : spelling.letters[matched]? = left.head? := by rw [← hleft, List.head?_drop]
    cases left with
    | nil => rw [accept_of_deny (deny_fixed (by simp [hhead])), if_neg (by simp)]
    | cons d left =>
      by_cases hs : s = .char d
      · subst hs
        have hend : (matched + 1 == spelling.letters.length) = left.isEmpty := by
          have hlen := congrArg List.length hleft
          rw [List.length_drop, List.length_cons] at hlen
          rw [Bool.eq_iff_iff, beq_iff_eq, List.isEmpty_iff_length_eq_zero]
          omega
        have htail : spelling.letters.drop (matched + 1) = left := by
          rw [← List.tail_drop, hleft, List.tail_cons]
        rw [accept_of_advance (advance_fixed hhead), hend, ih htail, Nat.add_right_comm]
        simp [Nat.add_assoc]
      · have hdeny : ∀ c, s = .char c → spelling.letters[matched]? ≠ some c := by
          rintro c rfl hc
          rw [hhead, List.head?_cons, Option.some.injEq] at hc
          exact hs (by rw [hc])
        rw [accept_of_deny (deny_fixed hdeny), if_neg (by simp [hs])]

end Fixed

/-! ### Identifiers -/

theorem advance_identifier {s : Symbol} (hs : s.isPart) (length : Nat) :
    (identifier (length + 1)).advance s = some (identifier (length + 2), true) := by
  cases s with
  | char c =>
    have hc : isIdentifierPart c = true := hs
    simp [advance, step, stepIdentifier, hc]
  | _ => exact absurd hs (by decide)

theorem deny_identifier {s : Symbol} (hs : ¬s.isPart) (length : Nat) :
    ((identifier (length + 1)).step s).2 = .deny := by
  cases s with
  | char c =>
    have hc : ¬isIdentifierPart c = true := hs
    simp [step, stepIdentifier, hc]
  | _ => rfl

theorem advance_identifier_fresh {c : Char} (hc : isIdentifierStart c) :
    (identifier 0).advance (.char c) = some (identifier 1, true) := by
  simp [advance, step, stepIdentifier, hc]

theorem deny_identifier_fresh {s : Symbol} (h : ∀ c, s = .char c → ¬isIdentifierStart c) :
    ((identifier 0).step s).2 = .deny := by
  cases s with
  | char c => simp [step, stepIdentifier, h c rfl]
  | _ => rfl

theorem faultOn_identifier (length : Nat) (w : List Symbol) :
    (identifier (length + 1)).faultOn w = none := by
  induction w generalizing length with
  | nil => rfl
  | cons s rest ih =>
    by_cases hs : s.isPart
    · rw [faultOn_of_advance (advance_identifier hs length), ih]
    · exact faultOn_of_deny (deny_identifier hs length) rest

theorem accept_identifier (length : Nat) (w : List Symbol) :
    (identifier (length + 1)).accept true w =
      if w.all (·.isPart) then some (identifier (length + 1 + w.length)) else none := by
  induction w generalizing length with
  | nil => rfl
  | cons s rest ih =>
    by_cases hs : s.isPart
    · rw [accept_of_advance (advance_identifier hs length), ih, Nat.add_right_comm]
      simp [hs, Nat.add_assoc]
    · rw [accept_of_deny (deny_identifier hs length)]
      simp [hs]

/-! ### Comments -/

section Comment
variable {content : Nat} {s : Symbol}

theorem advance_comment (hs : s.staysInLine) (h : content < maxContent) :
    (comment (.inside content)).advance s = some (comment (.inside (content + 1)), true) := by
  have hfull : ¬maxContent < content + 1 := by omega
  cases s with
  | char c => simp only [advance, step, stepComment, if_neg hfull]
  | whitespace => simp only [advance, step, stepComment, if_neg hfull]
  | _ => exact absurd hs (by decide)

theorem fault_comment (hs : s.staysInLine) (h : maxContent ≤ content) :
    ((comment (.inside content)).step s).2.fault? = some .commentTooLong := by
  have hfull : maxContent < content + 1 := by omega
  cases s with
  | char c => simp only [step, stepComment, if_pos hfull, Status.fault?]
  | whitespace => simp only [step, stepComment, if_pos hfull, Status.fault?]
  | _ => exact absurd hs (by decide)

theorem deny_comment (hs : ¬s.staysInLine) : ((comment (.inside content)).step s).2 = .deny := by
  cases s with
  | newline => rfl
  | endOfText => rfl
  | _ => exact absurd rfl hs

theorem advance_comment_fresh :
    (comment .fresh).advance (.char '#') = some (comment (.inside 0), true) := rfl

theorem deny_comment_fresh (hs : s ≠ .char '#') : ((comment .fresh).step s).2 = .deny := by
  simp only [step, stepComment]

theorem faultOn_comment (hcontent : content ≤ maxContent) (w : List Symbol) :
    (comment (.inside content)).faultOn w =
      if maxContent < content + (w.takeWhile (·.staysInLine)).length then some .commentTooLong
      else none := by
  induction w generalizing content with
  | nil => exact (if_neg (Nat.not_lt.mpr hcontent)).symm
  | cons s rest ih =>
    by_cases hs : s.staysInLine
    · rw [List.takeWhile_cons_of_pos hs, List.length_cons]
      by_cases hfull : content < maxContent
      · have hroom : content + 1 ≤ maxContent := hfull
        rw [faultOn_of_advance (advance_comment hs hfull), ih hroom, Nat.add_right_comm]
        rfl
      · rw [faultOn_of_step (fault_comment hs (by omega)), if_pos (by omega)]
    · rw [List.takeWhile_cons_of_neg hs, faultOn_of_deny (deny_comment hs)]
      exact (if_neg (Nat.not_lt.mpr hcontent)).symm

theorem accept_comment {w rest : List Symbol}
    (hquiet : (comment (.inside content)).faultOn (w ++ rest) = none) :
    (comment (.inside content)).accept true w =
      if w.all (·.staysInLine) then some (comment (.inside (content + w.length))) else none := by
  induction w generalizing content with
  | nil => rfl
  | cons s w ih =>
    rw [List.cons_append] at hquiet
    by_cases hs : s.staysInLine
    · by_cases hfull : content < maxContent
      · have hnext := advance_comment hs hfull
        rw [faultOn_of_advance hnext] at hquiet
        rw [accept_of_advance hnext, ih hquiet, Nat.add_right_comm]
        simp [hs, Nat.add_assoc]
      · rw [faultOn_of_step (fault_comment hs (by omega))] at hquiet
        cases hquiet
    · rw [accept_of_deny (deny_comment hs)]
      simp [hs]

end Comment

/-! ### Texts -/

section Text
variable {content : Nat} {s : Symbol}

theorem isContent_or (s : Symbol) : s.isContent ∨ s = .char '"' ∨ ¬s.staysInLine := by
  by_cases hq : s = .char '"'
  · exact .inr (.inl hq)
  · by_cases hs : s.staysInLine
    · exact .inl (by simp [Symbol.isContent, hs, hq])
    · exact .inr (.inr hs)

theorem step_text (hs : s.isContent) : (text (.inside content)).step s =
    (text (.inside (content + 1)),
      if maxContent < content + 1 then .fault .textTooLong else .possible) := by
  cases s with
  | char c =>
    have hc : c ≠ '"' := by
      rintro rfl
      exact absurd hs (by decide)
    simp [step, stepText, hc]
  | whitespace => rfl
  | _ => exact absurd hs (by decide)

theorem advance_text (hs : s.isContent) (h : content < maxContent) :
    (text (.inside content)).advance s = some (text (.inside (content + 1)), false) := by
  have hfull : ¬maxContent < content + 1 := by omega
  simp only [advance, step_text hs, if_neg hfull]

theorem fault_text (hs : s.isContent) (h : maxContent ≤ content) :
    ((text (.inside content)).step s).2.fault? = some .textTooLong := by
  have hfull : maxContent < content + 1 := by omega
  simp only [step_text hs, if_pos hfull, Status.fault?]

theorem advance_text_quote :
    (text (.inside content)).advance (.char '"') = some (text (.closed content), true) := rfl

theorem fault_text_line (hs : ¬s.staysInLine) :
    ((text (.inside content)).step s).2.fault? = some .unterminatedText := by
  cases s with
  | newline => rfl
  | endOfText => rfl
  | _ => exact absurd rfl hs

theorem advance_text_fresh :
    (text .fresh).advance (.char '"') = some (text (.inside 0), false) := rfl

theorem deny_text_fresh (hs : s ≠ .char '"') : ((text .fresh).step s).2 = .deny := by
  simp only [step, stepText]

theorem faultOn_closed (w : List Symbol) : (text (.closed content)).faultOn w = none := by
  cases w <;> rfl

theorem faultOn_text (hcontent : content ≤ maxContent) (w : List Symbol) :
    (text (.inside content)).faultOn w =
      if maxContent < content + (w.takeWhile (·.isContent)).length then some .textTooLong
      else if w[(w.takeWhile (·.isContent)).length]? = some (.char '"') then none
      else some .unterminatedText := by
  induction w generalizing content with
  | nil => exact (if_neg (Nat.not_lt.mpr hcontent)).symm
  | cons s rest ih =>
    rcases isContent_or s with hs | rfl | hs
    · rw [List.takeWhile_cons_of_pos hs, List.length_cons, List.getElem?_cons_succ]
      by_cases hfull : content < maxContent
      · have hroom : content + 1 ≤ maxContent := hfull
        rw [faultOn_of_advance (advance_text hs hfull), ih hroom, Nat.add_right_comm]
        rfl
      · rw [faultOn_of_step (fault_text hs (by omega)), if_pos (by omega)]
    · rw [List.takeWhile_cons_of_neg (by decide), faultOn_of_advance advance_text_quote,
        faultOn_closed]
      exact (if_neg (Nat.not_lt.mpr hcontent)).symm
    · have hend : s ≠ .char '"' := by
        rintro rfl
        exact hs rfl
      rw [List.takeWhile_cons_of_neg (by simp [Symbol.isContent, hs]),
        faultOn_of_step (fault_text_line hs)]
      simp [hend, hcontent]

theorem accept_text {w rest : List Symbol}
    (hquiet : (text (.inside content)).faultOn (w ++ rest) = none) :
    (text (.inside content)).accept false w =
      if w = w.takeWhile (·.isContent) ++ [.char '"'] then
        some (text (.closed (content + w.length - 1)))
      else none := by
  induction w generalizing content with
  | nil => rfl
  | cons s w ih =>
    rw [List.cons_append] at hquiet
    rcases isContent_or s with hs | rfl | hs
    · rw [List.takeWhile_cons_of_pos hs]
      by_cases hfull : content < maxContent
      · have hnext := advance_text hs hfull
        rw [faultOn_of_advance hnext] at hquiet
        rw [accept_of_advance hnext, ih hquiet, Nat.add_right_comm]
        simp [Nat.add_assoc]
      · rw [faultOn_of_step (fault_text hs (by omega))] at hquiet
        cases hquiet
    · rw [accept_of_advance advance_text_quote, List.takeWhile_cons_of_neg (by decide)]
      cases w <;> rfl
    · rw [faultOn_of_step (fault_text_line hs)] at hquiet
      cases hquiet

end Text

/-! ### Integers -/

section Integer
open Lumen.Symbol (decimalFrom)
variable {n length : Nat} {s : Symbol} {c : Char}

theorem decimalFrom_char (n : Nat) (c : Char) (digits : List Symbol) :
    decimalFrom n (.char c :: digits) = decimalFrom (10 * n + (c.toNat - '0'.toNat)) digits :=
  Nat.ofDigitChars_cons

theorem le_decimalFrom (n : Nat) (digits : List Symbol) : n ≤ decimalFrom n digits := by
  rw [decimalFrom, Nat.ofDigitChars_eq_ofDigitChars_zero]
  exact Nat.le_add_right_of_le (Nat.le_mul_of_pos_left n (Nat.pow_pos (by decide)))

theorem digitValue_eq_zero (hc : c.isDigit) : (digitValue c == 0) = (c == '0') := by
  have hzero : digitValue c = 0 ↔ c.toNat = '0'.toNat := by
    obtain ⟨hlow, hhigh⟩ : 48 ≤ c.toNat ∧ c.toNat ≤ 57 := Char.isDigit_iff_toNat.mp hc
    have hsize : UInt64.size = 18446744073709551616 := rfl
    rw [← UInt64.toNat_inj]
    show (UInt64.ofNat (c.toNat - 48)).toNat = 0 ↔ c.toNat = 48
    rw [UInt64.toNat_ofNat_of_lt' (by omega)]
    omega
  rw [Bool.eq_iff_iff, beq_iff_eq, beq_iff_eq, hzero, Char.toNat_inj]

/-- Numbers are small enough not to wrap around. -/
theorem step_integer (hc : c.isDigit) (hn : n ≤ maxInteger) (length : Nat) :
    (integer (.ofNat n) length false).step (.char c) =
      (integer (.ofNat (10 * n + (c.toNat - '0'.toNat))) (length + 1) (length == 0 && c == '0'),
        if maxInteger < 10 * n + (c.toNat - '0'.toNat) then .fault .integerTooLarge
        else .completed) := by
  have hvalue : UInt64.ofNat n * 10 + digitValue c =
      .ofNat (10 * n + (c.toNat - '0'.toNat)) := by
    rw [UInt64.ofNat_add, UInt64.ofNat_mul, UInt64.mul_comm]
    rfl
  have hsmall : (UInt64.ofNat (10 * n + (c.toNat - '0'.toNat))).toNat =
      10 * n + (c.toNat - '0'.toNat) := by
    have hnine : c.toNat ≤ 57 := (Char.isDigit_iff_toNat.mp hc).2
    have hmax := maxInteger_eq
    have hsize : UInt64.size = 18446744073709551616 := rfl
    exact UInt64.toNat_ofNat_of_lt' (by omega)
  simp only [step, stepInteger, hc, hvalue, hsmall, digitValue_eq_zero hc]
  rfl

theorem advance_integer (hc : c.isDigit) (hn : 10 * n + (c.toNat - '0'.toNat) ≤ maxInteger)
    (length : Nat) : (integer (.ofNat n) length false).advance (.char c) =
      some (integer (.ofNat (10 * n + (c.toNat - '0'.toNat))) (length + 1)
        (length == 0 && c == '0'), true) := by
  simp only [advance, step_integer hc (show n ≤ maxInteger by omega), if_neg (Nat.not_lt.mpr hn)]

theorem advance_integer_again (hc : c.isDigit)
    (hn : 10 * n + (c.toNat - '0'.toNat) ≤ maxInteger) (length : Nat) :
    (integer (.ofNat n) (length + 1) false).advance (.char c) =
      some (integer (.ofNat (10 * n + (c.toNat - '0'.toNat))) (length + 2) false, true) :=
  advance_integer hc hn (length + 1)

theorem digit_le (hc : c.isDigit) : c.toNat - '0'.toNat ≤ maxInteger := by
  have hnine : c.toNat ≤ 57 := (Char.isDigit_iff_toNat.mp hc).2
  have hmax := maxInteger_eq
  omega

theorem advance_integer_fresh (hc : c.isDigit) : (integer 0 0 false).advance (.char c) =
    some (integer (.ofNat (c.toNat - '0'.toNat)) 1 (c == '0'), true) := by
  have hnext := advance_integer hc (show 10 * 0 + _ ≤ _ by rw [Nat.zero_add]; exact digit_le hc) 0
  rw [Nat.zero_add] at hnext
  exact hnext

theorem fault_integer (hc : c.isDigit) (hn : n ≤ maxInteger)
    (hlarge : maxInteger < 10 * n + (c.toNat - '0'.toNat)) :
    ((integer (.ofNat n) (length + 1) false).step (.char c)).2.fault? = some .integerTooLarge := by
  simp only [step_integer hc hn, if_pos hlarge, Status.fault?]

theorem deny_integer (hs : ¬s.isDigit) (value : UInt64) (leadingZero : Bool) :
    ((integer value length leadingZero).step s).2 = .deny := by
  cases s with
  | char c =>
    have hc : ¬c.isDigit = true := hs
    simp [step, stepInteger, hc]
  | _ => rfl

/-- Nothing follows a zero in front. -/
theorem deny_zero (value : UInt64) (s : Symbol) :
    ((integer value length true).step s).2 = .deny := by
  cases s <;> simp [step, stepInteger]

theorem faultOn_zero (value : UInt64) (w : List Symbol) :
    (integer value length true).faultOn w = none := by
  cases w with
  | nil => rfl
  | cons s rest => exact faultOn_of_deny (deny_zero value s) rest

theorem isDigit_iff : s.isDigit ↔ ∃ c, s = .char c ∧ c.isDigit := by
  cases s <;> simp [Symbol.isDigit, Symbol.char?]

theorem faultOn_integer (hn : n ≤ maxInteger) (w : List Symbol) :
    (integer (.ofNat n) (length + 1) false).faultOn w =
      if maxInteger < decimalFrom n (w.takeWhile (·.isDigit)) then some .integerTooLarge
      else none := by
  induction w generalizing n length with
  | nil => exact (if_neg (Nat.not_lt.mpr hn)).symm
  | cons s rest ih =>
    by_cases hs : s.isDigit
    · obtain ⟨c, rfl, hc⟩ := isDigit_iff.mp hs
      rw [List.takeWhile_cons_of_pos hs, decimalFrom_char]
      by_cases hlarge : maxInteger < 10 * n + (c.toNat - '0'.toNat)
      · rw [faultOn_of_step (fault_integer hc hn hlarge),
          if_pos (Nat.lt_of_lt_of_le hlarge (le_decimalFrom _ _))]
      · have hn' := Nat.not_lt.mp hlarge
        rw [faultOn_of_advance (advance_integer_again hc hn' length), ih hn']
    · rw [List.takeWhile_cons_of_neg hs, faultOn_of_deny (deny_integer hs _ _)]
      exact (if_neg (Nat.not_lt.mpr hn)).symm

theorem accept_integer (hn : n ≤ maxInteger) {w rest : List Symbol}
    (hquiet : (integer (.ofNat n) (length + 1) false).faultOn (w ++ rest) = none) :
    (integer (.ofNat n) (length + 1) false).accept true w =
      if w.all (·.isDigit) then some (integer (.ofNat (decimalFrom n w)) (length + 1 + w.length) false)
      else none := by
  induction w generalizing n length with
  | nil => rfl
  | cons s w ih =>
    rw [List.cons_append] at hquiet
    by_cases hs : s.isDigit
    · obtain ⟨c, rfl, hc⟩ := isDigit_iff.mp hs
      by_cases hlarge : maxInteger < 10 * n + (c.toNat - '0'.toNat)
      · rw [faultOn_of_step (fault_integer hc hn hlarge)] at hquiet
        cases hquiet
      · have hn' := Nat.not_lt.mp hlarge
        have hnext := advance_integer_again hc hn' length
        rw [faultOn_of_advance hnext] at hquiet
        rw [accept_of_advance hnext, ih hn' hquiet, decimalFrom_char, Nat.add_right_comm]
        simp [hs, Nat.add_assoc]
    · rw [accept_of_deny (deny_integer hs _ _)]
      simp [hs]

end Integer

end Token.Automaton

end Lumen
