import Lumen.Proofs.Token.Recognition

/-! Maximal munch.

A fresh automaton runs into the fault of its category and accepts the lexemes of its
category (`Category.faultOn_automaton`, `Category.accept_automaton`), so that the race of
all of them is won by the longest lexeme. What the lexer reads is what the lexical
grammar says (`Lexer.next_eq_munch`). -/
namespace Lumen
open Token

namespace Token.Category
open Automaton

/-- A fresh automaton of a category. -/
def automaton : Category → Automaton
  | fixed spelling => .fixed spelling 0
  | integer => .integer 0 0 false
  | text => .text .fresh
  | comment => .comment .fresh
  | identifier => .identifier 0

theorem initialSet_eq : Automaton.initialSet = all.map automaton := by
  simp [Automaton.initialSet, all, automaton, Function.comp_def]

theorem mem_initialSet {a : Automaton} :
    a ∈ Automaton.initialSet ↔ ∃ c ∈ all, c.automaton = a := by
  rw [initialSet_eq, List.mem_map]

/-- The automaton of a category that has read a lexeme. -/
def accepting : Category → List Symbol → Automaton
  | fixed spelling, w => .fixed spelling w.length
  | integer, w => .integer (.ofNat (Symbol.decimal w)) w.length (w.head? == some (.char '0'))
  | text, w => .text (.closed (w.length - 2))
  | comment, w => .comment (.inside (w.length - 1))
  | identifier, w => .identifier w.length

/-! ### Faults -/

theorem faultOn_integer_fresh (w : List Symbol) :
    (Automaton.integer 0 0 false).faultOn w = integer.fault w := by
  cases w with
  | nil => rfl
  | cons s rest =>
    by_cases hs : s.isDigit
    · obtain ⟨c, rfl, hc⟩ := isDigit_iff.mp hs
      rw [faultOn_of_advance (advance_integer_fresh hc), fault]
      by_cases hzero : c = '0'
      · subst hzero
        exact faultOn_zero _ rest
      · rw [beq_false_of_ne hzero, faultOn_integer (digit_le hc), List.takeWhile_cons_of_pos hs]
        simp [hs, hzero, Symbol.decimal, decimalFrom_char]
    · rw [faultOn_of_deny (deny_integer hs _ _), fault, if_neg fun h => hs h.1]

theorem faultOn_text_fresh (w : List Symbol) :
    (Automaton.text .fresh).faultOn w = text.fault w := by
  cases w with
  | nil => rfl
  | cons s rest =>
    by_cases hs : s = .char '"'
    · subst hs
      rw [faultOn_of_advance advance_text_fresh, faultOn_text (Nat.zero_le _), Nat.zero_add]
      rfl
    · rw [faultOn_of_deny (deny_text_fresh hs)]
      unfold fault
      split <;> simp_all

theorem faultOn_comment_fresh (w : List Symbol) :
    (Automaton.comment .fresh).faultOn w = comment.fault w := by
  cases w with
  | nil => rfl
  | cons s rest =>
    by_cases hs : s = .char '#'
    · subst hs
      rw [faultOn_of_advance advance_comment_fresh, faultOn_comment (Nat.zero_le _), Nat.zero_add]
      rfl
    · rw [faultOn_of_deny (deny_comment_fresh hs)]
      unfold fault
      split <;> simp_all

theorem faultOn_identifier_fresh (w : List Symbol) :
    (Automaton.identifier 0).faultOn w = none := by
  cases w with
  | nil => rfl
  | cons s rest =>
    by_cases h : ∃ c, s = .char c ∧ isIdentifierStart c
    · obtain ⟨c, rfl, hc⟩ := h
      rw [faultOn_of_advance (advance_identifier_fresh hc), faultOn_identifier]
    · exact faultOn_of_deny (deny_identifier_fresh fun c hs hc => h ⟨c, hs, hc⟩) rest

/-- A fresh automaton runs into the fault of its category. -/
theorem faultOn_automaton (c : Category) (w : List Symbol) : c.automaton.faultOn w = c.fault w := by
  cases c with
  | fixed spelling => exact faultOn_fixed w
  | integer => exact faultOn_integer_fresh w
  | text => exact faultOn_text_fresh w
  | comment => exact faultOn_comment_fresh w
  | identifier => exact faultOn_identifier_fresh w

/-- The only category that can have a fault, as the first symbol tells. -/
def opened : List Symbol → Category
  | .char '"' :: _ => text
  | .char '#' :: _ => comment
  | _ => integer

theorem eq_opened_of_fault {c : Category} {w : List Symbol} {f : Fault} (h : c.fault w = some f) :
    c = opened w := by
  unfold fault at h
  split at h
  · next first rest =>
    split at h
    · next hfault =>
      obtain ⟨c, rfl, hc⟩ := isDigit_iff.mp hfault.1
      unfold opened
      split <;> simp_all
    · cases h
  · rfl
  · rfl
  · cases h

theorem fault_unique {c d : Category} {w : List Symbol} {f g : Fault} (hf : c.fault w = some f)
    (hg : d.fault w = some g) : g = f := by
  rw [eq_opened_of_fault hf] at hf
  rw [eq_opened_of_fault hg] at hg
  exact Option.some.inj (hg.symm.trans hf)

/-! ### Lexemes -/

section Lexemes
variable {w rest : List Symbol}

theorem accept_fixed_fresh {spelling : Spelling} (h : spelling.letters ≠ []) (w : List Symbol) :
    (Automaton.fixed spelling 0).accept false w =
      if (fixed spelling).spells w then some ((fixed spelling).accepting w) else none := by
  have hempty : spelling.letters.isEmpty = false := by simpa using h
  rw [← hempty, accept_fixed List.drop_zero]
  simp [spells, accepting]

theorem accept_integer_fresh (hquiet : integer.fault (w ++ rest) = none) :
    (Automaton.integer 0 0 false).accept false w =
      if integer.spells w then some (integer.accepting w) else none := by
  rw [← faultOn_integer_fresh] at hquiet
  cases w with
  | nil => rfl
  | cons s w =>
    by_cases hs : s.isDigit
    · obtain ⟨c, rfl, hc⟩ := isDigit_iff.mp hs
      rw [List.cons_append, faultOn_of_advance (advance_integer_fresh hc)] at hquiet
      rw [accept_of_advance (advance_integer_fresh hc)]
      by_cases hzero : c = '0'
      · subst hzero
        cases w with
        | nil => rfl
        | cons s w => exact accept_of_deny (deny_zero _ s) true w
      · have hhead : (Symbol.char c == .char '0') = false := beq_false_of_ne (by simp [hzero])
        rw [beq_false_of_ne hzero] at hquiet ⊢
        rw [accept_integer (digit_le hc) hquiet]
        simp [spells, accepting, hs, hzero, hhead, Symbol.decimal, decimalFrom_char, Nat.add_comm]
    · rw [accept_of_deny (deny_integer hs _ _)]
      simp [spells, hs]

theorem accept_text_fresh (hquiet : text.fault (w ++ rest) = none) :
    (Automaton.text .fresh).accept false w =
      if text.spells w then some (text.accepting w) else none := by
  rw [← faultOn_text_fresh] at hquiet
  cases w with
  | nil => rfl
  | cons s w =>
    by_cases hs : s = .char '"'
    · subst hs
      rw [List.cons_append, faultOn_of_advance advance_text_fresh] at hquiet
      rw [accept_of_advance advance_text_fresh, accept_text hquiet]
      simp [spells, accepting]
    · rw [accept_of_deny (deny_text_fresh hs)]
      simp [spells, hs]

theorem accept_comment_fresh (hquiet : comment.fault (w ++ rest) = none) :
    (Automaton.comment .fresh).accept false w =
      if comment.spells w then some (comment.accepting w) else none := by
  rw [← faultOn_comment_fresh] at hquiet
  cases w with
  | nil => rfl
  | cons s w =>
    by_cases hs : s = .char '#'
    · subst hs
      rw [List.cons_append, faultOn_of_advance advance_comment_fresh] at hquiet
      rw [accept_of_advance advance_comment_fresh, accept_comment hquiet]
      simp [spells, accepting]
    · rw [accept_of_deny (deny_comment_fresh hs)]
      simp [spells, hs]

theorem accept_identifier_fresh (w : List Symbol) : (Automaton.identifier 0).accept false w =
    if identifier.spells w then some (identifier.accepting w) else none := by
  cases w with
  | nil => rfl
  | cons s w =>
    by_cases h : ∃ c, s = .char c ∧ isIdentifierStart c
    · obtain ⟨c, rfl, hc⟩ := h
      rw [accept_of_advance (advance_identifier_fresh hc), accept_identifier]
      simp [spells, accepting, hc, Nat.add_comm]
    · rw [accept_of_deny (deny_identifier_fresh fun c hs hc => h ⟨c, hs, hc⟩)]
      cases s with
      | char c => simp_all [spells]
      | _ => rfl

/-- Where its category has no fault, a fresh automaton accepts the lexemes of it. -/
theorem accept_automaton {c : Category} (hc : c ∈ all) (hquiet : c.fault (w ++ rest) = none) :
    c.automaton.accept false w = if c.spells w then some (c.accepting w) else none := by
  cases c with
  | fixed spelling =>
    have hspelling : spelling ∈ spellings := by simpa [all] using hc
    have hletters : ∀ spelling ∈ spellings, spelling.letters ≠ [] := by decide
    exact accept_fixed_fresh (hletters spelling hspelling) w
  | integer => exact accept_integer_fresh hquiet
  | text => exact accept_text_fresh hquiet
  | comment => exact accept_comment_fresh hquiet
  | identifier => exact accept_identifier_fresh w

end Lexemes

theorem kind_accepting (c : Category) (w : List Symbol) : (c.accepting w).kind = c.kind := by
  cases c <;> rfl

theorem valueOf_accepting (c : Category) (items : List Scanned) :
    Lexer.valueOf (c.accepting (items.map (·.symbol))) items = c.value items := by
  cases c with
  | integer =>
    have hwrap : ∀ n, Int32.ofNat (UInt64.ofNat n).toNat = Int32.ofNat n := by
      intro n
      rw [← Int32.toBitVec_inj]
      apply BitVec.eq_of_toNat_eq
      simp
    exact congrArg Payload.integer (hwrap _)
  | _ => rfl

end Token.Category

namespace Lexer

theorem findSome?_accept {cs : List Category} {w : List Symbol}
    (h : ∀ c ∈ cs, c.automaton.accept false w = if c.spells w then some (c.accepting w) else none) :
    (cs.map (·.automaton)).findSome? (·.accept false w) =
      (cs.find? (·.spells w)).map (·.accepting w) := by
  induction cs with
  | nil => rfl
  | cons c cs ih =>
    rw [List.map_cons, List.findSome?_cons, List.find?_cons, h c List.mem_cons_self]
    cases c.spells w with
    | true => rfl
    | false => exact ih fun c hc => h c (List.mem_cons_of_mem _ hc)

/-- The race is won by the longest lexeme. -/
theorem winner_initialSet {w : List Symbol} (hquiet : ∀ c ∈ Category.all, c.fault w = none)
    (n : Nat) : winner Automaton.initialSet w n =
      (longest w n).map fun (c, n) => (c.accepting (w.take n), n) := by
  induction n with
  | zero => rfl
  | succ n ih =>
    have hround := findSome?_accept (w := w.take (n + 1)) fun c hc =>
      Category.accept_automaton hc (by rw [List.take_append_drop]; exact hquiet c hc)
    rw [winner, longest, ih, Category.initialSet_eq, hround]
    cases Category.all.find? _ <;> rfl

/-- How the race of all fresh automata ends. -/
theorem race_initialSet (items : List Scanned) :
    (race Automaton.initialSet none 0 items).1 =
      match Category.all.findSome? (·.fault (items.map (·.symbol))) with
      | some f => .error f
      | none => .ok ((longest (items.map (·.symbol)) items.length).map fun (c, n) =>
          (c.accepting ((items.map (·.symbol)).take n), n)) := by
  cases hfault : Category.all.findSome? (·.fault (items.map (·.symbol))) with
  | some f =>
    obtain ⟨c, hc, hf⟩ := List.exists_of_findSome?_eq_some hfault
    have hc := Category.mem_initialSet.mpr ⟨c, hc, rfl⟩
    refine race_of_fault hc (by rw [c.faultOn_automaton, hf]) (fun b hb g hg => ?_) none 0
    obtain ⟨d, hd, rfl⟩ := Category.mem_initialSet.mp hb
    rw [d.faultOn_automaton] at hg
    exact Category.fault_unique hf hg
  | none =>
    have hquiet := List.findSome?_eq_none_iff.mp hfault
    rw [race_of_no_fault fun a ha => ?_, winner_initialSet hquiet]
    · cases longest (items.map (·.symbol)) items.length <;> rfl
    · obtain ⟨c, hc, rfl⟩ := Category.mem_initialSet.mp ha
      rw [c.faultOn_automaton, hquiet c hc]

/-- **Maximal munch**: where there is something to read, the lexer gives what the lexical
grammar says: the fault if there is one, else the longest lexeme in front, of the first
category that has it, else the character that begins none; and a token leaves all that
comes behind it. -/
theorem next_eq_munch (l : Lexer) {first : Scanned} {rest : List Scanned}
    (h : l.skipBlanks.rest = first :: rest) :
    l.next.1 = munch first (first :: rest) ∧
      ∀ t, l.next.1 = .ok t → l.next.2 = { l with rest := (first :: rest).drop t.length } := by
  have hnext : l.next = l.skipBlanks.readToken first := by simp only [next, h]
  have hrace := race_initialSet (first :: rest)
  rw [hnext, readToken, h, munch, List.length_map]
  generalize race Automaton.initialSet none 0 (first :: rest) = verdict at hrace ⊢
  obtain ⟨result, used⟩ := verdict
  dsimp only at hrace
  subst hrace
  cases Category.all.findSome? (·.fault ((first :: rest).map (·.symbol))) with
  | some f => exact ⟨rfl, nofun⟩
  | none =>
    generalize longest ((first :: rest).map (·.symbol)) (first :: rest).length = found
    rcases found with _ | ⟨c, n⟩
    · exact ⟨rfl, nofun⟩
    · dsimp only [Option.map_some]
      rw [c.kind_accepting, ← List.map_take, c.valueOf_accepting]
      refine ⟨rfl, fun t ht => ?_⟩
      obtain rfl := Except.ok.inj ht
      rfl

/-- The longest of three operators is read, and not the word that an identifier begins
with. -/
theorem next_eq_munch_overlaps :
    (ofSource " ??=1").next.1 = .ok ⟨.nullAssign, .none, ⟨1, 2⟩, 3⟩ ∧
      (ofSource "ifs").next.1 = .ok ⟨.identifier, .text "ifs", ⟨1, 1⟩, 3⟩ := by
  constructor
  · have hitems : (ofSource " ??=1").skipBlanks.rest = [⟨.char '?', '?', ⟨1, 2⟩⟩,
        ⟨.char '?', '?', ⟨1, 3⟩⟩, ⟨.char '=', '=', ⟨1, 4⟩⟩, ⟨.char '1', '1', ⟨1, 5⟩⟩] := by
      decide +kernel
    exact (next_eq_munch _ hitems).1.trans (by rfl)
  · have hitems : (ofSource "ifs").skipBlanks.rest = [⟨.char 'i', 'i', ⟨1, 1⟩⟩,
        ⟨.char 'f', 'f', ⟨1, 2⟩⟩, ⟨.char 's', 's', ⟨1, 3⟩⟩] := by decide +kernel
    exact (next_eq_munch _ hitems).1.trans (by rfl)

end Lexer

end Lumen
