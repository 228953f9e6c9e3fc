import Lumen.Proofs.Parser.Batch
import Lumen.Proofs.Parser.Reads

/-! Programs without conditions, loops and functions.

The grammar is ambiguous where a part is open to the right: an `else` can belong to more than
one condition, and behind a guard or the body of a function the next token may go on with it or
not. Without those (`Token.Plain`) it is not: whatever the grammar derives within the limit on
nesting, the parser reads, and it gives the tree of the derivation (`parse_of_derivation`). So
there is only one such tree, however deep a derivation goes. -/
namespace Lumen
open Parse Phrase
open Token (Kind)

/-- A token that belongs to no condition, loop or function. -/
def Token.Plain (t : Token) : Prop := t.kind ∉ [.ifWord, .elseWord, .loopWord, .arrow]

instance (t : Token) : Decidable t.Plain := inferInstanceAs (Decidable (¬_))

namespace Grammar
variable {sub : Layers} {parts : Parts} {ts : List Token} {t : Token}

theorem reads_factor (hsub : sub.Reads Token.Plain parts) : Within Token.Plain (Factor parts)
    (Parse.Reads (factor sub) (Opens Kind.startsFactor) (·.layer < 9)) := by
  intro ts e h hts
  cases h with
  | atom he => exact reads_atom hsub ts e he hts
  | lambda hf =>
    obtain @⟨ts, us, t, u, arrow, names, body, _, _, _, harrow, _⟩ := hf
    have hplain := hts arrow (by simp)
    rw [Token.Plain, harrow] at hplain
    exact absurd (by decide) hplain

theorem reads_operand (hsub : sub.Reads Token.Plain parts) : Within Token.Plain (Operand parts)
    (Parse.Reads (unary sub) (Opens Kind.startsOperand) (·.layer < 7)) :=
  reads_unary (reads_call (reads_factor hsub) hsub.expression) hsub.unary

theorem reads_sentence (hsub : sub.Reads Token.Plain parts) : Within Token.Plain (Sentence parts)
    (Parse.Reads (statement sub) Begins Kind.EndsStatement) := by
  have hword {t : Token} {us : List Token} (hts : ∀ w ∈ t :: us, w.Plain) :
      t.kind ≠ .ifWord ∧ t.kind ≠ .loopWord := by
    have hplain := hts t List.mem_cons_self
    constructor
    · rintro hk
      rw [Token.Plain, hk] at hplain
      exact hplain (by decide)
    · rintro hk
      rw [Token.Plain, hk] at hplain
      exact hplain (by decide)
  intro ts s h hts
  cases h with
  | condition ht _ _ => exact absurd ht (hword hts).1
  | loop ht _ _ => exact absurd ht (hword hts).2
  | breakOut ht =>
    refine reads_breakOut ht fun k hk => ?_
    obtain rfl | rfl := hk <;> rfl
  | breakWith ht hs =>
    exact reads_breakWith ht (hsub.statement _ _ hs (List.forall_mem_cons.mp hts).2)
  | bind ht hu hs =>
    exact reads_bind ht hu (hsub.statement _ _ hs fun w hw => hts w (by simp [hw]))
  | expression he =>
    have hread := (hsub.expression _ _ he hts).mono (fun _ h => h)
      fun k hk => Kind.EndsStatement.layer_lt hk
    exact reads_expression hread fun k hk =>
      Nat.lt_trans (Kind.EndsStatement.layer_lt hk) (by decide)

/-- What is derived with `n` levels of nesting is read with as many, or more. -/
theorem reads_layers {n m : Nat} (h : n ≤ m) : (layers m).Reads Token.Plain (Phrase.parts n) := by
  induction n generalizing m with
  | zero => exact ⟨nofun, nofun, nofun⟩
  | succ n ih =>
    obtain ⟨m, rfl⟩ : ∃ m', m = m' + 1 := ⟨m - 1, by omega⟩
    have hsub := ih (Nat.le_of_succ_le_succ h)
    exact ⟨reads_sentence hsub, reads_disjunction (reads_operand hsub), reads_operand hsub⟩

theorem runs_derivation (hsub : sub.Reads Token.Plain parts) {b : Block} (h : Program parts ts b)
    (hts : ∀ t ∈ ts, t.Plain) (p : Position) :
    ∃ v, Runs (program sub) ⟨ts, .ok p⟩ (.ok (b, v)) := by
  obtain @⟨ts, rest, first, last, statements, hs, hlast, hfirst⟩ := h
  rw [List.forall_mem_append] at hts
  have hlook : (ts ++ ([last] ++ (⟨[], .ok p⟩ : View))).look 0 = .ok first := by
    rw [View.append_append, hfirst]
    rfl
  exact ⟨_, runs_program hsub hs hts.1 hlook (View.look_cons_zero last [] _) hlast⟩

end Grammar

theorem Cursor.ofTokens_faces_all (ts : List Token) : ∃ p, (ofTokens ts).Faces ⟨ts, .ok p⟩ :=
  ⟨_, rfl, [], rfl, nofun⟩

/-- Readings of the same view give the same. -/
theorem Parse.Runs.unique {α : Type} {m : Parse α} {v v₁ v₂ : View} {a₁ a₂ : α}
    (h₁ : Runs m v (.ok (a₁, v₁))) (h₂ : Runs m v (.ok (a₂, v₂))) {c : Cursor} (hc : c.Faces v) :
    a₁ = a₂ :=
  Except.ok.inj ((h₁.outcome_eq hc).symm.trans (h₂.outcome_eq hc))

/-- **What the grammar derives is read.** If tokens without conditions, loops and functions
derive a program within the limit on nesting, the parser accepts them, as a finished list and
from any source that has them, with comments wherever they may stand, and gives that program. No
other program is derived from them, with any number of levels. -/
theorem parse_of_derivation {ts : List Token} {b : Block} (hplain : ∀ t ∈ ts, t.Plain)
    (h : Program (Phrase.parts Parser.maxNesting) (Token.Stream.uncommented ts) b) :
    parseTokens (Token.Stream.uncommented ts) = .ok b ∧
      (∀ source, tokenize source = .ok ts → parse source = .ok b) ∧
      ∀ n b', Program (Phrase.parts n) (Token.Stream.uncommented ts) b' → b' = b := by
  have hplain : ∀ t ∈ Token.Stream.uncommented ts, t.Plain := fun t ht =>
    hplain t (List.mem_filter.mp ht).1
  obtain ⟨p, hfaces⟩ := Cursor.ofTokens_faces_all (Token.Stream.uncommented ts)
  have hread : parseTokens (Token.Stream.uncommented ts) = .ok b := by
    obtain ⟨v, hrun⟩ := Grammar.runs_derivation (Grammar.reads_layers (Nat.le_refl _)) h hplain p
    exact hrun.outcome_eq hfaces
  refine ⟨hread, fun source htokens => (parse_of_tokens htokens).trans hread, fun n b' h' => ?_⟩
  -- Both are read with as many levels as the deeper one has.
  obtain ⟨v, hrun⟩ := Grammar.runs_derivation
    (Grammar.reads_layers (Nat.le_max_right n Parser.maxNesting)) h hplain p
  obtain ⟨v', hrun'⟩ := Grammar.runs_derivation
    (Grammar.reads_layers (Nat.le_max_left n Parser.maxNesting)) h' hplain p
  exact hrun'.unique hrun hfaces

/-- A value in a group that it does not need, with a comment in it. -/
theorem parse_of_derivation_group : ∃ ts b, tokenize "x = -(7 # seven\n);" = .ok ts ∧
    (∀ t ∈ ts, t.Plain) ∧
    Program (Phrase.parts Parser.maxNesting) (Token.Stream.uncommented ts) b ∧
    parse "x = -(7 # seven\n);" = .ok b := by
  have htokens : tokenize "x = -(7 # seven\n);" = .ok [⟨.identifier, .text "x", ⟨1, 1⟩, 1⟩,
      ⟨.assign, .none, ⟨1, 3⟩, 1⟩, ⟨.minus, .none, ⟨1, 5⟩, 1⟩, ⟨.parenOpen, .none, ⟨1, 6⟩, 1⟩,
      ⟨.integer, .integer 7, ⟨1, 7⟩, 1⟩, ⟨.comment, .text " seven", ⟨1, 9⟩, 7⟩,
      ⟨.parenClose, .none, ⟨2, 1⟩, 1⟩, ⟨.endOfStatement, .none, ⟨2, 2⟩, 1⟩,
      ⟨.endOfText, .none, ⟨2, 3⟩, 0⟩] := by rfl
  have hseven : (Phrase.parts 60).expression [⟨.integer, .integer 7, ⟨1, 7⟩, 1⟩]
      (.constant (.integer 7) ⟨1, 7⟩) :=
    .single (.single (.single (.single (.single (.single
      (.call (.factor (.atom (.constant (by decide))))))))))
  have hgroup : (Phrase.parts 61).unary [⟨.parenOpen, .none, ⟨1, 6⟩, 1⟩,
      ⟨.integer, .integer 7, ⟨1, 7⟩, 1⟩, ⟨.parenClose, .none, ⟨2, 1⟩, 1⟩]
      (.constant (.integer 7) ⟨1, 7⟩) :=
    .call (.factor (.atom (.group rfl hseven rfl)))
  have hvalue : (Phrase.parts 63).statement [⟨.minus, .none, ⟨1, 5⟩, 1⟩,
      ⟨.parenOpen, .none, ⟨1, 6⟩, 1⟩, ⟨.integer, .integer 7, ⟨1, 7⟩, 1⟩,
      ⟨.parenClose, .none, ⟨2, 1⟩, 1⟩]
      (.expression (.negate (.constant (.integer 7) ⟨1, 7⟩) ⟨1, 5⟩)) := .expression
    (.single (.single (.single (.single (.single (.single (.negate rfl hgroup)))))))
  have hsequence : Sequence (Phrase.parts Parser.maxNesting).statement true _ _ :=
    .more (t := ⟨.endOfStatement, .none, ⟨2, 2⟩, 1⟩)
      (Sentence.bind (t := ⟨.identifier, .text "x", ⟨1, 1⟩, 1⟩)
        (u := ⟨.assign, .none, ⟨1, 3⟩, 1⟩) rfl rfl hvalue) rfl .none
  have hprogram := @Program.program _ _ _ _ ⟨.endOfText, .none, ⟨2, 3⟩, 0⟩ _ hsequence rfl rfl
  obtain ⟨ts, htokens, hplain, hderived⟩ : ∃ ts, tokenize "x = -(7 # seven\n);" = .ok ts ∧
      (∀ t ∈ ts, t.Plain) ∧
      Program (Phrase.parts Parser.maxNesting) (Token.Stream.uncommented ts) _ :=
    ⟨_, htokens, by decide, hprogram⟩
  exact ⟨ts, _, htokens, hplain, hderived, (parse_of_derivation hplain hderived).2.1 _ htokens⟩

end Lumen
