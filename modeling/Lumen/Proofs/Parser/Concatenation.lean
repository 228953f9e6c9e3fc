import Lumen.Proofs.Parser.Alike
import Lumen.Proofs.Parser.Locality
import Lumen.Proofs.Token.Concatenation

/-! Programs one behind the other.

A text with a line end and a second text behind it has the tokens of both, the latter on lower
lines. The first text, if it is a program, is read as on its own, and so is the second, as its
tokens say the same on any line. So the statements of both follow one another, and what is wrong
with the second text is wrong with the whole, as many lines further down (`parse_newline`). -/
namespace Lumen
open Parse
open Token (Kind)

variable {k : Nat}

theorem Error.Alike.eq_down {e e' : Error} (h : e.Alike (fun p q => q = p.down k) e') :
    e' = e.down k := by
  cases h with
  | unreadable words => rfl
  | lex cause hp => rw [hp]; rfl
  | parse cause hp => rw [hp]; rfl
  | runtime cause hp => rw [hp]; rfl

/-- On lower lines an error has the same cause. -/
theorem Error.alike_down (k : Nat) (e : Error) : e.Alike (fun p q => q = p.down k) (e.down k) := by
  cases e with
  | unreadable words => exact .unreadable words
  | lex p cause => exact .lex cause rfl
  | parse p cause => exact .parse cause rfl
  | runtime p cause => exact .runtime cause rfl

/-- A stream says the same on lower lines. -/
theorem Token.Stream.alike_down (k : Nat) (s : Token.Stream) :
    s.Alike (fun p q => q = p.down k) ⟨s.pending.map (Lexer.attemptDown k), s.finish.down k⟩ := by
  refine ⟨?_, rfl⟩
  rw [List.forall₂_map_right_iff, List.forall₂_same]
  intro r _
  cases r with
  | ok t => exact .ok ⟨rfl, rfl⟩
  | error e => exact .error (e.alike_down k)

/-- Read on lower lines, a text comes to the same: trees that are alike, or the same complaint. -/
theorem parse_alike_down (k : Nat) (source : String) :
    (parse source).Alike (Error.Alike fun p q => q = p.down k) (Block.Alike fun p q => q = p.down k)
      (outcome (Grammar.program (Grammar.layers Parser.maxNesting)
        (.ofStream ⟨(Token.Stream.ofSource source).pending.map (Lexer.attemptDown k),
          (Token.Stream.ofSource source).finish.down k⟩))) := by
  have hcursors : (Cursor.ofStream (.ofSource source)).Alike (fun p q => q = p.down k)
      (.ofStream ⟨(Token.Stream.ofSource source).pending.map (Lexer.attemptDown k),
        (Token.Stream.ofSource source).finish.down k⟩) :=
    ⟨.nil, (Token.Stream.ofSource source).alike_down k⟩
  have hresult := Grammar.alike_program (Grammar.alike_layers Parser.maxNesting) _ _ hcursors
  rw [parse_eq_outcome]
  unfold outcome
  generalize Grammar.program _ (Cursor.ofStream (.ofSource source)) = r at hresult ⊢
  generalize Grammar.program _ (Cursor.ofStream _) = r' at hresult ⊢
  cases hresult with
  | ok hb _ => exact .ok hb
  | error he _ => exact .error he

/-- **Programs concatenate.** Let a text that does not end in a carriage return be a program whose
end of text is on line `k`, and put a line end and a second text behind it. If the second text is a
program, so is the whole, and its statements are those of the first and those of the second, `k`
lines further down. If it is not, the whole fails as the second text does, `k` lines further
down. -/
theorem parse_newline {s₁ s₂ : String} {b₁ : Block} (hreturn : s₁.toList.getLast? ≠ some '\r')
    (h : parse s₁ = .ok b₁) :
    ∃ (ts : List Token) (p : Position), tokenize s₁ = .ok (ts ++ [.endAt p]) ∧
      (∀ b₂, parse s₂ = .ok b₂ → ∃ (b : Block) (more : List Statement),
        parse (s₁ ++ "\n" ++ s₂) = .ok b ∧ b.statements = b₁.statements ++ more ∧
          List.Forall₂ (Statement.Alike fun q q' => q' = q.down p.line) b₂.statements more) ∧
      ∀ e, parse s₂ = .error e → parse (s₁ ++ "\n" ++ s₂) = .error (e.down p.line) := by
  have hcases := parse_cases s₁
  rw [h] at hcases
  obtain ⟨_, htokens, _⟩ := hcases
  obtain ⟨ts, hpending, rfl⟩ := Token.Stream.tokens_eq_ok_iff.mp htokens
  have hstream := @Token.Stream.ofSource_newline s₁ s₂ ts hreturn hpending
  have hdown := parse_alike_down (Token.Stream.ofSource s₁).finish.line s₂
  have hkinds : ∀ t ∈ ts, t.kind ≠ .endOfText := fun t ht =>
    Lexer.kind_of_mem_drain (hpending ▸ List.mem_map_of_mem ht)
  have hfirst : outcome (Grammar.program (Grammar.layers Parser.maxNesting)
      (.ofStream ⟨ts.map .ok, (Token.Stream.ofSource s₁).finish⟩)) = .ok b₁ := by
    rw [← hpending, ← h, parse_eq_outcome]
  have hwhole := Grammar.program_append hkinds hfirst
    ((Token.Stream.ofSource s₂).pending.map (Lexer.attemptDown (Token.Stream.ofSource s₁).finish.line))
    ((Token.Stream.ofSource s₂).finish.down (Token.Stream.ofSource s₁).finish.line)
  rw [← hstream, ← parse_eq_outcome] at hwhole
  refine ⟨ts, _, htokens, fun b₂ hb₂ => ?_, fun e he => ?_⟩
  · rw [hb₂] at hdown
    generalize outcome (Grammar.program _ (.ofStream ⟨_, _⟩)) = r at hdown hwhole
    obtain ⟨hstatements, _⟩ | _ := hdown
    cases hparse : parse (s₁ ++ "\n" ++ s₂) with
    | ok b =>
      rw [hparse] at hwhole
      exact ⟨b, _, rfl, Except.ok.inj hwhole, hstatements⟩
    | error e =>
      rw [hparse] at hwhole
      cases hwhole
  · rw [he] at hdown
    generalize outcome (Grammar.program _ (.ofStream ⟨_, _⟩)) = r at hdown hwhole
    obtain _ | hsame := hdown
    cases hparse : parse (s₁ ++ "\n" ++ s₂) with
    | ok b =>
      rw [hparse] at hwhole
      cases hwhole
    | error e =>
      rw [hparse] at hwhole
      rw [Except.error.inj hwhole, hsame.eq_down]

/-- A second line that is a program, and one that is not. -/
theorem parse_newline_secondLine :
    (∃ b₁ b₂ b more, parse "x = 1; # one" = .ok b₁ ∧ parse "x\n+ 2;" = .ok b₂ ∧
      parse "x = 1; # one\nx\n+ 2;" = .ok b ∧ b.statements = b₁.statements ++ more ∧
      List.Forall₂ (Statement.Alike fun q q' => q' = q.down 1) b₂.statements more) ∧
    parse "2 3;" = .error (.parse ⟨1, 3⟩ .missingSeparator) ∧
    parse "x = 1; # one\n2 3;" = .error (.parse ⟨2, 3⟩ .missingSeparator) := by
  have hreturn : "x = 1; # one".toList.getLast? ≠ some '\r' := by decide +kernel
  have hline : ∀ ts p, tokenize "x = 1; # one" = .ok (ts ++ [.endAt p]) → p.line = 1 := by
    intro ts p htokens
    have hlast : (tokenize "x = 1; # one").map (·.getLast?) = .ok (some (.endAt ⟨1, 13⟩)) := by rfl
    rw [htokens] at hlast
    simp only [Except.map, List.getLast?_concat, Except.ok.injEq, Option.some.injEq, Token.endAt,
      Token.mk.injEq] at hlast
    rw [hlast.2.2.1]
  have hread : ∀ source, (parse source).isOk → ∃ b, parse source = .ok b := by
    intro source hok
    cases hparse : parse source with
    | ok b => exact ⟨b, rfl⟩
    | error e =>
      rw [hparse] at hok
      cases hok
  obtain ⟨b₁, hb₁⟩ := hread "x = 1; # one" (by decide +kernel)
  obtain ⟨b₂, hb₂⟩ := hread "x\n+ 2;" (by decide +kernel)
  have hfails : parse "2 3;" = .error (.parse ⟨1, 3⟩ .missingSeparator) := by rfl
  constructor
  · obtain ⟨ts, p, htokens, hgood, _⟩ := @parse_newline _ "x\n+ 2;" _ hreturn hb₁
    obtain ⟨b, more, hparse, hstatements, halike⟩ := hgood b₂ hb₂
    rw [hline ts p htokens] at halike
    exact ⟨b₁, b₂, b, more, hb₁, hb₂, hparse, hstatements, halike⟩
  · obtain ⟨ts, p, htokens, _, hbad⟩ := @parse_newline _ "2 3;" _ hreturn hb₁
    have hparse := hbad _ hfails
    rw [hline ts p htokens] at hparse
    exact ⟨hfails, hparse⟩

end Lumen
