import Lumen.Proofs.Parser.Soundness

/-! Reading while the tokens come in, and reading once they are all there.

A source is read token by token as the grammar asks for them. The same grammar can be run
over a finished list, with every token looked at in advance (`parseTokens`). If the source
has all its tokens, the two agree, trees and complaints alike, and the lexer has no part in
a failure. If not, reading the source fails too: with the failure of the lexer, or with a
complaint about a token in front of it (`parse_eq_parseTokens`). -/
namespace Lumen
open Parse Phrase

/-- A cursor that has looked at all tokens of a finished list. -/
def Cursor.ofTokens (ts : List Token) : Cursor :=
  ⟨ts, [], (ts.getLast?.map (·.position)).getD .start⟩

/-- The program that a finished list of tokens spells, comments removed and the end of text
included. -/
def parseTokens (ts : List Token) : Except Error Block :=
  outcome (Parser.program (.ofTokens ts))

theorem Cursor.ofTokens_faces (ts : List Token) (p : Position) :
    (ofTokens (ts ++ [.endAt p])).Faces ⟨ts, .ok p⟩ := by
  refine ⟨?_, [.endAt p], ?_, ?_⟩
  · simp [ofTokens, Token.Stream.stop, Token.Stream.failure?, Token.endAt]
  · simp [ofTokens, Token.Stream.readable]
  · intro t ht
    rw [List.mem_singleton.mp ht]
    rfl

/-- A finished list of tokens is read like the source that they are from. -/
theorem parse_of_tokens {source : String} {ts : List Token} (h : tokenize source = .ok ts) :
    parse source = parseTokens (Token.Stream.uncommented ts) := by
  obtain ⟨p, hstop, huncommented⟩ := Token.Stream.stop_of_tokens h
  obtain ⟨r, hrun, _⟩ := Grammar.ensures_program (Grammar.takes_layers Parser.maxNesting)
    (Token.Stream.ofSource source).view
  have hfaces : (Cursor.ofTokens (Token.Stream.uncommented ts)).Faces
      (Token.Stream.ofSource source).view := by
    rw [huncommented, Token.Stream.view, hstop]
    exact Cursor.ofTokens_faces _ p
  rw [parse_eq_outcome, hrun.outcome_eq (Cursor.ofStream_faces _)]
  exact (hrun.outcome_eq hfaces).symm

/-- A complaint about a token in front of a failure of the lexer. -/
theorem View.Blames.of_error {v : View} {e e' : Error} (h : v.Blames e) (hstop : v.stop = .error e') :
    e = e' ∨ ∃ t ∈ v.tokens, ∃ cause, e = .parse t.position cause := by
  obtain h | ⟨n, t, cause, hlook, he⟩ := h
  · exact .inl (Except.error.inj (h.symm.trans hstop))
  · refine .inr ⟨t, ?_, cause, he⟩
    unfold View.look at hlook
    split at hlook
    · next hn =>
      obtain rfl := Except.ok.inj hlook
      exact List.mem_of_getElem? hn
    · rw [hstop] at hlook
      cases hlook

/-- **Reading while the tokens come in is reading them once they are all there.** If a source
has all its tokens, reading it never fails in the lexer and gives what its finished list
gives. If the lexer fails on it, reading it fails as well, with that failure or with a
complaint about a place in front of it. -/
theorem parse_eq_parseTokens (source : String) :
    match tokenize source with
    | .ok ts => parse source = parseTokens (Token.Stream.uncommented ts) ∧
        ∀ p cause, parse source ≠ .error (.lex p cause)
    | .error e => ∃ p cause, e = .lex p cause ∧
        (parse source = .error e ∨ ∃ q cause, parse source = .error (.parse q cause) ∧ q < p) := by
  have hcases := parse_cases source
  cases hstop : (Token.Stream.ofSource source).stop with
  | ok p =>
    obtain ⟨ts, htokens, _⟩ := Token.Stream.tokens_of_ok hstop
    rw [show tokenize source = .ok ts from htokens]
    refine ⟨parse_of_tokens htokens, fun q cause hlex => ?_⟩
    rw [hlex] at hcases
    obtain h | ⟨_, _, _, _, h⟩ := hcases
    · cases hstop.symm.trans h
    · cases h
  | error e =>
    rw [show tokenize source = .error e from Token.Stream.tokens_of_error hstop]
    obtain ⟨p, cause, rfl, hbefore⟩ := Token.Stream.position_lt_of_failure hstop
    refine ⟨p, cause, rfl, ?_⟩
    cases hparse : parse source with
    | ok b =>
      rw [hparse] at hcases
      obtain ⟨ts, htokens, _⟩ := hcases
      cases htokens.symm.trans (Token.Stream.tokens_of_error hstop)
    | error e =>
      rw [hparse] at hcases
      obtain rfl | ⟨t, ht, cause, rfl⟩ := hcases.of_error hstop
      · exact .inl rfl
      · exact .inr ⟨t.position, cause, rfl, hbefore t ht⟩

end Lumen
