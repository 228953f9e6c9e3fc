import Lumen.Proofs.Token.Words

/-! Words written line by line.

A comment goes on to the end of its line, so it is read whole only where a line end or the end of
text follows it (`Category.standsBefore_comment`). All other words end at any blank. So words of
every kind, comments too, come back from a text that gives each of them a line of its own
(`tokenize_lines`). -/
namespace Lumen
open Token

namespace Token.Category

/-- A comment ends with its line. -/
theorem standsBefore_comment {content : List Symbol} (hlength : content.length ≤ maxContent)
    (hline : ∀ s ∈ content, s.staysInLine) :
    comment.StandsBefore (· = .newline) (.char '#' :: content) := by
  have hfixed : ∀ f ∈ spellings, f.letters.map Symbol.char ≠ .char '#' :: content := by
    have hletters : ∀ f ∈ spellings, '#' ∉ f.letters := by decide
    intro f hf heq
    obtain ⟨c, hc, hsign⟩ := List.mem_map.mp
      (heq ▸ List.mem_cons_self : Symbol.char '#' ∈ f.letters.map .char)
    exact hletters f hf (Symbol.char.inj hsign ▸ hc)
  refine ⟨?_, ?_, ?_, by simp⟩
  · have hinteger : integer.spells (.char '#' :: content) = false := rfl
    have htext : text.spells (.char '#' :: content) = false := spells_text (by decide) content
    have hspells : comment.spells (.char '#' :: content) := List.all_eq_true.mpr hline
    simp [find?_all hfixed, hinteger, htext, hspells]
  · intro rest hrest d
    have hstop : rest.takeWhile (·.staysInLine) = [] := by
      cases rest with
      | nil => rfl
      | cons s rest => simp [hrest s rfl, Symbol.staysInLine]
    cases d with
    | comment =>
      rw [List.cons_append, fault, List.takeWhile_append_of_pos hline, hstop, List.append_nil,
        if_neg (Nat.not_lt.mpr hlength)]
    | _ => rfl
  · intro s rest hs d
    subst hs
    cases d with
    | comment => simp [spells, Symbol.staysInLine]
    | fixed f => exact spells_fixed_blank (.inr rfl) (by simp)
    | integer => rfl
    | text => rfl
    | identifier =>
      have hsign : isIdentifierStart '#' = false := by decide
      rw [List.cons_append, spells, hsign, Bool.false_and]

end Token.Category

namespace Token.Word

theorem spelled_comment {s : String} (hlength : s.length ≤ maxContent)
    (h : ∀ c ∈ s.toList, isLineEnd c = false) :
    Spelled (· = .newline) ⟨.comment, .text s⟩ .comment := by
  have hline : ∀ c ∈ '#' :: s.toList, isLineEnd c = false := by
    rw [List.forall_mem_cons]
    exact ⟨by decide, h⟩
  refine ⟨hline, ?_, rfl, fun p => ?_⟩
  · have hstays : ∀ t ∈ s.toList.map Symbol.ofChar, t.staysInLine := by
      intro t ht
      obtain ⟨c, _, rfl⟩ := List.mem_map.mp ht
      unfold Symbol.ofChar
      split <;> rfl
    have hsign : Symbol.ofChar '#' = .char '#' := by decide
    rw [letters, List.map_cons, hsign]
    exact Category.standsBefore_comment (by rwa [List.length_map, String.length_toList]) hstays
  · have hraw := map_raw_scanFrom hline p
    rw [letters, Category.value, Lexer.rawText, List.map_drop, hraw]
    simp

/-- Every well-formed word is read where a line end follows it. -/
theorem WellFormed.spelled {w : Word} (h : w.WellFormed) : ∃ c, w.Spelled (· = .newline) c := by
  by_cases hcomment : w.kind = .comment
  · unfold WellFormed at h
    split at h
    · cases hcomment
    · cases hcomment
    · cases hcomment
    · exact ⟨_, spelled_comment h.1 h.2⟩
    · obtain ⟨f, hf, rfl⟩ := h
      have hkinds : ∀ f ∈ spellings, f.kind ≠ .comment := by decide
      exact absurd hcomment (hkinds f hf)
  · obtain ⟨c, hc⟩ := IsCode.spelled ⟨h, hcomment⟩
    exact ⟨c, hc.mono fun s hs => .inr hs⟩

theorem separates_newline : Separates '\n' .newline :=
  ⟨.inr rfl, fun p _ => ⟨p.nextLine, rfl⟩⟩

/-- Words with a line end between any two. -/
def lines (ws : List Word) : String := joined '\n' ws

/-- **Words written line by line are read back.** If every word is well formed, the tokens of the
text are those words, in order, and one end of text. -/
theorem tokenize_lines (ws : List Word) (h : ∀ w ∈ ws, w.WellFormed) :
    (tokenize (lines ws)).map (·.map word) = .ok (ws ++ [⟨.endOfText, .none⟩]) := by
  obtain ⟨ts, hpending, hwords⟩ :=
    pending_of_joined separates_newline fun w hw => (h w hw).spelled
  have htokens : tokenize (lines ws) = .ok (ts ++ [.endAt (Stream.ofSource (lines ws)).finish]) :=
    Stream.tokens_eq_ok_iff.mpr ⟨ts, hpending, rfl⟩
  simp [htokens, Except.map, hwords, word, endAt]

/-- A comment with a quote in it, the largest integer, and two signs that would be one without
the line end between them. -/
theorem tokenize_lines_commented :
    (tokenize "# a \"note\n2147483647\n??\n=\nif").map (·.map word) =
      .ok [⟨.comment, .text " a \"note"⟩, ⟨.integer, .integer 2147483647⟩, ⟨.nullCoalescing, .none⟩,
        ⟨.assign, .none⟩, ⟨.ifWord, .none⟩, ⟨.endOfText, .none⟩] := by
  let ws : List Word := [⟨.comment, .text " a \"note"⟩, ⟨.integer, .integer 2147483647⟩,
    ⟨.nullCoalescing, .none⟩, ⟨.assign, .none⟩, ⟨.ifWord, .none⟩]
  have hws : ∀ w ∈ ws, w.WellFormed := by
    simp only [ws, List.forall_mem_cons, List.not_mem_nil, false_implies, implies_true, and_true]
    have hcomment : Word.WellFormed ⟨.comment, .text " a \"note"⟩ :=
      ⟨by decide +kernel, by simp [isLineEnd]⟩
    have hinteger : (0 : Int32) ≤ 2147483647 := by decide
    exact ⟨hcomment, hinteger, ⟨⟨['?', '?'], .nullCoalescing⟩, by decide, rfl⟩,
      ⟨⟨['='], .assign⟩, by decide, rfl⟩, ⟨⟨['i', 'f'], .ifWord⟩, by decide, rfl⟩⟩
  have htext : lines ws = "# a \"note\n2147483647\n??\n=\nif" := by decide +kernel
  rw [← htext]
  exact tokenize_lines ws hws

end Token.Word

end Lumen
