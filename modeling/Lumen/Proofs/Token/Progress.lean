import Lumen.Proofs.Token.Buffer
import Lumen.Proofs.Token.Concatenation

/-! Progress of the lexer.

A token uses up the blanks in front of it and its own items, however far the automata read ahead;
a failure uses up an item at least. So there are no more attempts than items that give anything
but the end of text, and from then on every attempt gives that (`Lexer.progress`). -/
namespace Lumen

namespace Lexer
variable {l : Lexer} {first : Scanned} {rest : List Scanned}

/-- The next attempt uses up the blanks in front and `count` items behind them. -/
def UsesUp (l : Lexer) (count : Nat) : Prop :=
  ∃ word, word.length = count ∧ l.rest = l.rest.takeWhile (·.isBlank) ++ word ++ l.next.2.rest

theorem usesUp_of_drop {count : Nat} (h : l.next.2.rest = l.skipBlanks.rest.drop count) :
    l.UsesUp (min count l.skipBlanks.rest.length) := by
  refine ⟨l.skipBlanks.rest.take count, List.length_take, ?_⟩
  rw [h, List.append_assoc, List.take_append_drop]
  exact List.takeWhile_append_dropWhile.symm

theorem next_of_blank (h : l.skipBlanks.rest = []) :
    l.next = (.ok (.endAt l.finish), l.skipBlanks) := by
  simp only [next, h]
  rfl

/-- A token uses up as many items as it is long. -/
theorem usesUp_of_ok {t : Token} (h : l.next.1 = .ok t) (hkind : t.kind ≠ .endOfText) :
    l.UsesUp t.length := by
  cases hrest : l.skipBlanks.rest with
  | nil =>
    rw [next_of_blank hrest] at h
    obtain rfl := Except.ok.inj h
    exact absurd rfl hkind
  | cons first rest =>
    obtain ⟨c, count, -, -, -, -, hle, hnext⟩ := next_of_ok hrest h
    rw [hnext] at h
    obtain rfl := Except.ok.inj h
    rw [← hrest] at hnext hle
    have huses := usesUp_of_drop (congrArg (·.2.rest) hnext)
    rwa [Nat.min_eq_left hle] at huses

/-- A failure uses up something. -/
theorem usesUp_of_error {e : Error} (h : l.next.1 = .error e) : ∃ count > 0, l.UsesUp count := by
  cases hrest : l.skipBlanks.rest with
  | nil =>
    rw [next_of_blank hrest] at h
    cases h
  | cons first rest =>
    obtain ⟨count, hnext⟩ := next_rest hrest
    have hdrop : l.next.2.rest = l.skipBlanks.rest.drop (count + 1) := by
      rw [hnext, hrest]
      rfl
    refine ⟨_, ?_, usesUp_of_drop hdrop⟩
    rw [hrest]
    exact Nat.lt_min.mpr ⟨count.succ_pos, Nat.succ_pos _⟩

theorem length_drain_le (limit : Nat) (l : Lexer) : (l.drain limit).length ≤ limit := by
  induction limit generalizing l with
  | zero => exact Nat.le_refl 0
  | succ limit ih =>
    rw [drain]
    split
    · exact Nat.zero_le _
    · exact Nat.succ_le_succ (ih _)

/-- What a lexer will give. -/
def stream (l : Lexer) : Token.Stream := ⟨l.drain l.rest.length, l.finish⟩

/-- An attempt gives the end of text and leaves it there, or it gives what comes first. -/
theorem stream_cases (l : Lexer) :
    (l.stream.pending = [] ∧ l.next.1 = .ok (.endAt l.finish) ∧ l.next.2.stream = l.stream) ∨
      (l.stream.pending = l.next.1 :: l.next.2.stream.pending ∧ l.next.2.finish = l.finish) := by
  cases hrest : l.skipBlanks.rest with
  | nil =>
    have hskip : l.skipBlanks.skipBlanks.rest = [] := by
      rw [skipBlanks, hrest]
      rfl
    refine .inl ⟨drain_of_nil hrest _, ?_, ?_⟩
    · rw [next_of_blank hrest]
    · rw [next_of_blank hrest, stream, stream, drain_of_nil hrest, drain_of_nil hskip]
      rfl
  | cons first rest =>
    obtain ⟨n, hnext⟩ := next_rest hrest
    have hlt := length_next_lt hrest
    obtain ⟨k, hk⟩ := Nat.exists_eq_succ_of_ne_zero (Nat.ne_zero_of_lt hlt)
    refine .inr ⟨?_, by rw [hnext]⟩
    rw [stream, hk, drain_of_cons hrest, drain_of_length_le (n := k) (by omega) (Nat.le_refl _)]
    rfl

/-- Attempts give all that comes before the end of text, and then the end of text over and
over. -/
theorem pull_eq_stream (count : Nat) (l : Lexer) :
    l.pull count =
      (l.stream.pending ++ List.replicate count (Except.ok (Token.endAt l.finish))).take count := by
  induction count generalizing l with
  | zero => rfl
  | succ count ih =>
    have hpull : l.pull (count + 1) = l.next.1 :: l.next.2.pull count := rfl
    rw [hpull, ih]
    obtain ⟨hnil, hresult, hstream⟩ | ⟨hcons, hfinish⟩ := l.stream_cases
    · have hfinish : l.next.2.finish = l.finish := congrArg (·.finish) hstream
      rw [hresult, hstream, hnil, hfinish]
      rfl
    · rw [hcons, hfinish, take_padded_cons]

/-- **The lexer always gets on.** Whatever it gave before, a token uses up the blanks in front of
it and as many items as it is long, and a failure uses up an item at least. So no more attempts
than there are items give anything but the end of text, which is what all later ones give, just
past the last character. A lexer that draws its items through a buffer does the same, and never
asks for one outside it. -/
theorem progress (source : String) :
    (∀ count t, ((ofSource source).after count).next.1 = .ok t → t.kind ≠ .endOfText →
      ((ofSource source).after count).UsesUp t.length) ∧
    (∀ count e, ((ofSource source).after count).next.1 = .error e →
      ∃ used > 0, ((ofSource source).after count).UsesUp used) ∧
    (∃ results : List (Except Error Token), results.length ≤ (scan source).length ∧
      (∀ t, .ok t ∈ results → t.kind ≠ .endOfText) ∧
      ∀ count, (ofSource source).pull count = (results ++ List.replicate count
        (Except.ok (Token.endAt (placeAfter .start (scan source))))).take count) ∧
    ∀ count, ∃ b, Buffer.pull count (.ofSource source) =
        some ((ofSource source).pull count, b) ∧
      b.cursor ≤ b.held.length ∧ b.unread = ((ofSource source).after count).rest := by
  refine ⟨fun _ _ => usesUp_of_ok, fun _ _ => usesUp_of_error, ?_, fun count => ?_⟩
  · refine ⟨(ofSource source).drain (scan source).length, ?_, ?_, ?_⟩
    · exact length_drain_le _ _
    · exact fun _ => kind_of_mem_drain
    · exact fun count => pull_eq_stream count _
  · obtain ⟨_, b, hpull, rfl, hholds⟩ := Buffer.yields_pull (Buffer.holds_ofSource source) count
    exact ⟨b, hpull, hholds.bound, hholds.unread⟩

/-- A single question mark begins an operator and is none, so that the automata read the letter
behind it before they give up, and both are lost. -/
theorem progress_lostLetter :
    (ofSource "a ?b").pull 4 = [.ok ⟨.identifier, .text "a", ⟨1, 1⟩, 1⟩,
      .error (.lex ⟨1, 3⟩ (.unexpected '?')), .ok (.endAt ⟨1, 5⟩), .ok (.endAt ⟨1, 5⟩)] ∧
    (ofSource "a ?b").UsesUp 1 ∧ ∃ used > 0, ((ofSource "a ?b").after 1).UsesUp used := by
  obtain ⟨htoken, hfailure, -⟩ := progress "a ?b"
  refine ⟨by rfl, htoken 0 ⟨.identifier, .text "a", ⟨1, 1⟩, 1⟩ (by rfl) nofun, ?_⟩
  exact hfailure 1 (.lex ⟨1, 3⟩ (.unexpected '?')) (by rfl)

end Lexer

end Lumen
