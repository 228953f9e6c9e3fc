import Lumen.Proofs.Symbol.Scan
import Lumen.Proofs.Token.MaximalMunch
import Lumen.Token.Stream

/-! What a stream of tokens holds.

In front of its first failure a stream has its readable tokens, and behind them the failure
or the end of text. Pulling takes the readable tokens one by one (`pull_of_cons`) and then
what stops them (`pull_of_nil`). A text has all its tokens or its first failure
(`tokens_of_ok`, `tokens_of_error`), and the readable tokens of a source stand in front of
the failure that stops them (`position_lt_of_failure`). -/
namespace Lumen

namespace Token.Stream

/-- The tokens in front of the first failure, without the comments. -/
def readable : List (Except Error Token) → List Token
  | [] => []
  | .error _ :: _ => []
  | .ok t :: rest => if t.kind = .comment then readable rest else t :: readable rest

/-- The first failure. -/
def failure? : List (Except Error Token) → Option Error
  | [] => none
  | .error e :: _ => some e
  | .ok _ :: rest => failure? rest

/-- Tokens in front do not hide a failure. -/
theorem failure?_append (ts : List Token) (more : List (Except Error Token)) :
    failure? (ts.map .ok ++ more) = failure? more := by
  induction ts with
  | nil => rfl
  | cons t ts ih => exact ih

/-- What comes behind the readable tokens. -/
def stop (s : Stream) : Except Error Position :=
  match failure? s.pending with
  | some e => .error e
  | none => .ok s.finish

theorem pull_of_cons {s : Stream} {t : Token} {ts : List Token} (h : readable s.pending = t :: ts) :
    ∃ s', s.pull = (.ok t, s') ∧ readable s'.pending = ts ∧ s'.stop = s.stop := by
  obtain ⟨pending, finish⟩ := s
  induction pending with
  | nil => cases h
  | cons r rest ih =>
    cases r with
    | error e => cases h
    | ok u =>
      by_cases hu : u.kind = .comment
      · simp only [readable, if_pos hu] at h
        obtain ⟨s', hpull, hs'⟩ := ih h
        refine ⟨s', ?_, hs'⟩
        rw [← hpull]
        simp only [pull, pullFrom, if_pos hu]
      · simp only [readable, if_neg hu] at h
        obtain ⟨rfl, rfl⟩ := List.cons.inj h
        exact ⟨⟨rest, finish⟩, by simp only [pull, pullFrom, if_neg hu], rfl, rfl⟩

theorem pull_of_nil {s : Stream} (h : readable s.pending = []) :
    ∃ s', s.pull = (s.stop.map .endAt, s') ∧
      ∀ p, s.stop = .ok p → readable s'.pending = [] ∧ s'.stop = .ok p := by
  obtain ⟨pending, finish⟩ := s
  induction pending with
  | nil => exact ⟨⟨[], finish⟩, rfl, fun p hp => ⟨rfl, hp⟩⟩
  | cons r rest ih =>
    cases r with
    | error e => exact ⟨⟨rest, finish⟩, rfl, nofun⟩
    | ok u =>
      by_cases hu : u.kind = .comment
      · simp only [readable, if_pos hu] at h
        obtain ⟨s', hpull, hs'⟩ := ih h
        refine ⟨s', ?_, hs'⟩
        rw [show stop ⟨.ok u :: rest, finish⟩ = stop ⟨rest, finish⟩ from rfl, ← hpull]
        simp only [pull, pullFrom, if_pos hu]
      · simp only [readable, if_neg hu] at h
        cases h

/-! ### All tokens at once -/

/-- The tokens that are not comments. -/
def uncommented (ts : List Token) : List Token := ts.filter (·.kind ≠ .comment)

theorem mapM_pending (pending : List (Except Error Token)) :
    match failure? pending with
    | some e => pending.mapM id = .error e
    | none => ∃ ts, pending.mapM id = .ok ts ∧ readable pending = uncommented ts := by
  induction pending with
  | nil => exact ⟨[], rfl, rfl⟩
  | cons r rest ih =>
    rw [List.mapM_cons]
    cases r with
    | error e => rfl
    | ok t =>
      rw [failure?]
      cases hfailure : failure? rest with
      | some e =>
        rw [hfailure] at ih
        rw [show rest.mapM id = .error e from ih]
        rfl
      | none =>
        rw [hfailure] at ih
        obtain ⟨ts, hts, hreadable⟩ := ih
        refine ⟨t :: ts, by rw [hts]; rfl, ?_⟩
        rw [readable, hreadable, uncommented, uncommented, List.filter_cons]
        by_cases ht : t.kind = .comment <;> simp [ht]

/-- A stream without a failure has all its tokens and the end of text. -/
theorem tokens_of_ok {s : Stream} {p : Position} (h : s.stop = .ok p) :
    ∃ ts, s.tokens = .ok ts ∧ uncommented ts = readable s.pending ++ [.endAt p] := by
  have hpending := mapM_pending s.pending
  unfold stop at h
  cases hfailure : failure? s.pending with
  | some e =>
    rw [hfailure] at h
    cases h
  | none =>
    rw [hfailure] at h hpending
    obtain ⟨ts, hts, hreadable⟩ := hpending
    obtain rfl := Except.ok.inj h
    refine ⟨ts ++ [.endAt s.finish], by rw [tokens, hts]; rfl, ?_⟩
    rw [uncommented, List.filter_append, hreadable]
    rfl

theorem tokens_of_error {s : Stream} {e : Error} (h : s.stop = .error e) : s.tokens = .error e := by
  have hpending := mapM_pending s.pending
  unfold stop at h
  cases hfailure : failure? s.pending with
  | some e' =>
    rw [hfailure] at h hpending
    obtain rfl := Except.error.inj h
    rw [tokens, show s.pending.mapM id = .error e' from hpending]
    rfl
  | none =>
    rw [hfailure] at h
    cases h

/-- A stream that has all its tokens has no failure. -/
theorem stop_of_tokens {s : Stream} {ts : List Token} (h : s.tokens = .ok ts) :
    ∃ p, s.stop = .ok p ∧ uncommented ts = readable s.pending ++ [.endAt p] := by
  cases hstop : s.stop with
  | error e => cases h.symm.trans (tokens_of_error hstop)
  | ok p =>
    obtain ⟨us, hus, hreadable⟩ := tokens_of_ok hstop
    obtain rfl := Except.ok.inj (h.symm.trans hus)
    exact ⟨p, rfl, hreadable⟩

theorem mapM_map_ok (ts : List Token) :
    (ts.map .ok).mapM id = (.ok ts : Except Error (List Token)) := by
  induction ts with
  | nil => rfl
  | cons t ts ih =>
    rw [List.map_cons, List.mapM_cons, ih]
    rfl

/-- A text has all its tokens if none of its attempts fails. -/
theorem tokens_eq_ok_iff {s : Stream} {ts : List Token} :
    s.tokens = .ok ts ↔ ∃ us : List Token, s.pending = us.map .ok ∧ ts = us ++ [.endAt s.finish] := by
  constructor
  · intro h
    have hok : ∀ pending us, pending.mapM id = (.ok us : Except Error (List Token)) →
        pending = us.map .ok := by
      intro pending
      induction pending with
      | nil =>
        intro us hus
        obtain rfl := Except.ok.inj hus
        rfl
      | cons r rest ih =>
        intro us hus
        rw [List.mapM_cons] at hus
        cases r with
        | error e => cases hus
        | ok t =>
          cases hrest : rest.mapM id with
          | error e =>
            rw [hrest] at hus
            cases hus
          | ok vs =>
            rw [hrest] at hus
            obtain rfl := Except.ok.inj hus
            rw [ih vs hrest, List.map_cons]
    rw [tokens] at h
    cases hpending : s.pending.mapM id with
    | error e =>
      rw [hpending] at h
      cases h
    | ok us =>
      rw [hpending] at h
      exact ⟨us, hok _ _ hpending, (Except.ok.inj h).symm⟩
  · intro h
    obtain ⟨us, hpending, rfl⟩ := h
    rw [tokens, hpending, mapM_map_ok]
    rfl

end Token.Stream

/-! ### What the lexer gives -/

namespace Lexer
open Token (Automaton Category)

theorem longest_eq_some {w : List Symbol} {k n : Nat} {c : Category}
    (h : longest w k = some (c, n)) : c ∈ Category.all ∧ c.spells (w.take n) ∧ 0 < n ∧ n ≤ k := by
  induction k with
  | zero => cases h
  | succ k ih =>
    rw [longest] at h
    cases hfind : Category.all.find? (·.spells (w.take (k + 1))) with
    | none =>
      rw [hfind] at h
      obtain ⟨hc, hspells, hpos, hle⟩ := ih h
      exact ⟨hc, hspells, hpos, Nat.le_succ_of_le hle⟩
    | some d =>
      rw [hfind] at h
      obtain ⟨rfl, rfl⟩ := Prod.mk.inj (Option.some.inj h)
      have hspells := List.find?_some hfind
      exact ⟨List.mem_of_find?_eq_some hfind, hspells, Nat.succ_pos k, Nat.le_refl _⟩

section
variable {l : Lexer} {first : Scanned} {rest : List Scanned}

/-- Where there is no fault, the longest lexeme is the next token. -/
theorem next_of_longest {c : Category} {n : Nat} (h : l.skipBlanks.rest = first :: rest)
    (hquiet : Category.all.findSome? (·.fault ((first :: rest).map (·.symbol))) = none)
    (hlongest : longest ((first :: rest).map (·.symbol)) (first :: rest).length = some (c, n)) :
    l.next = (.ok ⟨c.kind, c.value ((first :: rest).take n), first.position, n⟩,
      { l with rest := (first :: rest).drop n }) := by
  have hrace := race_initialSet (first :: rest)
  rw [hquiet, hlongest] at hrace
  obtain ⟨used, hused⟩ : ∃ used, race Automaton.initialSet none 0 (first :: rest) =
      (.ok (some (c.accepting (((first :: rest).map (·.symbol)).take n), n)), used) :=
    ⟨_, Prod.ext hrace rfl⟩
  simp only [next, h, readToken, hused, c.kind_accepting]
  rw [← List.map_take, c.valueOf_accepting]
  rfl

theorem next_of_fault {f : Token.Fault} (h : l.skipBlanks.rest = first :: rest)
    (hfault : Category.all.findSome? (·.fault ((first :: rest).map (·.symbol))) = some f) :
    l.next.1 = .error (.lex first.position (.fault f)) := by
  have hrace := race_initialSet (first :: rest)
  rw [hfault] at hrace
  obtain ⟨used, hused⟩ : ∃ used, race Automaton.initialSet none 0 (first :: rest) =
      (.error f, used) := ⟨_, Prod.ext hrace rfl⟩
  simp only [next, h, readToken, hused]

theorem next_of_no_lexeme (h : l.skipBlanks.rest = first :: rest)
    (hquiet : Category.all.findSome? (·.fault ((first :: rest).map (·.symbol))) = none)
    (hlongest : longest ((first :: rest).map (·.symbol)) (first :: rest).length = none) :
    l.next.1 = .error (.lex first.position (.unexpected first.raw)) := by
  have hrace := race_initialSet (first :: rest)
  rw [hquiet, hlongest] at hrace
  obtain ⟨used, hused⟩ : ∃ used, race Automaton.initialSet none 0 (first :: rest) =
      (.ok none, used) := ⟨_, Prod.ext hrace rfl⟩
  simp only [next, h, readToken, hused]

/-- A token that is read is a lexeme in front, and nothing in front is a fault. -/
theorem next_of_ok {t : Token} (h : l.skipBlanks.rest = first :: rest) (hok : l.next.1 = .ok t) :
    ∃ (c : Category) (n : Nat), c ∈ Category.all ∧
      (∀ d ∈ Category.all, d.fault ((first :: rest).map (·.symbol)) = none) ∧
      c.spells (((first :: rest).map (·.symbol)).take n) ∧ 0 < n ∧ n ≤ (first :: rest).length ∧
      l.next = (.ok ⟨c.kind, c.value ((first :: rest).take n), first.position, n⟩,
        { l with rest := (first :: rest).drop n }) := by
  cases hquiet : Category.all.findSome? (·.fault ((first :: rest).map (·.symbol))) with
  | some f => cases (next_of_fault h hquiet).symm.trans hok
  | none =>
    cases hlongest : longest ((first :: rest).map (·.symbol)) (first :: rest).length with
    | none => cases (next_of_no_lexeme h hquiet hlongest).symm.trans hok
    | some found =>
      obtain ⟨hc, hspells, hpos, hle⟩ := longest_eq_some hlongest
      exact ⟨found.1, found.2, hc, List.findSome?_eq_none_iff.mp hquiet, hspells, hpos, hle,
        next_of_longest h hquiet hlongest⟩

/-- What an attempt to read a token gives: a failure at the first item left, or a token there
that takes up at least that item and does not end the text. -/
theorem next_cases (h : l.skipBlanks.rest = first :: rest) :
    (∃ cause, l.next.1 = .error (.lex first.position cause)) ∨
      ∃ t n, l.next = (.ok t, { l with rest := rest.drop n }) ∧ t.position = first.position ∧
        t.kind ≠ .endOfText := by
  cases hquiet : Category.all.findSome? (·.fault ((first :: rest).map (·.symbol))) with
  | some f => exact .inl ⟨_, next_of_fault h hquiet⟩
  | none =>
    cases hlongest : longest ((first :: rest).map (·.symbol)) (first :: rest).length with
    | none => exact .inl ⟨_, next_of_no_lexeme h hquiet hlongest⟩
    | some found =>
      obtain ⟨c, n⟩ := found
      obtain ⟨hc, _, hn, _⟩ := longest_eq_some hlongest
      obtain ⟨n, rfl⟩ := Nat.exists_eq_succ_of_ne_zero (Nat.ne_of_gt hn)
      have hkind : ∀ c ∈ Category.all, c.kind ≠ .endOfText := by decide
      exact .inr ⟨_, n, next_of_longest h hquiet hlongest, rfl, hkind c hc⟩

end

theorem drain_of_nil {l : Lexer} (h : l.skipBlanks.rest = []) (n : Nat) : l.drain n = [] := by
  cases n with
  | zero => rfl
  | succ n => rw [drain, h]

theorem drain_of_cons {l : Lexer} {first : Scanned} {rest : List Scanned}
    (h : l.skipBlanks.rest = first :: rest) (n : Nat) :
    l.drain (n + 1) = l.next.1 :: l.next.2.drain n := by
  rw [drain, h]

theorem skipBlanks_sublist (l : Lexer) : l.skipBlanks.rest.Sublist l.rest :=
  List.dropWhile_sublist _

/-- The tokens of a source never end the text. -/
theorem kind_of_mem_drain {n : Nat} {l : Lexer} {t : Token} (h : .ok t ∈ l.drain n) :
    t.kind ≠ .endOfText := by
  induction n generalizing l with
  | zero => cases h
  | succ n ih =>
    cases hrest : l.skipBlanks.rest with
    | nil =>
      rw [drain_of_nil hrest] at h
      cases h
    | cons first rest =>
      rw [drain_of_cons hrest] at h
      obtain h | h := List.mem_cons.mp h
      · obtain ⟨cause, hnext⟩ | ⟨u, k, hnext, _, hkind⟩ := next_cases hrest
        · rw [hnext] at h
          cases h
        · rw [hnext] at h
          cases h
          exact hkind
      · exact ih h

/-- The first failure is one of the lexer, at an item behind all tokens in front of it. -/
theorem failure_of_drain {n : Nat} {l : Lexer} {p : Position} {e : Error} (horder : InOrder p l.rest)
    (h : Token.Stream.failure? (l.drain n) = some e) :
    ∃ s ∈ l.rest, ∃ cause, e = .lex s.position cause ∧
      ∀ t ∈ Token.Stream.readable (l.drain n), t.position < s.position := by
  induction n generalizing l with
  | zero => cases h
  | succ n ih =>
    cases hrest : l.skipBlanks.rest with
    | nil =>
      rw [drain_of_nil hrest] at h
      cases h
    | cons first rest =>
      have hsub : (first :: rest).Sublist l.rest := hrest ▸ l.skipBlanks_sublist
      rw [drain_of_cons hrest] at h ⊢
      obtain ⟨cause, hnext⟩ | ⟨u, k, hnext, hplace, _⟩ := next_cases hrest
      · rw [hnext] at h ⊢
        obtain rfl := Option.some.inj h
        exact ⟨first, hsub.subset List.mem_cons_self, cause, rfl, nofun⟩
      · rw [hnext] at h ⊢
        have hdrop : (rest.drop k).Sublist (first :: rest) :=
          (List.drop_sublist k rest).trans (List.sublist_cons_self first rest)
        obtain ⟨s, hs, cause, he, hbefore⟩ := ih (horder.sublist (hdrop.trans hsub)) h
        have hfirst : first.position < s.position :=
          (List.pairwise_cons.mp (horder.sublist hsub).pairwise).1 s (List.mem_of_mem_drop hs)
        refine ⟨s, (hdrop.trans hsub).subset hs, cause, he, fun t ht => ?_⟩
        rw [Token.Stream.readable] at ht
        split at ht
        · exact hbefore t ht
        · obtain rfl | ht := List.mem_cons.mp ht
          · exact hplace ▸ hfirst
          · exact hbefore t ht

end Lexer

/-! ### The stream of a source -/

namespace Token.Stream

theorem mem_of_mem_readable {pending : List (Except Error Token)} {t : Token}
    (h : t ∈ readable pending) : .ok t ∈ pending := by
  induction pending with
  | nil => cases h
  | cons r rest ih =>
    cases r with
    | error e => cases h
    | ok u =>
      rw [readable] at h
      split at h
      · exact List.mem_cons_of_mem _ (ih h)
      · obtain rfl | h := List.mem_cons.mp h
        · exact List.mem_cons_self
        · exact List.mem_cons_of_mem _ (ih h)

theorem kind_of_mem_ofSource {source : String} {t : Token}
    (h : t ∈ readable (ofSource source).pending) : t.kind ≠ .endOfText :=
  Lexer.kind_of_mem_drain (mem_of_mem_readable h)

/-- The failure that stops a source stands behind all tokens in front of it. -/
theorem position_lt_of_failure {source : String} {e : Error}
    (h : (ofSource source).stop = .error e) :
    ∃ p cause, e = .lex p cause ∧ ∀ t ∈ readable (ofSource source).pending, t.position < p := by
  unfold stop at h
  cases hfailure : failure? (ofSource source).pending with
  | none =>
    rw [hfailure] at h
    cases h
  | some e' =>
    rw [hfailure] at h
    obtain rfl := Except.error.inj h
    obtain ⟨s, _, cause, he, hbefore⟩ :=
      Lexer.failure_of_drain (inOrder_scanFrom .start source.toList) hfailure
    exact ⟨s.position, cause, he, hbefore⟩

end Token.Stream

end Lumen
