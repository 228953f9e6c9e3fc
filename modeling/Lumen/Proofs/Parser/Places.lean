import Lumen.Proofs.Parser.Alike

/-! Where trees and complaints stand.

A token and a failure of the lexer stand at the first item that the lexer looks at, which is not
blank; the end of text stands behind the last item. A node of a tree has the place of a token, and
so has a complaint of the grammar. So whatever comes of a source text points into it: at an item
that is not blank, or at its end (`parse_places`), never at an unknown place
(`isUnknown_of_pointsInto`), and in a short text at one whose line and column fit words of 32 bits
(`lt_of_pointsInto`). -/
namespace Lumen

/-- A place in a source: of an item that is not blank, the end of text included. -/
def PointsInto (source : String) (p : Position) : Prop :=
  ∃ s ∈ scanThrough source 1, s.isBlank = false ∧ s.position = p

section Source
variable {source : String}

theorem pointsInto_of_mem {s : Scanned} (hs : s ∈ scan source) (hblank : s.isBlank = false) :
    PointsInto source s.position := ⟨s, List.mem_append_left _ hs, hblank, rfl⟩

theorem pointsInto_end : PointsInto source (placeAfter .start (scan source)) :=
  ⟨.endAt _, List.mem_append_right _ List.mem_cons_self, rfl, rfl⟩

theorem isUnknown_of_pointsInto {p : Position} (h : PointsInto source p) : p.isUnknown = false := by
  obtain ⟨s, hs, _, rfl⟩ := h
  obtain hs | hs := List.mem_append.mp hs
  · have hstart : Position.start ≤ s.position :=
      (inOrder_scanFrom .start source.toList).bound s hs
    obtain (hlt | ⟨heq, _⟩) | heq := hstart
    · exact beq_false_of_ne (Nat.ne_of_gt (Nat.lt_of_succ_lt hlt))
    · exact beq_false_of_ne (Nat.ne_of_gt (Nat.lt_of_lt_of_eq Nat.one_pos heq))
    · rw [← heq]
      rfl
  · rw [List.eq_of_mem_replicate hs, scan_eq]
    show Position.isUnknown (placeAfter (.behind []) _) = false
    rw [placeAfter_itemsBehind]
    rfl

/-- The places of a short text fit words of 32 bits. -/
theorem lt_of_pointsInto (hshort : source.length + 1 < UInt32.size) {p : Position}
    (h : PointsInto source p) : p.line < UInt32.size ∧ p.column < UInt32.size := by
  obtain ⟨s, hs, _, rfl⟩ := h
  exact scanned_position_lt hshort hs

end Source

/-! ### Tokens -/

namespace Lexer
variable {l : Lexer}

theorem next_sublist (l : Lexer) : l.next.2.rest.Sublist l.rest := by
  have hdrop : ∀ n, (l.skipBlanks.rest.drop n).Sublist l.rest := fun n =>
    (List.drop_sublist n _).trans l.skipBlanks_sublist
  simp only [next]
  split
  · exact l.skipBlanks_sublist
  · unfold readToken
    split
    · exact hdrop _
    · exact hdrop _
    · exact hdrop _

/-- Whatever the lexer gives before the end of text stands at an item that is not blank. -/
theorem place_of_mem_drain {n : Nat} {r : Except Error Token} (h : r ∈ l.drain n) :
    ∃ s ∈ l.rest, s.isBlank = false ∧
      ((∃ cause, r = .error (.lex s.position cause)) ∨ ∃ t, r = .ok t ∧ t.position = s.position) := by
  induction n generalizing l with
  | zero => cases h
  | succ n ih =>
    cases hrest : l.skipBlanks.rest with
    | nil =>
      rw [drain_of_nil hrest] at h
      cases h
    | cons first rest =>
      rw [drain_of_cons hrest] at h
      obtain rfl | h := List.mem_cons.mp h
      · refine ⟨first, l.skipBlanks_sublist.subset (hrest ▸ List.mem_cons_self), ?_, ?_⟩
        · have hfirst := List.head?_dropWhile_not (·.isBlank) l.rest
          rw [show l.rest.dropWhile (·.isBlank) = first :: rest from hrest] at hfirst
          simpa using hfirst
        · obtain ⟨cause, hnext⟩ | ⟨t, k, hnext, hplace, _⟩ := next_cases hrest
          · exact .inl ⟨cause, hnext⟩
          · exact .inr ⟨t, congrArg Prod.fst hnext, hplace⟩
      · obtain ⟨s, hs, hblank, hplace⟩ := ih h
        exact ⟨s, l.next_sublist.subset hs, hblank, hplace⟩

end Lexer

namespace Token.Stream
variable {source : String}

theorem pointsInto_of_mem_pending {t : Token} (h : .ok t ∈ (ofSource source).pending) :
    PointsInto source t.position := by
  obtain ⟨s, hs, hblank, ⟨_, hr⟩ | ⟨u, hr, hplace⟩⟩ := Lexer.place_of_mem_drain h
  · cases hr
  · rw [Except.ok.inj hr, hplace]
    exact pointsInto_of_mem hs hblank

theorem mem_of_failure? {pending : List (Except Error Token)} {e : Error}
    (h : failure? pending = some e) : .error e ∈ pending := by
  induction pending with
  | nil => cases h
  | cons r rest ih =>
    cases r with
    | error e' =>
      obtain rfl := Option.some.inj h
      exact List.mem_cons_self
    | ok t => exact List.mem_cons_of_mem _ (ih h)

/-- What stops a source stands in it: a failure at an item, or the end of the text. -/
theorem pointsInto_stop (source : String) :
    match (ofSource source).stop with
    | .ok p => PointsInto source p
    | .error e => ∃ p cause, e = .lex p cause ∧ PointsInto source p := by
  unfold stop
  cases hfailure : failure? (ofSource source).pending with
  | none => exact pointsInto_end
  | some e =>
    obtain ⟨s, hs, hblank, ⟨cause, hr⟩ | ⟨t, hr, _⟩⟩ :=
      Lexer.place_of_mem_drain (mem_of_failure? hfailure)
    · exact ⟨s.position, cause, Except.error.inj hr, pointsInto_of_mem hs hblank⟩
    · cases hr

end Token.Stream

theorem pointsInto_of_token {source : String} {ts : List Token} (h : tokenize source = .ok ts)
    {t : Token} (ht : t ∈ ts) : PointsInto source t.position := by
  obtain ⟨us, hpending, rfl⟩ := Token.Stream.tokens_eq_ok_iff.mp h
  obtain hus | hend := List.mem_append.mp ht
  · exact Token.Stream.pointsInto_of_mem_pending (hpending ▸ List.mem_map_of_mem hus)
  · obtain rfl := List.mem_singleton.mp hend
    exact pointsInto_end

/-! ### Trees and complaints -/

/-- **What comes of a source points into it.** Every node of its program has the place of a token,
and if there is no program, the failure has a place in the source. -/
theorem parse_places (source : String) :
    match parse source with
    | .ok program => ∃ ts, tokenize source = .ok ts ∧
        program.Alike (fun p _ => ∃ t ∈ ts, t.position = p) program
    | .error e => ∃ p, PointsInto source p ∧
        ((∃ cause, e = .lex p cause) ∨ ∃ cause, e = .parse p cause) := by
  have hcases := parse_cases source
  cases hparse : parse source with
  | ok program =>
    rw [hparse] at hcases
    obtain ⟨ts, htokens, _⟩ := hcases
    refine ⟨ts, htokens, ?_⟩
    obtain ⟨p, _, hlast⟩ := Token.Stream.stop_of_tokens htokens
    have hself : List.Forall₂ (Token.Alike fun p _ => ∃ t ∈ ts, t.position = p)
        (Token.Stream.uncommented ts) (Token.Stream.uncommented ts) :=
      List.forall₂_same.mpr fun t ht => ⟨rfl, t, List.mem_of_mem_filter ht, rfl⟩
    have hresult := parseTokens_alike hself fun hnil =>
      absurd (hlast.symm.trans hnil) (by simp)
    rw [← parse_of_tokens htokens, hparse] at hresult
    cases hresult with
    | ok hprogram => exact hprogram
  | error e =>
    rw [hparse] at hcases
    have hend := Token.Stream.pointsInto_stop source
    obtain hstop | ⟨n, t, cause, hlook, rfl⟩ := hcases
    · rw [show (Token.Stream.ofSource source).stop = .error e from hstop] at hend
      obtain ⟨p, cause, he, hp⟩ := hend
      exact ⟨p, hp, .inl ⟨cause, he⟩⟩
    · refine ⟨t.position, ?_, .inr ⟨cause, rfl⟩⟩
      unfold View.look at hlook
      split at hlook
      · next hn =>
        obtain rfl := Except.ok.inj hlook
        exact Token.Stream.pointsInto_of_mem_pending
          (Token.Stream.mem_of_mem_readable (List.mem_of_getElem? hn))
      · cases hstop : (Token.Stream.ofSource source).stop with
        | error e' =>
          rw [show (Token.Stream.ofSource source).view.stop = .error e' from hstop] at hlook
          cases hlook
        | ok p =>
          rw [hstop] at hend
          rw [show (Token.Stream.ofSource source).view.stop = .ok p from hstop] at hlook
          obtain rfl := Except.ok.inj hlook
          exact hend

end Lumen
