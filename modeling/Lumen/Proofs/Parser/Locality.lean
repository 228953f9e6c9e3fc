import Lumen.Proofs.Parser.OpenEnds
import Lumen.Proofs.Parser.Soundness

/-! Statements are read on their own.

Where a text ends with a separator, a statement in front of it is read without a look at what
follows: every production that succeeds is done before the last separator, and it looks further
only behind a token that cannot be the last one. So a statement that is read at the end of a text
is read the same in front of anything else (`Stays`), one rule for each construction and one lemma
for each production.

A program whose text goes on is therefore read as before, and then the rest is read as a program
of its own (`program_append`). -/
namespace Lumen
open Parse
open Token (Kind)

/-- What is in view behind the last token of a text that ends at `p`. -/
def View.ended (p : Position) : View := ⟨[], .ok p⟩

/-- Tokens of which the last one, if there is one, is a separator. -/
def Sealed (ts : List Token) : Prop := ∀ t ∈ ts.getLast?, t.kind = .endOfStatement

namespace Sealed
variable {ts us : List Token} {t : Token}

theorem suffix (h : Sealed ts) (hus : us <:+ ts) : Sealed us := by
  obtain ⟨before, rfl⟩ := hus
  intro t ht
  apply h t
  rw [List.getLast?_append, Option.mem_def.mp ht]
  rfl

/-- A token that is no separator is not the last one. -/
theorem next_lt (h : Sealed ts) {n : Nat} (hn : ts[n]? = some t) (hk : t.kind ≠ .endOfStatement) :
    n + 1 < ts.length := by
  have hlt : n < ts.length := (List.getElem?_eq_some_iff.mp hn).1
  by_cases hlast : n + 1 = ts.length
  · have ht : ts.getLast? = some t := by
      rw [List.getLast?_eq_getElem?, ← hlast, Nat.add_sub_cancel, hn]
    exact absurd (h t ht) hk
  · omega

theorem tail_ne_nil (h : Sealed (t :: us)) (hk : t.kind ≠ .endOfStatement) : us ≠ [] := by
  have hlt := h.next_lt (n := 0) rfl hk
  rintro rfl
  exact absurd hlt (by simp)

end Sealed

/-- A token in view in front of the end is one of the tokens left, unless it ends the text. -/
theorem View.getElem?_of_look {us : List Token} {p : Position} {n : Nat} {t : Token}
    (h : (us ++ View.ended p).look n = .ok t) (hk : t.kind ≠ .endOfText) : us[n]? = some t := by
  have htokens : (us ++ View.ended p).tokens = us := List.append_nil us
  rw [View.look, htokens] at h
  cases hn : us[n]? with
  | some u =>
    rw [hn] at h
    rw [Except.ok.inj h]
  | none =>
    rw [hn] at h
    obtain rfl := Except.ok.inj h
    exact absurd rfl hk

theorem View.cons_of_look {us : List Token} {p : Position} {t : Token}
    (h : (us ++ View.ended p).look 0 = .ok t) (hk : t.kind ≠ .endOfText) :
    ∃ rest, us = t :: rest := by
  have hfirst := View.getElem?_of_look h hk
  cases us with
  | nil => cases hfirst
  | cons u rest =>
    obtain rfl := Option.some.inj hfirst
    exact ⟨rest, rfl⟩

namespace Parse
variable {α β : Type} {p : Position} {m : Parse α} {us : List Token} {Q : α → List Token → Prop}

/-- Where the text ends behind the tokens `us`, the reading `m` fails or takes some of them, and
`Q` holds of what it leaves. If it leaves any, it does the same whatever follows. -/
def Stays (p : Position) (m : Parse α) (us : List Token) (Q : α → List Token → Prop) : Prop :=
  Sealed us → (∃ e, Runs m (us ++ View.ended p) (.error e)) ∨
    ∃ a us', us' <:+ us ∧ Q a us' ∧
      ∀ v : View, us' ≠ [] ∨ v = .ended p → Runs m (us ++ v) (.ok (a, us' ++ v))

/-- Whatever tokens there are, `m` fails or leaves some of them, the last separator at least. -/
def Leaves (p : Position) (m : Parse α) : Prop := ∀ us, Stays p m us fun _ us' => us' ≠ []

namespace Stays

theorem fails {e : Error} (h : Runs m (us ++ View.ended p) (.error e)) : Stays p m us Q :=
  fun _ => .inl ⟨e, h⟩

theorem pure {a : α} (h : Q a us) : Stays p (Pure.pure a) us Q :=
  fun _ => .inr ⟨a, us, List.suffix_rfl, h, fun v _ => .pure a (us ++ v)⟩

theorem throw (e : Error) : Stays p (MonadExcept.throw e) us Q := fails (.throw e _)

/-- What a reading leaves is the end of what was there. -/
theorem take {Q' : α → List Token → Prop} (h : Stays p m us Q')
    (hQ : ∀ a us', us' <:+ us → Q' a us' → Q a us') : Stays p m us Q := by
  intro hsealed
  obtain hfails | ⟨a, us', hsuffix, hleft, hruns⟩ := h hsealed
  · exact .inl hfails
  · exact .inr ⟨a, us', hsuffix, hQ a us' hsuffix hleft, hruns⟩

theorem bind {f : α → Parse β} {Q : β → List Token → Prop}
    (h : Stays p m us fun a us' => Stays p (f a) us' Q) : Stays p (m >>= f) us Q := by
  intro hsealed
  obtain ⟨e, hm⟩ | ⟨a, us', hsuffix, hf, hm⟩ := h hsealed
  · exact .inl ⟨e, hm.bind_error f⟩
  obtain ⟨e, hf⟩ | ⟨b, us'', hsuffix', hQ, hf⟩ := hf (hsealed.suffix hsuffix)
  · exact .inl ⟨e, (hm _ (.inr rfl)).bind hf⟩
  refine .inr ⟨b, us'', hsuffix'.trans hsuffix, hQ, fun v hv => (hm v ?_).bind (hf v hv)⟩
  refine hv.imp_left fun hleft hnil => hleft ?_
  rw [hnil] at hsuffix'
  exact List.suffix_nil.mp hsuffix'

/-! ### Tokens -/

theorem peek {n : Nat} {Q : Token → List Token → Prop} (hn : Sealed us → us ≠ [] → n < us.length)
    (h : ∀ t, (us ++ View.ended p).look n = .ok t → Q t us) : Stays p (peek n) us Q := by
  intro hsealed
  obtain ⟨t, ht⟩ : ∃ t, (us ++ View.ended p).look n = .ok t := by
    unfold View.look
    cases (us ++ View.ended p).tokens[n]? with
    | some t => exact ⟨t, rfl⟩
    | none => exact ⟨.endAt p, rfl⟩
  refine .inr ⟨t, us, List.suffix_rfl, h t ht, fun v hv => ?_⟩
  have hlook : (us ++ v).look n = .ok t := by
    obtain hne | rfl := hv
    · have hlt := hn hsealed hne
      rw [← ht, View.look, View.look, View.tokens_append, View.tokens_append,
        List.getElem?_append_left hlt, List.getElem?_append_left hlt, List.getElem?_eq_getElem hlt]
    · exact ht
  have hpeek := Runs.peek (us ++ v) n
  rw [hlook] at hpeek
  exact hpeek

theorem peekKind {n : Nat} {Q : Kind → List Token → Prop}
    (hn : Sealed us → us ≠ [] → n < us.length)
    (h : ∀ t, (us ++ View.ended p).look n = .ok t → Q t.kind us) : Stays p (peekKind n) us Q :=
  bind (peek hn fun t ht => pure (h t ht))

/-- The next token is there if there are any. -/
theorem peekNext {Q : Kind → List Token → Prop}
    (h : ∀ t, (us ++ View.ended p).look 0 = .ok t → Q t.kind us) : Stays p (Parse.peekKind 0) us Q :=
  peekKind (fun _ hne => List.length_pos_iff.mpr hne) h

theorem advance {t : Token} {Q : Token → List Token → Prop}
    (h : (t.kind ≠ .endOfStatement → us ≠ []) → Q t us) : Stays p advance (t :: us) Q :=
  fun hsealed => .inr ⟨t, us, List.suffix_cons t us, h hsealed.tail_ne_nil,
    fun v _ => .advance t us v⟩

theorem complain (cause : ParseCause) :
    Stays p (Parse.peek 0 >>= fun t => MonadExcept.throw (.parse t.position cause)) us Q :=
  bind (peek (fun _ hne => List.length_pos_iff.mpr hne) fun _ _ => throw _)

theorem unexpected (what : Expectation) : Stays p (unexpected what) us Q :=
  bind (peek (fun _ hne => List.length_pos_iff.mpr hne) fun _ _ => throw _)

theorem expect {kind : Kind} {what : Expectation} {Q : Token → List Token → Prop}
    (hend : kind ≠ .endOfText) (hsep : kind ≠ .endOfStatement)
    (h : ∀ t us', us = t :: us' → us' ≠ [] → Q t us') : Stays p (expect kind what) us Q := by
  refine bind (peekNext fun t ht => ?_)
  split
  · next hk =>
    obtain ⟨us', rfl⟩ := View.cons_of_look ht (hk ▸ hend)
    exact advance fun hne => h t us' rfl (hne (hk ▸ hsep))
  · exact unexpected what

theorem skip {kind : Kind} {Q : Unit → List Token → Prop} (hend : kind ≠ .endOfText)
    (hsep : kind ≠ .endOfStatement) (hus : us ≠ [])
    (h : ∀ us', us' <:+ us → us' ≠ [] → Q () us') : Stays p (skip kind) us Q := by
  refine bind (peekNext fun t ht => ?_)
  split
  · next hk =>
    obtain ⟨us', rfl⟩ := View.cons_of_look ht (hk ▸ hend)
    exact bind (advance fun hne => pure (h us' (List.suffix_cons t us') (hne (hk ▸ hsep))))
  · exact pure (h us List.suffix_rfl hus)

/-! ### Repetition -/

/-- A repetition keeps what every step of it keeps. The steps that may follow are counted down by
`left`, and the tokens left allow for them. -/
theorem iterate {a : α} {giveUp : α → β} {step : α → Parse (Progress α β)}
    {Q : β → List Token → Prop} (Inv : α → List Token → Prop) (left : α → List Token → Nat)
    (hstep : ∀ a us, Inv a us → Stays p (step a) us fun
      | .more a', us' => Inv a' us' ∧ left a' us' < left a us
      | .done b, us' => Q b us')
    (hInv : Inv a us) (hleft : left a us ≤ us.length) : Stays p (iterate giveUp step a) us Q := by
  have hloops : ∀ k a us, Inv a us → left a us = k → Sealed us →
      (∃ e, Loops giveUp step k a (us ++ View.ended p) (.error e)) ∨
        ∃ b us', us' <:+ us ∧ Q b us' ∧ ∀ v : View, us' ≠ [] ∨ v = .ended p →
          Loops giveUp step k a (us ++ v) (.ok (b, us' ++ v)) := by
    intro k
    induction k using Nat.strongRecOn with
    | ind k ih =>
      rintro a us hInv rfl hsealed
      obtain ⟨e, hruns⟩ | ⟨next, us', hsuffix, hnext, hruns⟩ := hstep a us hInv hsealed
      · exact .inl ⟨e, .fail hruns⟩
      cases next with
      | done b => exact .inr ⟨b, us', hsuffix, hnext, fun v hv => .done (hruns v hv)⟩
      | more a' =>
        obtain ⟨hInv', hlt⟩ := hnext
        obtain ⟨e, hmore⟩ | ⟨b, us'', hsuffix', hQ, hmore⟩ :=
          ih _ hlt a' us' hInv' rfl (hsealed.suffix hsuffix)
        · exact .inl ⟨e, (hmore.more (hruns _ (.inr rfl))).mono hlt⟩
        refine .inr ⟨b, us'', hsuffix'.trans hsuffix, hQ, fun v hv => ?_⟩
        refine ((hmore v hv).more (hruns v ?_)).mono hlt
        refine hv.imp_left fun hne hnil => hne ?_
        rw [hnil] at hsuffix'
        exact List.suffix_nil.mp hsuffix'
  intro hsealed
  have hroom : ∀ v : View, left a us ≤ (us ++ v).tokens.length := by
    intro v
    rw [View.tokens_append, List.length_append]
    omega
  obtain ⟨e, h⟩ | ⟨b, us', hsuffix, hQ, h⟩ := hloops _ a us hInv rfl hsealed
  · exact .inl ⟨e, h.runs (hroom _)⟩
  · exact .inr ⟨b, us', hsuffix, hQ, fun v hv => (h v hv).runs (hroom v)⟩

end Stays

end Parse

/-! ### Productions -/

namespace Grammar
variable {p : Position} {us : List Token}

/-- The nested parts are done before the last separator. -/
structure Layers.Leaves (p : Position) (sub : Layers) : Prop where
  statement : Parse.Leaves p sub.statement
  expression : Parse.Leaves p sub.expression
  unary : Parse.Leaves p sub.unary

section Productions
variable {sub : Layers} (h : sub.Leaves p)
include h

theorem leaves_sequence : Leaves p (sequence sub .braceClose false) := by
  intro us
  rw [sequence_eq]
  refine .iterate (fun _ _ => True) (fun _ us => us.length) ?_ trivial (Nat.le_refl _)
  intro read us _
  refine .bind (.peekNext fun t ht => ?_)
  split
  · next hclose =>
    obtain ⟨us', rfl⟩ := View.cons_of_look ht (by rw [hclose]; decide)
    exact .pure (List.cons_ne_nil t us')
  · refine .bind ((h.statement us).take fun s us' hsuffix hne => ?_)
    refine .bind (.peekNext fun t ht => ?_)
    split
    · next hsep =>
      obtain ⟨us'', rfl⟩ := View.cons_of_look ht (by rw [hsep]; decide)
      exact .bind (.advance fun _ => .pure ⟨trivial, hsuffix.length_le⟩)
    · split
      · exact .pure hne
      · exact .complain _

theorem leaves_bindStatement (t u : Token) (binding : Binding) :
    Stays p (bindStatement sub binding) (t :: u :: us) fun _ us' => us' ≠ [] := by
  refine .bind (.advance fun _ => .bind (.advance fun _ => ?_))
  exact .bind ((h.statement us).take fun _ _ _ hne => .pure hne)

theorem leaves_branch : Leaves p (branch sub) := fun us =>
  .bind ((h.statement us).take fun _ us' _ _ =>
    .bind ((h.statement us').take fun _ _ _ hne => .pure hne))

theorem leaves_furtherBranches (first : Branch) (hus : us ≠ []) :
    Stays p (furtherBranches sub first) us fun _ us' => us' ≠ [] := by
  rw [furtherBranches_eq]
  refine .iterate (fun _ us => us ≠ []) (fun _ us => us.length) ?_ hus (Nat.le_refl _)
  intro read us hus
  refine .bind (.peekNext fun t ht => ?_)
  split
  · next helse =>
    obtain ⟨us', rfl⟩ := View.cons_of_look ht (by rw [helse]; decide)
    refine .bind (.advance fun _ => .bind (.peekNext fun u hu => ?_))
    split
    · next hif =>
      obtain ⟨us'', rfl⟩ := View.cons_of_look hu (by rw [hif]; decide)
      refine .bind (.advance fun _ => .bind ((leaves_branch h us'').take fun b ws hsuffix hne => ?_))
      have hle := hsuffix.length_le
      exact .pure ⟨hne, by simp only [List.length_cons]; omega⟩
    · exact .bind ((h.statement us').take fun _ _ _ hne => .pure hne)
  · exact .pure hus

theorem leaves_condition : Leaves p (condition sub) := fun us =>
  .bind (.expect (by decide) (by decide) fun _ us' _ _ =>
    .bind ((leaves_branch h us').take fun first _ _ hne =>
      .bind ((leaves_furtherBranches h first hne).take fun _ _ _ hne => .pure hne)))

theorem leaves_loop : Leaves p (loop sub) := fun us =>
  .bind (.expect (by decide) (by decide) fun _ us' _ _ =>
    .bind ((h.statement us').take fun _ us'' _ _ =>
      .bind ((h.statement us'').take fun _ _ _ hne => .pure hne)))

theorem leaves_breakOut : Leaves p (breakOut sub) := by
  intro us
  refine .bind (.expect (by decide) (by decide) fun _ us' _ hne => .bind (.peekNext fun _ _ => ?_))
  split
  · exact .pure hne
  · exact .bind ((h.statement us').take fun _ _ _ hne => .pure hne)

theorem leaves_statement : Leaves p (statement sub) := by
  intro us
  have hexpression : Stays p (do return Statement.expression (← sub.expression)) us
      fun _ us' => us' ≠ [] :=
    .bind ((h.expression us).take fun _ _ _ hne => .pure hne)
  refine .bind (.peekNext fun t ht => ?_)
  split
  · exact leaves_condition h us
  · exact leaves_loop h us
  · exact leaves_breakOut h us
  · next hname =>
    obtain ⟨us', rfl⟩ := View.cons_of_look ht (by rw [hname]; decide)
    -- A name is not the last token, so the one behind it is there.
    refine .bind (.peekKind (fun hsealed _ => hsealed.next_lt rfl (by rw [hname]; decide)) fun u hu => ?_)
    split
    · next binding hbinding =>
      have hsecond := View.getElem?_of_look hu (by intro hk; rw [hk] at hbinding; cases hbinding)
      cases us' with
      | nil => cases hsecond
      | cons w us' =>
        obtain rfl : w = u := Option.some.inj hsecond
        exact leaves_bindStatement h t w binding
    · exact hexpression
  · exact hexpression

theorem leaves_block : Leaves p (block sub) := fun us =>
  .bind (.expect (by decide) (by decide) fun _ us' _ _ =>
    .bind ((leaves_sequence h us').take fun _ _ _ _ =>
      .bind (.expect (by decide) (by decide) fun _ _ _ hne => .pure hne)))

omit h in
/-- Looking for parameters takes nothing, and looks behind names and commas only. -/
theorem stays_parametersAhead {t : Token} (ht : t.kind = .parenOpen) :
    Stays p parametersAhead (t :: us) fun _ us' => us' = t :: us := by
  intro hsealed
  rw [parametersAhead_eq]
  refine Stays.iterate (fun index us' => us' = t :: us ∧ index < us'.length)
    (fun index us' => us'.length - index) ?_
    ⟨rfl, hsealed.next_lt (n := 0) rfl (by rw [ht]; decide)⟩ (Nat.sub_le _ _) hsealed
  rintro index _ ⟨rfl, hindex⟩
  refine .bind (.peekKind (fun _ _ => hindex) fun name hname => ?_)
  split
  · next hidentifier =>
    have hname := View.getElem?_of_look hname (by rw [hidentifier]; decide)
    have hnext := hsealed.next_lt hname (by rw [hidentifier]; decide)
    refine .bind (.peekKind (fun _ _ => hnext) fun u hu => ?_)
    split
    · next hcomma =>
      have hu := View.getElem?_of_look hu (by rw [hcomma]; decide)
      have hfurther := hsealed.next_lt hu (by rw [hcomma]; decide)
      exact .pure ⟨⟨rfl, hfurther⟩, by omega⟩
    · next hclose =>
      have hu := View.getElem?_of_look hu (by rw [hclose]; decide)
      have hfurther := hsealed.next_lt hu (by rw [hclose]; decide)
      exact .bind (.peekKind (fun _ _ => hfurther) fun _ _ => .pure rfl)
    · exact .pure rfl
  · exact .pure rfl

omit h in
theorem stays_lambdaAhead {t : Token} (ht : t.kind = .parenOpen) :
    Stays p lambdaAhead (t :: us) fun _ us' => us' = t :: us := by
  intro hsealed
  have hnext := hsealed.next_lt (n := 0) rfl (by rw [ht]; decide)
  refine Stays.bind (.peekKind (fun _ _ => hnext) fun u hu => ?_) hsealed
  split
  · next hclose =>
    have hu := View.getElem?_of_look hu (by rw [hclose]; decide)
    have hfurther := hsealed.next_lt hu (by rw [hclose]; decide)
    exact .bind (.peekKind (fun _ _ => hfurther) fun _ _ => .pure rfl)
  · exact stays_parametersAhead ht

omit h in
theorem leaves_parameters : Leaves p parameters := by
  intro us
  rw [parameters_eq]
  refine .iterate (fun _ _ => True) (fun _ us => us.length) ?_ trivial (Nat.le_refl _)
  intro names us _
  refine .bind (.peekNext fun t ht => ?_)
  split
  · next hclose =>
    obtain ⟨us', rfl⟩ := View.cons_of_look ht (by rw [hclose]; decide)
    exact .pure (List.cons_ne_nil t us')
  · refine .bind (.expect (by decide) (by decide) ?_)
    rintro name us' rfl hne
    refine .bind (.skip (by decide) (by decide) hne fun us'' hsuffix _ => .pure ⟨trivial, ?_⟩)
    exact Nat.lt_succ_of_le hsuffix.length_le

theorem leaves_lambda : Leaves p (lambda sub) := fun us =>
  .bind (.expect (by decide) (by decide) fun _ us' _ _ =>
    .bind ((leaves_parameters us').take fun _ _ _ _ =>
      .bind (.expect (by decide) (by decide) fun _ _ _ _ =>
        .bind (.expect (by decide) (by decide) fun _ us' _ _ =>
          .bind ((h.statement us').take fun _ _ _ hne => .pure hne)))))

theorem leaves_group (t : Token) : Stays p (group sub) (t :: us) fun _ us' => us' ≠ [] :=
  .bind (.advance fun _ => .bind ((h.expression us).take fun _ _ _ _ =>
    .bind (.expect (by decide) (by decide) fun _ _ _ hne => .pure hne)))

theorem leaves_factor : Leaves p (factor sub) := by
  intro us
  refine .bind (.peekNext fun t ht => ?_)
  have hsingle (hk : t.kind ∈ [.integer, .text, .boolean, .null, .identifier])
      (f : Token → Expression) :
      Stays p (advance >>= fun t => Pure.pure (f t)) us fun _ us' => us' ≠ [] := by
    obtain ⟨us', rfl⟩ := View.cons_of_look ht (by intro hend; rw [hend] at hk; revert hk; decide)
    refine .bind (.advance fun hne => .pure (hne ?_))
    intro hsep
    rw [hsep] at hk
    revert hk
    decide
  split
  · next hk => exact hsingle (by rw [hk]; decide) _
  · next hk => exact hsingle (by rw [hk]; decide) _
  · next hk => exact hsingle (by rw [hk]; decide) _
  · next hk => exact hsingle (by rw [hk]; decide) _
  · next hk => exact hsingle (by rw [hk]; decide) _
  · exact .bind ((leaves_block h us).take fun _ _ _ hne => .pure hne)
  · next hk =>
    obtain ⟨us', rfl⟩ := View.cons_of_look ht (by rw [hk]; decide)
    refine .bind ((stays_lambdaAhead hk).take ?_)
    rintro found _ _ rfl
    split
    · exact leaves_lambda h _
    · exact leaves_group h t
  · exact .unexpected _

/-! ### Calls, signs and chains -/

theorem leaves_arguments : Leaves p (arguments sub) := by
  intro us
  rw [arguments_eq]
  refine .bind (.peekNext fun t ht => ?_)
  split
  · next hclose =>
    obtain ⟨us', rfl⟩ := View.cons_of_look ht (by rw [hclose]; decide)
    exact .pure (List.cons_ne_nil t us')
  · refine .iterate (fun _ _ => True) (fun _ us => us.length) ?_ trivial (Nat.le_refl _)
    intro given us _
    refine .bind ((h.expression us).take fun e us' hsuffix hne => .bind (.peekNext fun t ht => ?_))
    split
    · next hcomma =>
      obtain ⟨us'', rfl⟩ := View.cons_of_look ht (by rw [hcomma]; decide)
      exact .bind (.advance fun _ => .pure ⟨trivial, hsuffix.length_le⟩)
    · exact .pure hne

theorem leaves_call : Leaves p (call sub) := by
  intro us
  rw [call_eq]
  refine .bind ((leaves_factor h us).take fun first us' _ hne => ?_)
  refine .iterate (fun _ us => us ≠ []) (fun _ us => us.length) ?_ hne (Nat.le_refl _)
  intro callee us hus
  refine .bind (.peekNext fun t ht => ?_)
  split
  · next hopen =>
    obtain ⟨us', rfl⟩ := View.cons_of_look ht (by rw [hopen]; decide)
    refine .bind (.advance fun _ => .bind ((leaves_arguments h us').take fun given us'' hsuffix _ => ?_))
    refine .bind (.expect (by decide) (by decide) ?_)
    rintro u us''' rfl hne
    exact .pure ⟨hne, Nat.lt_succ_of_lt hsuffix.length_le⟩
  · exact .pure hus

theorem leaves_unary : Leaves p (unary sub) := by
  intro us
  refine .bind (.peekNext fun t ht => ?_)
  split
  · next hminus =>
    obtain ⟨us', rfl⟩ := View.cons_of_look ht (by rw [hminus]; decide)
    exact .bind (.advance fun _ => .bind ((h.unary us').take fun _ _ _ hne => .pure hne))
  · exact leaves_call h us

omit h in
theorem leaves_leftChain {operator? : Kind → Option Operator} {operand : Parse Expression}
    (hoperand : Leaves p operand) (hend : operator? .endOfText = none) :
    Leaves p (leftChain operator? operand) := by
  intro us
  rw [leftChain_eq]
  refine .bind ((hoperand us).take fun first us' _ hne => ?_)
  refine .iterate (fun _ us => us ≠ []) (fun _ us => us.length) ?_ hne (Nat.le_refl _)
  intro left us hus
  refine .bind (.peekNext fun t ht => ?_)
  split
  · exact .pure hus
  · next operator hoperator =>
    obtain ⟨us', rfl⟩ := View.cons_of_look ht
      (by intro hk; rw [hk, hend] at hoperator; cases hoperator)
    refine .bind (.advance fun _ => .bind ((hoperand us').take fun right us'' hsuffix hne => ?_))
    exact .pure ⟨hne, Nat.lt_succ_of_le hsuffix.length_le⟩

theorem leaves_coalescing : Leaves p (coalescing sub) :=
  leaves_leftChain (leaves_leftChain (leaves_leftChain (leaves_unary h) rfl) rfl) rfl

theorem leaves_comparison : Leaves p (comparison sub) := by
  intro us
  refine .bind ((leaves_coalescing h us).take fun left us' _ hne => .bind (.peekNext fun t ht => ?_))
  split
  · exact .pure hne
  · next operator hoperator =>
    obtain ⟨us'', rfl⟩ := View.cons_of_look ht (by intro hk; rw [hk] at hoperator; cases hoperator)
    exact .bind (.advance fun _ => .bind ((leaves_coalescing h us'').take fun _ _ _ hne => .pure hne))

theorem leaves_disjunction : Leaves p (disjunction sub) :=
  leaves_leftChain (leaves_leftChain (leaves_comparison h) rfl) rfl

end Productions

theorem leaves_layers (p : Position) (n : Nat) : (layers n).Leaves p := by
  induction n with
  | zero => exact ⟨fun _ => .complain _, fun _ => .complain _, fun _ => .complain _⟩
  | succ n ih => exact ⟨leaves_statement ih, leaves_disjunction ih, leaves_unary ih⟩

/-! ### Programs -/

section Programs
variable {sub : Layers} {closer : Kind} {last : Bool}

/-- The statements in front of the end of a text are read the same in front of any view, and then
the view is read. -/
theorem loops_before (h : sub.Leaves p) (hsealed : Sealed us)
    (hkinds : ∀ t ∈ us, t.kind ≠ .endOfText) (read : List Statement) :
    (∃ e, Loops id (nextStatement sub .endOfText true) us.length read (us ++ View.ended p) (.error e)) ∨
      ∃ statements, ∀ (v : View) r k,
        Loops id (nextStatement sub .endOfText true) k (read ++ statements) v r →
          Loops id (nextStatement sub .endOfText true) (us.length + k) read (us ++ v) r := by
  induction hlength : us.length using Nat.strongRecOn generalizing us read with
  | ind n ih =>
    subst hlength
    cases us with
    | nil =>
      refine .inr ⟨[], fun v r k hloops => ?_⟩
      rw [List.append_nil] at hloops
      exact hloops.mono (Nat.le_add_left k 0)
    | cons t us =>
      have hopen : t.kind ≠ .endOfText := hkinds t List.mem_cons_self
      obtain ⟨e, hfails⟩ | ⟨s, us', hsuffix, hne, hruns⟩ := h.statement (t :: us) hsealed
      · refine .inl ⟨e, .fail ((Runs.peekKind (View.look_cons_zero t us _)).bind ?_)⟩
        rw [if_neg hopen]
        exact hfails.bind_error _
      obtain ⟨u, us', rfl⟩ := List.exists_cons_of_ne_nil hne
      have hu : u.kind ≠ .endOfText := hkinds u (hsuffix.subset List.mem_cons_self)
      by_cases hsep : u.kind = .endOfStatement
      · have hstep : ∀ v : View, Runs (nextStatement sub .endOfText true read) ((t :: us) ++ v)
            (.ok (.more (read ++ [s]), us' ++ v)) := by
          intro v
          refine (Runs.peekKind (View.look_cons_zero t us v)).bind ?_
          rw [if_neg hopen]
          refine (hruns v (.inl hne)).bind ((Runs.peekKind (View.look_cons_zero u us' v)).bind ?_)
          rw [if_pos hsep]
          exact (Runs.advance u us' v).bind (.pure _ _)
        have hlt : us'.length < (t :: us).length := hsuffix.length_le
        have hsuffix' := (List.suffix_cons u us').trans hsuffix
        obtain ⟨e, hmore⟩ | ⟨ss, hmore⟩ := ih us'.length hlt (hsealed.suffix hsuffix')
          (fun w hw => hkinds w (hsuffix'.subset hw)) (read ++ [s]) rfl
        · exact .inl ⟨e, (hmore.more (hstep _)).mono hlt⟩
        · refine .inr ⟨s :: ss, fun v r k hloops => ?_⟩
          rw [List.append_cons] at hloops
          exact ((hmore v r k hloops).more (hstep v)).mono (by omega)
      · refine .inl ⟨.parse u.position .missingSeparator, .fail ?_⟩
        refine (Runs.peekKind (View.look_cons_zero t us _)).bind ?_
        rw [if_neg hopen]
        refine (hruns _ (.inl hne)).bind ((Runs.peekKind (View.look_cons_zero u us' _)).bind ?_)
        rw [if_neg hsep, if_neg (fun hk => hu hk.1)]
        have hpeek := Runs.peek ((u :: us') ++ View.ended p) 0
        exact hpeek.bind (.throw _ _)

/-- Statements that were read before go in front of those that are read. -/
theorem nextStatement_behind (before read : List Statement) :
    nextStatement sub closer last (before ++ read) =
      (fun
        | .more ss => .more (before ++ ss)
        | .done ss => .done (before ++ ss)) <$> nextStatement sub closer last read := by
  unfold nextStatement
  rw [map_bind]
  congr 1
  funext k
  split
  · rw [map_pure]
  · rw [map_bind]
    congr 1
    funext s
    rw [map_bind]
    congr 1
    funext k
    split
    · simp only [map_bind, map_pure, List.append_assoc]
    · split
      · simp only [map_pure, List.append_assoc]
      · rw [map_bind]
        congr 1

theorem repeatUpTo_behind (limit : Nat) (before read : List Statement) :
    repeatUpTo id (nextStatement sub closer last) limit (before ++ read) =
      (before ++ ·) <$> repeatUpTo id (nextStatement sub closer last) limit read := by
  induction limit generalizing read with
  | zero => rfl
  | succ limit ih =>
    rw [repeatUpTo, repeatUpTo, nextStatement_behind, bind_map_left, map_bind]
    congr 1
    funext next
    cases next with
    | more ss => exact ih ss
    | done ss => rfl

theorem loops_behind {k : Nat} {read : List Statement} {v : View}
    {r : Except Error (List Statement × View)}
    (h : Loops id (nextStatement sub closer last) k read v r) (before : List Statement) :
    Loops id (nextStatement sub closer last) k (before ++ read) v
      (r.map fun (statements, v) => (before ++ statements, v)) := by
  intro limit hlimit
  rw [repeatUpTo_behind, map_eq_pure_bind]
  cases r with
  | error e => exact (h limit hlimit).bind_error _
  | ok read => exact (h limit hlimit).bind (.pure _ _)

variable {parts : Phrase.Parts}

/-- Whatever is in view, a sequence comes to an end. -/
theorem exists_loops (h : sub.Takes parts) (closer : Kind) (last : Bool) (v : View) :
    ∃ r, Loops id (nextStatement sub closer last) v.tokens.length [] v r := by
  have hloops : ∃ r, Loops id (nextStatement sub closer last) v.tokens.length [] v r ∧
      Ends (fun _ _ => True) v r := by
    refine Ensures.loops (fun _ _ => True) (fun _ v => v.tokens.length) ?_ trivial
    intro read v _
    refine .bind (.peekKind fun _ _ => ?_)
    split
    · exact .pure trivial
    · refine .bind (.take h.statement ?_)
      rintro s ts v rfl _
      refine .bind (.peekKind fun t ht => ?_)
      split
      · next hsep =>
        refine .bind (.advance ht (by rw [hsep]; decide) ?_)
        rintro v rfl
        refine .pure ⟨trivial, ?_⟩
        simp only [View.tokens_append, List.length_append, List.length_singleton]
        omega
      · split
        · exact .pure trivial
        · exact .bind (.peek fun _ ht => .complain ht _)
  obtain ⟨r, hloops, _⟩ := hloops
  exact ⟨r, hloops⟩

/-- The statements of a program are those of its sequence. -/
theorem statements_program {v : View} {r : Except Error (List Statement × View)}
    (h : Runs (sequence sub .endOfText true) v r) {c : Cursor} (hc : c.Faces v) :
    (outcome (program sub c)).map (·.statements) = r.map (·.1) := by
  have hpeek := Runs.peek v 0
  cases hlook : v.look 0 with
  | ok first =>
    rw [hlook] at hpeek
    cases r with
    | ok read =>
      have hprogram : Runs (program sub) v (.ok (⟨read.1, first.position⟩, read.2)) :=
        hpeek.bind (h.bind (.pure _ _))
      rw [hprogram.outcome_eq hc]
      rfl
    | error e =>
      have hprogram : Runs (program sub) v (.error e) := hpeek.bind (h.bind_error _)
      rw [hprogram.outcome_eq hc]
      rfl
  | error e =>
    rw [hlook] at hpeek
    -- What stops a program before its first token stops the sequence there as well.
    have hstep : Runs (nextStatement sub .endOfText true []) v (.error e) :=
      (hpeek.bind_error _).bind_error _
    have hfails : Runs (sequence sub .endOfText true) v (.error e) :=
      Loops.runs (k := 0) (.fail hstep) (Nat.zero_le _)
    have hprogram : Runs (program sub) v (.error e) := hpeek.bind_error _
    rw [← h.outcome_eq hc, hfails.outcome_eq hc, hprogram.outcome_eq hc]
    rfl

end Programs

end Grammar

/-! ### Texts that go on -/

theorem Phrase.Sequence.sealed {α : Type} {item : Phrase α} {ts : List Token} {as : List α}
    (h : Sequence item true ts as) : Sealed ts := by
  induction h with
  | none => exact nofun
  | last hlast => cases hlast
  | @more ts us t _ _ _ ht _ ih =>
    intro u hu
    rw [List.getLast?_append, List.getLast?_cons] at hu
    cases hlast : us.getLast? with
    | none =>
      rw [hlast] at hu
      obtain rfl := Option.some.inj hu
      exact ht
    | some w =>
      rw [hlast] at hu
      obtain rfl := Option.some.inj hu
      exact ih w hlast

theorem Phrase.Program.sealed {parts : Phrase.Parts} {ts : List Token} {last : Token} {b : Block}
    (h : Program parts (ts ++ [last]) b) : Sealed ts := by
  generalize hus : ts ++ [last] = us at h
  obtain ⟨hs, _, _⟩ := h
  obtain ⟨rfl, _⟩ := List.append_inj' hus rfl
  exact hs.sealed

/-- Tokens in front of a stream are in view in front of what the stream has to read. -/
theorem Token.Stream.view_append (ts : List Token) (pending : List (Except Error Token))
    (finish : Position) :
    view ⟨ts.map .ok ++ pending, finish⟩ = uncommented ts ++ view ⟨pending, finish⟩ := by
  induction ts with
  | nil => rfl
  | cons t ts ih =>
    have hsplit : uncommented (t :: ts) = uncommented [t] ++ uncommented ts :=
      List.filter_append [t] ts
    have hview : view ⟨.ok t :: (ts.map .ok ++ pending), finish⟩ =
        uncommented [t] ++ view ⟨ts.map .ok ++ pending, finish⟩ := by
      by_cases ht : t.kind = .comment
      · simp only [view, readable, uncommented, List.filter, decide_not, ht]
        rfl
      · simp only [view, readable, uncommented, List.filter, decide_not, ht]
        rfl
    rw [List.map_cons, List.cons_append, hview, ih, View.append_append, ← hsplit]

/-- Tokens that are read as a program are sealed: its last statement has a separator. -/
theorem Grammar.sealed_of_program {n : Nat} {us : List Token} {p : Position} {c : Cursor} {b : Block}
    (hkinds : ∀ t ∈ us, t.kind ≠ .endOfText) (hc : c.Faces (us ++ View.ended p))
    (h : outcome (program (layers n) c) = .ok b) : Sealed us := by
  have hread := (ensures_program (takes_layers n) _).on_cursor hc
  rw [h] at hread
  obtain ⟨rest, ts, last, hview, hlast, hend, hb⟩ := hread
  have htokens : us ++ [] = ts ++ rest.tokens := congrArg View.tokens hview
  rw [List.append_nil] at htokens
  have hrest : ∀ t ∈ rest.tokens, t.kind ≠ .endOfText := fun t ht =>
    hkinds t (htokens ▸ List.mem_append_right ts ht)
  obtain ⟨q, rfl, _⟩ := View.of_look_end hrest hlast hend
  rw [htokens, List.append_nil]
  exact hb.sealed

/-- **A program that goes on is read as before.** If the tokens of a text are read as a program, the
statements of a text that goes on behind them are those of the program and then those that the rest
has on its own; if the rest fails on its own, so does the whole, with the same failure. -/
theorem Grammar.program_append {n : Nat} {ts : List Token} {p : Position} {b : Block}
    (hkinds : ∀ t ∈ ts, t.kind ≠ .endOfText)
    (h : outcome (program (layers n) (.ofStream ⟨ts.map .ok, p⟩)) = .ok b)
    (pending : List (Except Error Token)) (finish : Position) :
    (outcome (program (layers n) (.ofStream ⟨ts.map .ok ++ pending, finish⟩))).map (·.statements) =
      (outcome (program (layers n) (.ofStream ⟨pending, finish⟩))).map
        (b.statements ++ ·.statements) := by
  have hview := Token.Stream.view_append ts
  generalize hus : Token.Stream.uncommented ts = us at hview
  have hkinds : ∀ t ∈ us, t.kind ≠ .endOfText := by
    intro t ht
    rw [← hus] at ht
    exact hkinds t (List.mem_filter.mp ht).1
  have hfaces : (Cursor.ofStream ⟨ts.map .ok, p⟩).Faces (us ++ View.ended p) := by
    have hfirst := hview [] p
    rw [List.append_nil] at hfirst
    show (Cursor.ofStream ⟨ts.map .ok, p⟩).Faces (us ++ Token.Stream.view ⟨[], p⟩)
    rw [← hfirst]
    exact Cursor.ofStream_faces _
  have hsealed := sealed_of_program hkinds hfaces h
  obtain ⟨e, hfails⟩ | ⟨statements, hbefore⟩ := loops_before (leaves_layers p n) hsealed hkinds []
  · have hruns : Runs (sequence (layers n) .endOfText true) (us ++ View.ended p) (.error e) :=
      hfails.runs (by simp)
    have hstatements := statements_program hruns hfaces
    rw [h] at hstatements
    cases hstatements
  have hb : b.statements = statements := by
    have hend : Runs (nextStatement (layers n) .endOfText true statements) (View.ended p)
        (.ok (.done statements, View.ended p)) := by
      refine (Runs.peekKind (t := .endAt p) rfl).bind ?_
      exact .pure _ _
    have hruns : Runs (sequence (layers n) .endOfText true) (us ++ View.ended p)
        (.ok (statements, View.ended p)) :=
      (hbefore (View.ended p) _ 0 (.done hend)).runs (by simp)
    have hstatements := statements_program hruns hfaces
    rw [h] at hstatements
    exact Except.ok.inj hstatements
  obtain ⟨r, hrest⟩ := exists_loops (takes_layers n) .endOfText true
    (Token.Stream.view ⟨pending, finish⟩)
  have hbehind := loops_behind hrest statements
  rw [List.append_nil] at hbehind
  have hboth := (hbefore _ _ _ hbehind).runs (by simp)
  rw [← hview] at hboth
  have hrest : Runs (sequence (layers n) .endOfText true) (Token.Stream.view ⟨pending, finish⟩) r :=
    hrest.runs (Nat.le_refl _)
  have hwhole := statements_program hboth (Cursor.ofStream_faces _)
  have hpart := statements_program hrest (Cursor.ofStream_faces _)
  rw [hwhole, hb]
  calc (r.map fun (read, v) => (statements ++ read, v)).map (·.1)
      = (r.map (·.1)).map (statements ++ ·) := by cases r <;> rfl
    _ = ((outcome (program (layers n) (.ofStream ⟨pending, finish⟩))).map (·.statements)).map
          (statements ++ ·) := by rw [hpart]
    _ = _ := by cases outcome (program (layers n) (.ofStream ⟨pending, finish⟩)) <;> rfl

end Lumen
