import Lumen.Parser
import Lumen.Proofs.Parser.Lookahead

/-! What the parser takes is what the grammar derives.

For each function of the parser: whatever is in view, it fails, and the view accounts for the
failure, or it takes tokens from the front that derive what it gives (`Takes`). The loops keep an
invariant for that: the tokens read so far complete to a phrase whatever sequence, list or chain
comes behind them.

A program is read up to the end of the text, so a source that is accepted has all its tokens and
they derive its tree (`parse_cases`). -/
namespace Lumen
open Parse Phrase
open Token (Kind)

namespace Parse
variable {α : Type} {m : Parse α} {P : Phrase α} {v : View}

/-- Whatever is in view, `m` fails or takes tokens that `P` derives. -/
def Takes (m : Parse α) (P : Phrase α) : Prop :=
  ∀ v, Ensures m v fun a rest => ∃ ts : List Token, v = ts ++ rest ∧ P ts a

theorem Ensures.take {Q : α → View → Prop} (h : m.Takes P)
    (hQ : ∀ a (ts : List Token) (rest : View), v = ts ++ rest → P ts a → Q a rest) : Ensures m v Q :=
  (h v).mono fun a rest ⟨ts, hv, hP⟩ => hQ a ts rest hv hP

end Parse

namespace Grammar

/-- The nested parts are read as the grammar says. -/
structure Layers.Takes (sub : Layers) (parts : Parts) : Prop where
  statement : sub.statement.Takes parts.statement
  expression : sub.expression.Takes parts.expression
  unary : sub.unary.Takes parts.unary

variable {sub : Layers} {parts : Parts}

/-! ### Statements -/

/-- A sequence stops in front of its closer. -/
theorem ensures_sequence (h : sub.Takes parts) (closer : Kind) (lastNeedsSeparator : Bool)
    (v : View) : Ensures (sequence sub closer lastNeedsSeparator) v fun statements rest =>
      ∃ ts : List Token, v = ts ++ rest ∧
        Sequence parts.statement lastNeedsSeparator ts statements ∧
        ∃ t, rest.look 0 = .ok t ∧ t.kind = closer := by
  -- What has been read so far goes in front of any sequence.
  refine .iterate
    (fun read v' => ∃ ts : List Token, v = ts ++ v' ∧ ∀ us ss,
      Sequence parts.statement lastNeedsSeparator us ss →
        Sequence parts.statement lastNeedsSeparator (ts ++ us) (read ++ ss))
    (fun _ v' => v'.tokens.length) ?_ ⟨[], rfl, fun us ss hs => hs⟩ (Nat.le_refl _)
  rintro read _ ⟨ts, rfl, hread⟩
  refine .bind (.peekKind fun t ht => ?_)
  split
  · next hclose =>
    have hs := hread [] [] .none
    rw [List.append_nil, List.append_nil] at hs
    exact .pure ⟨ts, rfl, hs, t, ht, hclose⟩
  · refine .bind (.take h.statement ?_)
    rintro s us v' rfl hs
    refine .bind (.peekKind fun t ht => ?_)
    split
    · next hsep =>
      refine .bind (.advance ht (by rw [hsep]; decide) ?_)
      rintro v'' rfl
      refine .pure ⟨⟨ts ++ us ++ [t], by simp, fun ws ss hss => ?_⟩, ?_⟩
      · have := hread _ _ (.more hs hsep hss)
        simpa using this
      · simp only [View.tokens_append, List.length_append, List.length_singleton]
        omega
    · split
      · next hlast =>
        have hss := hread _ _ (.last (by simpa using hlast.2) hs)
        exact .pure ⟨ts ++ us, by simp, hss, t, ht, hlast.1⟩
      · exact .bind (.peek fun t ht => .complain ht _)

theorem takes_branch (h : sub.Takes parts) : (branch sub).Takes (Guarded parts.statement) := by
  intro v
  refine .bind (.take h.statement ?_)
  rintro guard ts v rfl hguard
  refine .bind (.take h.statement ?_)
  rintro body us v rfl hbody
  exact .pure ⟨ts ++ us, by simp, .branch hguard hbody⟩

/-- The branches of a condition after the first one. -/
theorem ensures_furtherBranches (h : sub.Takes parts) (first : Branch) (v : View) :
    Ensures (furtherBranches sub first) v fun found rest =>
      ∃ (ts : List Token) (bs : List Branch), v = ts ++ rest ∧ found.1 = first :: bs ∧
        Alternatives (Guarded parts.statement) parts.statement ts (bs, found.2) := by
  refine .iterate
    (fun read v' => ∃ (ts : List Token) (bs : List Branch), v = ts ++ v' ∧ read = first :: bs ∧
      ∀ us more otherwise, Alternatives (Guarded parts.statement) parts.statement us (more, otherwise) →
        Alternatives (Guarded parts.statement) parts.statement (ts ++ us) (bs ++ more, otherwise))
    (fun _ v' => v'.tokens.length) ?_ ⟨[], [], rfl, rfl, fun us more otherwise h => h⟩ (Nat.le_refl _)
  rintro _ _ ⟨ts, bs, rfl, rfl, hread⟩
  refine .bind (.peekKind fun t ht => ?_)
  split
  · next helse =>
    refine .bind (.advance ht (by rw [helse]; decide) ?_)
    rintro v rfl
    refine .bind (.peekKind fun u hu => ?_)
    split
    · next hif =>
      refine .bind (.advance hu (by rw [hif]; decide) ?_)
      rintro v rfl
      refine .bind (.take (takes_branch h) ?_)
      rintro b us v rfl hb
      refine .pure ⟨⟨ts ++ t :: u :: us, bs ++ [b], by simp, rfl, fun ws more otherwise hmore => ?_⟩, ?_⟩
      · have := hread _ _ _ (.elseIf helse hif hb hmore)
        simpa using this
      · simp only [View.tokens_append, List.length_append, List.length_singleton]
        omega
    · refine .bind (.take h.statement ?_)
      rintro s us v rfl hs
      have halt := hread _ _ _ (.otherwise helse hs)
      rw [List.append_nil] at halt
      exact .pure ⟨ts ++ t :: us, bs, by simp, rfl, halt⟩
  · have halt := hread _ _ _ .none
    rw [List.append_nil, List.append_nil] at halt
    exact .pure ⟨ts, bs, rfl, rfl, halt⟩

theorem takes_condition (h : sub.Takes parts) : (condition sub).Takes (Sentence parts) := by
  intro v
  refine .bind (.expect (by decide) ?_)
  rintro t v rfl ht
  refine .bind (.take (takes_branch h) ?_)
  rintro b ts v rfl hb
  refine .bind ((ensures_furtherBranches h b v).mono ?_)
  rintro ⟨_, otherwise⟩ v ⟨us, bs, rfl, rfl, hbs⟩
  exact .pure ⟨t :: ts ++ us, by simp, .condition ht hb hbs⟩

theorem takes_loop (h : sub.Takes parts) : (loop sub).Takes (Sentence parts) := by
  intro v
  refine .bind (.expect (by decide) ?_)
  rintro t v rfl ht
  refine .bind (.take h.statement ?_)
  rintro guard ts v rfl hguard
  refine .bind (.take h.statement ?_)
  rintro body us v rfl hbody
  exact .pure ⟨t :: ts ++ us, by simp, .loop ht hguard hbody⟩

theorem takes_breakOut (h : sub.Takes parts) : (breakOut sub).Takes (Sentence parts) := by
  intro v
  refine .bind (.expect (by decide) ?_)
  rintro t v rfl ht
  refine .bind (.peekKind fun _ _ => ?_)
  split
  · exact .pure ⟨[t], rfl, .breakOut ht⟩
  · refine .bind (.take h.statement ?_)
    rintro s ts v rfl hs
    exact .pure ⟨t :: ts, rfl, .breakWith ht hs⟩

/-- A binding is read where a name and the sign of a binding are next. -/
theorem ensures_bindStatement (h : sub.Takes parts) {binding : Binding} {v : View} {t u : Token}
    (ht : v.look 0 = .ok t) (hname : t.kind = .identifier) (hu : v.look 1 = .ok u)
    (hbinding : binding? u.kind = some binding) :
    Ensures (bindStatement sub binding) v fun s rest =>
      ∃ ts : List Token, v = ts ++ rest ∧ Sentence parts ts s := by
  refine .bind (.advance ht (by rw [hname]; decide) ?_)
  rintro v rfl
  refine .bind (.advance hu (by rintro hend; rw [hend] at hbinding; cases hbinding) ?_)
  rintro v rfl
  refine .bind (.take h.statement ?_)
  rintro s ts v rfl hs
  exact .pure ⟨t :: u :: ts, rfl, .bind hname hbinding hs⟩

theorem takes_statement (h : sub.Takes parts) : (statement sub).Takes (Sentence parts) := by
  intro v
  have hexpression : Ensures (do return .expression (← sub.expression)) v fun s rest =>
      ∃ ts : List Token, v = ts ++ rest ∧ Sentence parts ts s := by
    refine .bind (.take h.expression ?_)
    rintro e ts v rfl he
    exact .pure ⟨ts, rfl, .expression he⟩
  refine .bind (.peekKind fun t ht => ?_)
  split
  · exact takes_condition h v
  · exact takes_loop h v
  · exact takes_breakOut h v
  · next hname =>
    refine .bind (.peekKind fun u hu => ?_)
    split
    · next hbinding => exact ensures_bindStatement h ht hname hu hbinding
    · exact hexpression
  · exact hexpression

/-! ### Factors -/

theorem takes_block (h : sub.Takes parts) : (block sub).Takes (Braces parts) := by
  intro v
  refine .bind (.expect (by decide) ?_)
  rintro t v rfl ht
  refine .bind ((ensures_sequence h .braceClose false v).mono ?_)
  rintro statements v ⟨ts, rfl, hs, _⟩
  refine .bind (.expect (by decide) ?_)
  rintro u v rfl hu
  exact .pure ⟨t :: ts ++ [u], by simp, .block ht hs hu⟩

theorem ensures_group (h : sub.Takes parts) {v : View} {t : Token} (ht : v.look 0 = .ok t)
    (hopen : t.kind = .parenOpen) : Ensures (group sub) v fun e rest =>
      ∃ ts : List Token, v = ts ++ rest ∧ Atom parts ts e := by
  refine .bind (.advance ht (by rw [hopen]; decide) ?_)
  rintro v rfl
  refine .bind (.take h.expression ?_)
  rintro e ts v rfl he
  refine .bind (.expect (by decide) ?_)
  rintro u v rfl hu
  exact .pure ⟨t :: ts ++ [u], by simp, .group hopen he hu⟩

/-- A function is read where its parameters are next. -/
theorem ensures_lambda (h : sub.Takes parts) {t u arrow : Token} {ts : List Token}
    {names : List String} (ht : t.kind = .parenOpen) (hnames : Listed Name ts names)
    (hu : u.kind = .parenClose) (harrow : arrow.kind = .arrow) (v : View) :
    Ensures (lambda sub) ([t] ++ ((ts ++ [u, arrow]) ++ v)) fun e rest =>
      ∃ us : List Token, [t] ++ ((ts ++ [u, arrow]) ++ v) = us ++ rest ∧ Factor parts us e := by
  have hparameters := runs_parameters hnames hu ([arrow] ++ v)
  refine .bind (.of_runs [t] (.expect ht _ [] _) ?_)
  rw [show (ts ++ [u, arrow]) ++ v = ts ++ ([u] ++ ([arrow] ++ v)) by simp]
  refine .bind (.of_runs ts (by simpa using hparameters) ?_)
  refine .bind (.of_runs [u] (.expect hu _ [] _) ?_)
  refine .bind (.of_runs [arrow] (.expect harrow _ [] _) ?_)
  refine .bind (.take h.statement ?_)
  rintro body us v rfl hbody
  exact .pure ⟨t :: ts ++ u :: arrow :: us, by simp, .lambda (.lambda ht hnames hu harrow hbody)⟩

theorem takes_factor (h : sub.Takes parts) : (factor sub).Takes (Factor parts) := by
  intro v
  refine .bind (.peekKind fun t ht => ?_)
  have hconstant (hk : t.kind ∈ [.integer, .text, .boolean, .null]) :
      Ensures constant v fun e rest => ∃ ts : List Token, v = ts ++ rest ∧ Factor parts ts e := by
    refine .bind (.advance ht (by intro hend; rw [hend] at hk; revert hk; decide) ?_)
    rintro v rfl
    exact .pure ⟨[t], rfl, .atom (.constant hk)⟩
  split
  · next hk => exact hconstant (by rw [hk]; decide)
  · next hk => exact hconstant (by rw [hk]; decide)
  · next hk => exact hconstant (by rw [hk]; decide)
  · next hk => exact hconstant (by rw [hk]; decide)
  · next hk =>
    refine .bind (.advance ht (by rw [hk]; decide) ?_)
    rintro v rfl
    exact .pure ⟨[t], rfl, .atom (.reference hk)⟩
  · refine .bind (.take (takes_block h) ?_)
    rintro b ts v rfl hb
    exact .pure ⟨ts, rfl, .atom (.block hb)⟩
  · next hk =>
    obtain ⟨v, rfl⟩ := View.eq_cons_of_look ht (by rw [hk]; decide)
    refine .bind ((ensures_lambdaAhead t v).mono ?_)
    rintro found _ ⟨rfl, himp⟩
    split
    · next hfound =>
      obtain ⟨ts, names, u, arrow, v, rfl, hnames, hu, harrow⟩ := himp hfound
      exact ensures_lambda h hk hnames hu harrow v
    · refine (ensures_group h ht hk).mono ?_
      rintro e rest ⟨ts, hv, he⟩
      exact ⟨ts, hv, .atom he⟩
  · exact .unexpected _

/-! ### Calls, signs and chains -/

theorem takes_arguments (h : sub.Takes parts) : (arguments sub).Takes (Listed parts.expression) := by
  intro v
  refine .bind (.peekKind fun _ _ => ?_)
  split
  · exact .pure ⟨[], rfl, .none⟩
  · refine .iterate
      (fun read v' => ∃ ts : List Token, v = ts ++ v' ∧ ∀ us es,
        Series parts.expression us es → Series parts.expression (ts ++ us) (read ++ es))
      (fun _ v' => v'.tokens.length) ?_ ⟨[], rfl, fun us es hes => hes⟩ (Nat.le_refl _)
    rintro read _ ⟨ts, rfl, hread⟩
    refine .bind (.take h.expression ?_)
    rintro e us v rfl he
    refine .bind (.peekKind fun t ht => ?_)
    split
    · next hcomma =>
      refine .bind (.advance ht (by rw [hcomma]; decide) ?_)
      rintro v rfl
      refine .pure ⟨⟨ts ++ us ++ [t], by simp, fun ws es hes => ?_⟩, ?_⟩
      · have := hread _ _ (.more he hcomma hes)
        simpa using this
      · simp only [View.tokens_append, List.length_append, List.length_singleton]
        omega
    · exact .pure ⟨ts ++ us, by simp, .some (hread _ _ (.last he))⟩

theorem takes_call (h : sub.Takes parts) :
    (call sub).Takes (Call (Factor parts) parts.expression) := by
  intro v
  refine .bind (.take (takes_factor h) ?_)
  rintro first ts v rfl hfirst
  refine .iterate
    (fun callee v' => ∃ us : List Token, ts ++ v = us ++ v' ∧
      Call (Factor parts) parts.expression us callee)
    (fun _ v' => v'.tokens.length) ?_ ⟨ts, rfl, .factor hfirst⟩ (Nat.le_refl _)
  rintro callee v' ⟨us, hv, hcallee⟩
  rw [hv]
  refine .bind (.peekKind fun t ht => ?_)
  split
  · next hopen =>
    refine .bind (.advance ht (by rw [hopen]; decide) ?_)
    rintro v rfl
    refine .bind (.take (takes_arguments h) ?_)
    rintro given ws v rfl hgiven
    refine .bind (.expect (by decide) ?_)
    rintro u v rfl hu
    refine .pure ⟨⟨us ++ t :: ws ++ [u], by simp, .call hcallee hopen hgiven hu⟩, ?_⟩
    simp only [View.tokens_append, List.length_append, List.length_singleton]
    omega
  · exact .pure ⟨us, rfl, hcallee⟩

theorem takes_leftChain {operator? : Kind → Option Operator} {operand : Parse Expression}
    {operandPhrase : Phrase Expression} (h : operand.Takes operandPhrase)
    (hend : operator? .endOfText = none) :
    (leftChain operator? operand).Takes (LeftChain operator? operandPhrase) := by
  intro v
  refine .bind (.take h ?_)
  rintro first ts v rfl hfirst
  refine .iterate
    (fun left v' => ∃ us : List Token, ts ++ v = us ++ v' ∧
      LeftChain operator? operandPhrase us left)
    (fun _ v' => v'.tokens.length) ?_ ⟨ts, rfl, .single hfirst⟩ (Nat.le_refl _)
  rintro left v' ⟨us, hv, hleft⟩
  rw [hv]
  refine .bind (.peekKind fun t ht => ?_)
  split
  · exact .pure ⟨us, rfl, hleft⟩
  · next operator hoperator =>
    refine .bind (.advance ht (by intro hk; rw [hk, hend] at hoperator; cases hoperator) ?_)
    rintro v rfl
    refine .bind (.take h ?_)
    rintro right ws v rfl hright
    refine .pure ⟨⟨us ++ t :: ws, by simp, .join hleft hoperator hright⟩, ?_⟩
    simp only [View.tokens_append, List.length_append, List.length_singleton]
    omega

theorem takes_comparison {operandPhrase : Phrase Expression}
    (h : (coalescing sub).Takes operandPhrase) :
    (comparison sub).Takes (Comparison operandPhrase) := by
  intro v
  refine .bind (.take h ?_)
  rintro left ts v rfl hleft
  refine .bind (.peekKind fun t ht => ?_)
  split
  · exact .pure ⟨ts, rfl, .single hleft⟩
  · next operator hoperator =>
    refine .bind (.advance ht (by intro hk; rw [hk] at hoperator; cases hoperator) ?_)
    rintro v rfl
    refine .bind (.take h ?_)
    rintro right us v rfl hright
    exact .pure ⟨ts ++ t :: us, by simp, .compare hleft hoperator hright⟩

theorem takes_unary (h : sub.Takes parts) : (unary sub).Takes (Operand parts) := by
  intro v
  refine .bind (.peekKind fun t ht => ?_)
  split
  · next hminus =>
    refine .bind (.advance ht (by rw [hminus]; decide) ?_)
    rintro v rfl
    refine .bind (.take h.unary ?_)
    rintro e ts v rfl he
    exact .pure ⟨t :: ts, rfl, .negate hminus he⟩
  · refine .take (takes_call h) ?_
    rintro e ts v rfl he
    exact ⟨ts, rfl, .call he⟩

theorem takes_disjunction (h : sub.Takes parts) :
    (disjunction sub).Takes (Disjunction (Operand parts)) := by
  have hproduct : (multiplicative sub).Takes (Product (Operand parts)) :=
    takes_leftChain (takes_unary h) rfl
  have hsum : (additive sub).Takes (Sum (Operand parts)) := takes_leftChain hproduct rfl
  have hcoalescing : (coalescing sub).Takes (Coalescing (Operand parts)) := takes_leftChain hsum rfl
  have hconjunction : (conjunction sub).Takes (Conjunction (Operand parts)) :=
    takes_leftChain (takes_comparison hcoalescing) rfl
  exact takes_leftChain hconjunction rfl

/-! ### Programs -/

theorem takes_tooDeep {α : Type} (P : Phrase α) : (tooDeep : Parse α).Takes P :=
  fun _ => .bind (.peek fun _ ht => .complain ht _)

theorem takes_layers (n : Nat) : (layers n).Takes (Phrase.parts n) := by
  induction n with
  | zero => exact ⟨takes_tooDeep _, takes_tooDeep _, takes_tooDeep _⟩
  | succ n ih => exact ⟨takes_statement ih, takes_disjunction ih, takes_unary ih⟩

/-- A program is read up to an end of text. -/
theorem ensures_program (h : sub.Takes parts) (v : View) :
    Ensures (program sub) v fun b rest => ∃ (ts : List Token) (last : Token), v = ts ++ rest ∧
      rest.look 0 = .ok last ∧ last.kind = .endOfText ∧ Program parts (ts ++ [last]) b := by
  refine .bind (.peek fun first hfirst => ?_)
  refine .bind ((ensures_sequence h .endOfText true v).mono ?_)
  rintro statements rest ⟨ts, rfl, hs, last, hlast, hend⟩
  refine .pure ⟨ts, last, rfl, hlast, hend, ?_⟩
  cases ts with
  | nil =>
    obtain rfl := Except.ok.inj (hfirst.symm.trans hlast)
    exact .program hs hend rfl
  | cons t ts =>
    obtain rfl := Except.ok.inj hfirst
    exact .program hs hend rfl

end Grammar

theorem parse_eq_outcome (source : String) : parse source =
    outcome (Grammar.program (Grammar.layers Parser.maxNesting) (.ofStream (.ofSource source))) := by
  unfold parse parseWithin outcome
  rw [Cursor.ofSource]
  cases Grammar.program _ _ <;> rfl

/-- Where no token in view ends the text, the end is seen behind all of them. -/
theorem View.of_look_end {v : View} {last : Token} (hkinds : ∀ t ∈ v.tokens, t.kind ≠ .endOfText)
    (hlast : v.look 0 = .ok last) (hend : last.kind = .endOfText) :
    ∃ p, v = ⟨[], .ok p⟩ ∧ last = .endAt p := by
  obtain ⟨tokens, stop⟩ := v
  cases tokens with
  | cons t ts =>
    obtain rfl := Except.ok.inj hlast
    exact absurd hend (hkinds t List.mem_cons_self)
  | nil =>
    cases stop with
    | error e => cases hlast
    | ok p => exact ⟨p, rfl, (Except.ok.inj hlast).symm⟩

/-- What reading a source comes to: a program that takes in all the tokens there are, or a
failure that the tokens account for. -/
theorem parse_cases (source : String) :
    match parse source with
    | .ok b => ∃ ts, tokenize source = .ok ts ∧
        Program (Phrase.parts Parser.maxNesting) (Token.Stream.uncommented ts) b
    | .error e => (Token.Stream.ofSource source).view.Blames e := by
  have h := (Grammar.ensures_program (Grammar.takes_layers Parser.maxNesting) _).on_cursor
    (Cursor.ofStream_faces (.ofSource source))
  rw [← parse_eq_outcome] at h
  cases hparse : parse source with
  | error e =>
    rw [hparse] at h
    exact h
  | ok b =>
    rw [hparse] at h
    obtain ⟨rest, ts, last, hview, hlast, hend, hb⟩ := h
    have hkinds : ∀ t ∈ rest.tokens, t.kind ≠ .endOfText := by
      intro t ht
      refine @Token.Stream.kind_of_mem_ofSource source t ?_
      show t ∈ (Token.Stream.ofSource source).view.tokens
      rw [hview]
      exact List.mem_append_right ts ht
    obtain ⟨p, rfl, rfl⟩ := View.of_look_end hkinds hlast hend
    obtain ⟨all, htokens, hall⟩ := Token.Stream.tokens_of_ok (congrArg View.stop hview)
    refine ⟨all, htokens, ?_⟩
    have htokens : Token.Stream.readable (Token.Stream.ofSource source).pending = ts ++ [] :=
      congrArg View.tokens hview
    rw [hall, htokens, List.append_nil]
    exact hb

end Lumen
