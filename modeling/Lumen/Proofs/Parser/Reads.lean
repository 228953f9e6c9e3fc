import Lumen.Proofs.Parser.Lookahead

/-! Reading what is there.

`Reads m Begins Stops ts a` says that `m` takes the tokens `ts` and gives `a`, as long as the
token behind them is one that stops it. What stops an expression is a question of layers: an
operator, a call, or a sign that would turn a group into a function or a name into a binding
goes on with it (`Kind.layer`). What the tokens begin with has its part as well, because the
next token, and behind a name the one after it, decides which production is read.

There is one rule for each production, from readings of its parts to a reading of the
whole. Chains and calls lean to the left, so their rules follow the phrase from its end: what
is behind a part is handed on as a repetition that is still to run. -/
namespace Lumen
open Parse Phrase
open Token (Kind)

namespace Token.Kind

/-- Where a token that follows an expression goes on with it: in the layer of an operator, 1 for
the loosest and 6 for the tightest, as a call in layer 8, or in layer 9 by making it part of
something else. -/
def layer : Kind → Nat
  | .or => 1
  | .and => 2
  | .equal | .notEqual | .less | .lessEqual | .greater | .greaterEqual => 3
  | .nullCoalescing => 4
  | .plus | .minus => 5
  | .multiply | .divide => 6
  | .parenOpen => 8
  | .arrow | .assign | .reassign | .nullAssign => 9
  | _ => 0

/-- A token that may follow a name in an expression. -/
def Joins (k : Kind) : Prop := 0 < k.layer ∧ k.layer < 9

def startsFactor : Kind → Bool
  | .integer | .text | .boolean | .null | .identifier | .braceOpen | .parenOpen => true
  | _ => false

def startsOperand : Kind → Bool
  | .minus => true
  | k => k.startsFactor

def startsStatement : Kind → Bool
  | .ifWord | .loopWord | .breakWord => true
  | k => k.startsOperand

/-- A token that ends a statement. -/
def EndsStatement (k : Kind) : Prop := k = .endOfStatement ∨ k = .braceClose

theorem startsOperand_of_startsFactor (k : Kind) : k.startsFactor → k.startsOperand := by
  cases k <;> decide

theorem startsStatement_of_startsOperand (k : Kind) : k.startsOperand → k.startsStatement := by
  cases k <;> decide

theorem EndsStatement.layer_lt {k : Kind} (h : k.EndsStatement) : k.layer < 1 := by
  obtain rfl | rfl := h <;> decide

theorem binding?_of_layer (k : Kind) : k.layer < 9 → Grammar.binding? k = none := by
  cases k <;> decide

theorem layer_of_multiplicative (k : Kind) : k.multiplicative?.isSome → k.layer = 6 := by
  cases k <;> decide

theorem layer_of_additive (k : Kind) : k.additive?.isSome → k.layer = 5 := by
  cases k <;> decide

theorem layer_of_coalescing (k : Kind) : k.coalescing?.isSome → k.layer = 4 := by
  cases k <;> decide

theorem layer_of_comparison (k : Kind) : k.comparison?.isSome → k.layer = 3 := by
  cases k <;> decide

theorem layer_of_and (k : Kind) : k.andOperator?.isSome → k.layer = 2 := by
  cases k <;> decide

theorem layer_of_or (k : Kind) : k.orOperator?.isSome → k.layer = 1 := by
  cases k <;> decide

/-- A token of another layer is no operator of this one. -/
theorem operator?_of_layer_ne {operator? : Kind → Option Operator} {l : Nat}
    (hlayer : ∀ k, (operator? k).isSome → k.layer = l) {k : Kind} (h : k.layer ≠ l) :
    operator? k = none := by
  cases hk : operator? k with
  | none => rfl
  | some operator => exact absurd (hlayer k (by rw [hk]; rfl)) h

end Token.Kind

/-! ### Beginnings -/

/-- Tokens that begin with one that `starts`, and with a token that joins behind it if it is a
name. -/
def Opens (starts : Kind → Bool) (ts : List Token) : Prop :=
  ∃ t us, ts = t :: us ∧ starts t.kind ∧ (t.kind = .identifier → ∀ u ∈ us.head?, u.kind.Joins)

/-- Tokens that begin like a statement. -/
def Begins (ts : List Token) : Prop := ∃ t us, ts = t :: us ∧ t.kind.startsStatement

namespace Opens
variable {starts : Kind → Bool} {ts us : List Token} {u : Token}

theorem append (h : Opens starts ts) (hu : u.kind.Joins) (us : List Token) :
    Opens starts (ts ++ u :: us) := by
  obtain ⟨t, ts, rfl, ht, hname⟩ := h
  refine ⟨t, ts ++ u :: us, rfl, ht, fun hk w hw => ?_⟩
  cases ts with
  | nil =>
    obtain rfl := Option.some.inj hw
    exact hu
  | cons => exact hname hk w hw

theorem mono {starts' : Kind → Bool} (h : Opens starts ts) (himp : ∀ k, starts k → starts' k) :
    Opens starts' ts := by
  obtain ⟨t, us, hts, ht, hname⟩ := h
  exact ⟨t, us, hts, himp _ ht, hname⟩

theorem single {t : Token} (ht : starts t.kind) : Opens starts [t] := ⟨t, [], rfl, ht, fun _ => nofun⟩

/-- A token that is not a name says enough. -/
theorem cons {t : Token} (ht : starts t.kind) (hname : t.kind ≠ .identifier) (us : List Token) :
    Opens starts (t :: us) := ⟨t, us, rfl, ht, fun h => absurd h hname⟩

theorem begins (h : Opens Kind.startsOperand ts) : Begins ts := by
  obtain ⟨t, us, hts, ht, _⟩ := h
  exact ⟨t, us, hts, t.kind.startsStatement_of_startsOperand ht⟩

end Opens

/-- The first token, be it of the tokens in front or behind them. -/
theorem View.look_zero_append {v : View} {t : Token} (h : v.look 0 = .ok t) (us : List Token) :
    ∃ u, (us ++ v).look 0 = .ok u ∧ (u ∈ us.head? ∨ us = [] ∧ u = t) := by
  cases us with
  | nil => exact ⟨t, h, .inr ⟨rfl, rfl⟩⟩
  | cons u us => exact ⟨u, rfl, .inl rfl⟩

/-! ### Readings -/

namespace Parse
variable {α : Type} {m : Parse α} {Start Start' : List Token → Prop} {Stops Stops' : Kind → Prop}
  {ts : List Token} {a : α}

/-- In front of a token that stops it, `m` takes the tokens `ts` and gives `a`. -/
structure Reads (m : Parse α) (Start : List Token → Prop) (Stops : Kind → Prop) (ts : List Token)
    (a : α) : Prop where
  start : Start ts
  runs : ∀ (v : View) (t : Token), v.look 0 = .ok t → Stops t.kind → Runs m (ts ++ v) (.ok (a, v))

theorem Reads.mono (h : Reads m Start Stops ts a) (hstart : ∀ ts, Start ts → Start' ts)
    (hstops : ∀ k, Stops' k → Stops k) : Reads m Start' Stops' ts a :=
  ⟨hstart ts h.start, fun v t ht hk => h.runs v t ht (hstops _ hk)⟩

end Parse

/-- Of the tokens that satisfy `p`, what `P` derives is derived by `Q`. -/
def Phrase.Within {α : Type} (p : Token → Prop) (P Q : Phrase α) : Prop :=
  ∀ ts a, P ts a → (∀ t ∈ ts, p t) → Q ts a

namespace Grammar

/-- The nested parts are read where the grammar derives them from tokens that satisfy `p`. -/
structure Layers.Reads (p : Token → Prop) (sub : Layers) (parts : Parts) : Prop where
  statement : Within p parts.statement (Parse.Reads sub.statement Begins Kind.EndsStatement)
  expression : Within p parts.expression
    (Parse.Reads sub.expression (Opens Kind.startsOperand) (·.layer < 1))
  unary : Within p parts.unary (Parse.Reads sub.unary (Opens Kind.startsOperand) (·.layer < 7))

variable {p : Token → Prop} {sub : Layers} {parts : Parts} {ts us : List Token} {t u : Token}

/-! ### Sequences and factors -/

/-- Reads a statement and the separator behind it. -/
def nextStatement (sub : Layers) (closer : Kind) (lastNeedsSeparator : Bool)
    (statements : List Statement) : Parse (Progress (List Statement) (List Statement)) := do
  if (← peekKind 0) = closer then
    return .done statements
  else
    let s ← sub.statement
    let kind ← peekKind 0
    if kind = .endOfStatement then
      let _ ← advance
      return .more (statements ++ [s])
    else if kind = closer ∧ !lastNeedsSeparator then
      return .done (statements ++ [s])
    else
      throw (.parse (← peek 0).position .missingSeparator)

theorem sequence_eq (closer : Kind) (lastNeedsSeparator : Bool) :
    sequence sub closer lastNeedsSeparator =
      iterate id (nextStatement sub closer lastNeedsSeparator) [] := rfl

theorem loops_sequence {P : Phrase Statement} {last : Bool} {statements : List Statement}
    (hP : Within p P (Parse.Reads sub.statement Begins Kind.EndsStatement))
    (h : Sequence P last ts statements) (hts : ∀ t ∈ ts, p t) {closer : Kind}
    (hstart : closer.startsStatement = false) (hstop : last = false → closer = .braceClose) {v : View}
    (ht : v.look 0 = .ok t) (hcloser : t.kind = closer) (read : List Statement) :
    Loops id (nextStatement sub closer last) ts.length read (ts ++ v)
      (.ok (read ++ statements, v)) := by
  induction h generalizing read with
  | none =>
    refine .done ((Runs.peekKind ht).bind ?_)
    rw [if_pos hcloser, List.append_nil]
    exact .pure _ _
  | last hlast hs =>
    subst hlast
    have hbrace := hcloser.trans (hstop rfl)
    have hread := hP _ _ hs hts
    obtain ⟨w, ws, rfl, hw⟩ := hread.start
    refine .done ((Runs.peekKind (View.look_cons_zero w ws v)).bind ?_)
    rw [if_neg (by rintro rfl; rw [hstart] at hw; cases hw)]
    refine (hread.runs v t ht (.inr hbrace)).bind ((Runs.peekKind ht).bind ?_)
    rw [if_neg (by rw [hbrace]; decide), if_pos ⟨hcloser, rfl⟩]
    exact .pure _ _
  | @more ts us sep s ss hs hsep _ ih =>
    rw [List.forall_mem_append, List.forall_mem_cons] at hts
    have hread := hP _ _ hs hts.1
    have hrest := ih hts.2.2 (read ++ [s])
    rw [List.append_assoc] at hrest
    have hstep : Runs (nextStatement sub closer last read) (ts ++ ((sep :: us) ++ v))
        (.ok (.more (read ++ [s]), us ++ v)) := by
      obtain ⟨w, ws, rfl, hw⟩ := hread.start
      refine (Runs.peekKind (View.look_cons_zero w ws _)).bind ?_
      rw [if_neg (by rintro rfl; rw [hstart] at hw; cases hw)]
      refine (hread.runs _ sep rfl (.inl hsep)).bind ((Runs.peekKind rfl).bind ?_)
      rw [if_pos hsep]
      exact (Runs.advance sep us v).bind (.pure _ _)
    rw [View.append_append] at hstep
    exact (hrest.more hstep).mono (by simp)

/-- A sequence is read up to its closer. -/
theorem runs_sequence {P : Phrase Statement} {last : Bool} {statements : List Statement}
    (hP : Within p P (Parse.Reads sub.statement Begins Kind.EndsStatement))
    (h : Sequence P last ts statements) (hts : ∀ t ∈ ts, p t) {closer : Kind}
    (hstart : closer.startsStatement = false) (hstop : last = false → closer = .braceClose) {v : View}
    (ht : v.look 0 = .ok t) (hcloser : t.kind = closer) :
    Runs (sequence sub closer last) (ts ++ v) (.ok (statements, v)) := by
  rw [sequence_eq]
  exact (loops_sequence hP h hts hstart hstop ht hcloser []).runs (by simp)

theorem runs_block (hsub : sub.Reads p parts) {b : Block} (h : Braces parts ts b)
    (hts : ∀ t ∈ ts, p t) (v : View) : Runs (block sub) (ts ++ v) (.ok (b, v)) := by
  obtain @⟨ts, t, u, statements, ht, hs, hu⟩ := h
  have hp : ∀ w ∈ ts, p w := fun w hw => hts w (by simp [hw])
  have hsequence := runs_sequence hsub.statement hs hp (v := [u] ++ v) rfl (fun _ => rfl)
    (View.look_cons_zero u [] v) hu
  rw [View.append_append] at hsequence
  exact (Runs.expect ht _ _ v).bind (hsequence.bind ((Runs.expect hu _ [] v).bind (.pure _ _)))

/-- In a group there is no name with a comma or a parenthesis behind it, but for a single one. -/
theorem runs_lambdaAhead_group (h : Opens Kind.startsOperand ts) (hu : u.kind = .parenClose)
    {v : View} {w : Token} (hw : v.look 0 = .ok w) (harrow : w.kind ≠ .arrow) (t : Token) :
    Runs lambdaAhead ((t :: ts ++ [u]) ++ v) (.ok (false, (t :: ts ++ [u]) ++ v)) := by
  obtain ⟨first, ts, rfl, hfirst, hname⟩ := h
  refine (Runs.peekKind (n := 1) (t := first) rfl).bind ?_
  rw [if_neg (by intro hk; rw [hk] at hfirst; cases hfirst), parametersAhead_eq]
  refine Loops.runs (k := 0) (.done ((Runs.peekKind (n := 1) (t := first) rfl).bind ?_)) (Nat.zero_le _)
  split
  · next hidentifier =>
    cases ts with
    | nil =>
      refine (Runs.peekKind (n := 2) (t := u) rfl).bind ?_
      rw [hu]
      refine (Runs.peekKind (n := 3) (t := w) (by simpa using hw)).bind ?_
      rw [decide_eq_false harrow]
      exact .pure _ _
    | cons second ts =>
      refine (Runs.peekKind (n := 2) (t := second) rfl).bind ?_
      have hjoins := hname hidentifier second rfl
      split
      · next hk =>
        rw [hk] at hjoins
        exact absurd hjoins.1 (by decide)
      · next hk =>
        rw [hk] at hjoins
        exact absurd hjoins.1 (by decide)
      · exact .pure _ _
  · exact .pure _ _

/-- Factors that their last token closes are read as they stand. -/
theorem reads_atom (hsub : sub.Reads p parts) :
    Within p (Atom parts) (Parse.Reads (factor sub) (Opens Kind.startsFactor) (·.layer < 9)) := by
  intro ts e h hts
  cases h with
  | @constant t ht =>
    have hstarts : ∀ k ∈ [Kind.integer, .text, .boolean, .null], k.startsFactor := by decide
    refine ⟨.single (hstarts t.kind ht), fun v _ _ _ => ?_⟩
    have hread : Runs constant ([t] ++ v) (.ok (.constant (literalOf t.value) t.position, v)) :=
      (Runs.advance t [] v).bind (.pure _ _)
    refine (Runs.peekKind (View.look_cons_zero t [] v)).bind ?_
    simp only [List.mem_cons, List.not_mem_nil, or_false] at ht
    obtain h | h | h | h := ht <;> rw [h] <;> exact hread
  | @reference t ht =>
    refine ⟨.single (by rw [ht]; rfl), fun v _ _ _ => ?_⟩
    refine (Runs.peekKind (View.look_cons_zero t [] v)).bind ?_
    rw [ht]
    exact (Runs.advance t [] v).bind (.pure _ _)
  | @block ts b hb =>
    have hblock := runs_block hsub hb hts
    obtain @⟨ts, t, u, statements, ht, _, _⟩ := hb
    refine ⟨.cons (by rw [ht]; rfl) (by rw [ht]; decide) _, fun v _ _ _ => ?_⟩
    refine (Runs.peekKind (View.look_cons_zero t _ v)).bind ?_
    rw [ht]
    exact (hblock v).bind (.pure _ _)
  | @group ts t u e ht he hu =>
    have hread := hsub.expression _ _ he fun w hw => hts w (by simp [hw])
    refine ⟨.cons (by rw [ht]; rfl) (by rw [ht]; decide) _, fun v w hw hlayer => ?_⟩
    have hinner := hread.runs ([u] ++ v) u rfl (by rw [hu]; decide)
    rw [View.append_append] at hinner
    have harrow : w.kind ≠ .arrow := by
      intro hk
      rw [hk] at hlayer
      exact absurd hlayer (by decide)
    refine (Runs.peekKind (View.look_cons_zero t _ v)).bind ?_
    rw [ht]
    refine (runs_lambdaAhead_group hread.start hu hw harrow t).bind ?_
    exact (Runs.advance t _ v).bind (hinner.bind ((Runs.expect hu _ [] v).bind (.pure _ _)))

/-! ### Calls, signs and chains -/

/-- Reads an argument and the comma behind it. -/
def nextArgument (sub : Layers) (given : List Expression) :
    Parse (Progress (List Expression) (List Expression)) := do
  let e ← sub.expression
  if (← peekKind 0) = .comma then
    let _ ← advance
    return .more (given ++ [e])
  else
    return .done (given ++ [e])

theorem arguments_eq : arguments sub = (do
    if (← peekKind 0) = .parenClose then return []
    else iterate id (nextArgument sub) []) := rfl

theorem loops_arguments {P : Phrase Expression} {es : List Expression}
    (hP : Within p P (Parse.Reads sub.expression (Opens Kind.startsOperand) (·.layer < 1)))
    (h : Series P ts es) (hts : ∀ t ∈ ts, p t) (hu : u.kind = .parenClose) (read : List Expression)
    (v : View) :
    Loops id (nextArgument sub) ts.length read ((ts ++ [u]) ++ v) (.ok (read ++ es, [u] ++ v)) := by
  induction h generalizing read with
  | @last ts e he =>
    have hread := (hP _ _ he hts).runs ([u] ++ v) u rfl (by rw [hu]; decide)
    rw [View.append_append] at hread
    refine .done (hread.bind ((Runs.peekKind (View.look_cons_zero u [] v)).bind ?_))
    rw [if_neg (by rw [hu]; decide)]
    exact .pure _ _
  | @more ts us comma e es he hcomma _ ih =>
    rw [List.forall_mem_append, List.forall_mem_cons] at hts
    have hrest := ih hts.2.2 (read ++ [e])
    rw [List.append_assoc] at hrest
    have hread := (hP _ _ he hts.1).runs ((comma :: us ++ [u]) ++ v) comma rfl (by rw [hcomma]; decide)
    rw [View.append_append, ← List.append_assoc] at hread
    refine (hrest.more (hread.bind ((Runs.peekKind (View.look_cons_zero comma _ v)).bind ?_))).mono
      (by simp)
    rw [if_pos hcomma]
    exact (Runs.advance comma _ v).bind (.pure _ _)

theorem runs_arguments {P : Phrase Expression} {es : List Expression}
    (hP : Within p P (Parse.Reads sub.expression (Opens Kind.startsOperand) (·.layer < 1)))
    (h : Listed P ts es) (hts : ∀ t ∈ ts, p t) (hu : u.kind = .parenClose) (v : View) :
    Runs (arguments sub) ((ts ++ [u]) ++ v) (.ok (es, [u] ++ v)) := by
  rw [arguments_eq]
  cases h with
  | none =>
    refine (Runs.peekKind (View.look_cons_zero u [] v)).bind ?_
    rw [if_pos hu]
    exact .pure _ _
  | some hes =>
    obtain ⟨t, ws, rfl, ht⟩ : ∃ t ws, ts = t :: ws ∧ t.kind.startsOperand := by
      cases hes with
      | last he =>
        obtain ⟨t, ws, rfl, ht, _⟩ := (hP _ _ he hts).start
        exact ⟨t, ws, rfl, ht⟩
      | more he _ _ =>
        obtain ⟨t, ws, rfl, ht, _⟩ := (hP _ _ he fun w hw => hts w (by simp [hw])).start
        exact ⟨t, _, rfl, ht⟩
    refine (Runs.peekKind (View.look_cons_zero t _ v)).bind ?_
    rw [if_neg (by intro hk; rw [hk] at ht; cases ht)]
    exact (loops_arguments hP hes hts hu [] v).runs (by simp)

/-- Reads the arguments of a further call. -/
def nextCall (sub : Layers) (callee : Expression) : Parse (Progress Expression Expression) := do
  if (← peekKind 0) = .parenOpen then
    let paren ← advance
    let given ← arguments sub
    let _ ← expect .parenClose .argumentsEnd
    return .more (.call callee given paren.position)
  else
    return .done callee

theorem call_eq : call sub = (factor sub >>= fun first => iterate id (nextCall sub) first) := rfl

theorem loops_call_end {v : View} (ht : v.look 0 = .ok t) (hlayer : t.kind.layer < 8)
    (e : Expression) : Loops id (nextCall sub) 0 e v (.ok (e, v)) := by
  refine .done ((Runs.peekKind ht).bind ?_)
  rw [if_neg (by intro hk; rw [hk] at hlayer; exact absurd hlayer (by decide))]
  exact .pure _ _

section
variable {F E : Phrase Expression}
  (hF : Within p F (Parse.Reads (factor sub) (Opens Kind.startsFactor) (·.layer < 9)))
  (hE : Within p E (Parse.Reads sub.expression (Opens Kind.startsOperand) (·.layer < 1)))
include hF

theorem opens_call {e : Expression} (h : Call F E ts e) (hts : ∀ t ∈ ts, p t) :
    Opens Kind.startsFactor ts := by
  induction h with
  | factor he => exact (hF _ _ he hts).start
  | @call ts us t u e given _ ht _ _ ih =>
    have hopens := ih fun w hw => hts w (by simp [hw])
    rw [List.append_assoc, List.cons_append]
    exact hopens.append (by rw [Kind.Joins, ht]; decide) _

include hE

/-- What is behind a call decides how the calls of it go on. -/
theorem runs_call {e : Expression} (h : Call F E ts e) (hts : ∀ t ∈ ts, p t) {v : View}
    (ht : v.look 0 = .ok t) (hlayer : t.kind.layer < 9) {k : Nat} (hk : k ≤ v.tokens.length)
    {r : Except Error (Expression × View)} (hloops : Loops id (nextCall sub) k e v r) :
    Runs (call sub) (ts ++ v) r := by
  induction h generalizing v t k with
  | factor he =>
    rw [call_eq]
    exact ((hF _ _ he hts).runs v t ht hlayer).bind (hloops.runs hk)
  | @call ts us paren u e given _ hparen hgiven hu ih =>
    have hp : (∀ w ∈ ts, p w) ∧ ∀ w ∈ us, p w := by
      simp only [List.forall_mem_append, List.forall_mem_cons] at hts
      exact ⟨hts.1.1, hts.1.2.2⟩
    have hstep : Runs (nextCall sub e) ((paren :: us ++ [u]) ++ v)
        (.ok (.more (.call e given paren.position), v)) := by
      refine (Runs.peekKind (View.look_cons_zero paren _ v)).bind ?_
      rw [if_pos hparen]
      exact (Runs.advance paren _ v).bind ((runs_arguments hE hgiven hp.2 hu v).bind
        ((Runs.expect hu _ [] v).bind (.pure _ _)))
    rw [List.append_assoc, ← View.append_append]
    exact ih hp.1 (View.look_cons_zero paren _ v) (by rw [hparen]; decide) (by simp; omega)
      (hloops.more hstep)

theorem reads_call : Within p (Call F E)
    (Parse.Reads (call sub) (Opens Kind.startsFactor) (·.layer < 8)) := by
  intro ts e h hts
  refine ⟨opens_call hF h hts, fun v t ht hlayer => ?_⟩
  exact runs_call hF hE h hts ht (Nat.lt_succ_of_lt hlayer) (Nat.zero_le _)
    (loops_call_end ht hlayer e)

end

theorem reads_unary {C U : Phrase Expression}
    (hC : Within p C (Parse.Reads (call sub) (Opens Kind.startsFactor) (·.layer < 8)))
    (hU : Within p U (Parse.Reads sub.unary (Opens Kind.startsOperand) (·.layer < 7))) :
    Within p (Unary C U) (Parse.Reads (unary sub) (Opens Kind.startsOperand) (·.layer < 7)) := by
  intro ts e h hts
  cases h with
  | @negate ts sign e hsign he =>
    have hread := hU _ _ he fun w hw => hts w (by simp [hw])
    refine ⟨.cons (by rw [hsign]; rfl) (by rw [hsign]; decide) _, fun v t ht hlayer => ?_⟩
    refine (Runs.peekKind (View.look_cons_zero sign ts v)).bind ?_
    rw [if_pos hsign]
    exact (Runs.advance sign ts v).bind ((hread.runs v t ht hlayer).bind (.pure _ _))
  | call he =>
    have hread := hC _ _ he hts
    refine ⟨hread.start.mono Kind.startsOperand_of_startsFactor, fun v t ht hlayer => ?_⟩
    have hruns := hread.runs v t ht (Nat.lt_succ_of_lt hlayer)
    obtain ⟨first, us, rfl, hfirst, _⟩ := hread.start
    refine (Runs.peekKind (View.look_cons_zero first us v)).bind ?_
    rw [if_neg (by intro hk; rw [hk] at hfirst; cases hfirst)]
    exact hruns

/-- Reads an operator and its right operand. -/
def nextOperand (operator? : Kind → Option Operator) (operand : Parse Expression)
    (left : Expression) : Parse (Progress Expression Expression) := do
  match operator? (← peekKind 0) with
  | none => return .done left
  | some operator =>
    let sign ← advance
    let right ← operand
    return .more (.binary operator left right sign.position)

theorem leftChain_eq (operator? : Kind → Option Operator) (operand : Parse Expression) :
    leftChain operator? operand =
      (operand >>= fun first => iterate id (nextOperand operator? operand) first) := rfl

theorem loops_leftChain_end {operator? : Kind → Option Operator} {operand : Parse Expression}
    {v : View} (ht : v.look 0 = .ok t) (hnone : operator? t.kind = none) (e : Expression) :
    Loops id (nextOperand operator? operand) 0 e v (.ok (e, v)) := by
  refine .done ((Runs.peekKind ht).bind ?_)
  rw [hnone]
  exact .pure _ _

section
variable {operator? : Kind → Option Operator} {operand : Parse Expression} {P : Phrase Expression}
  {l : Nat} (hP : Within p P (Parse.Reads operand (Opens Kind.startsOperand) (·.layer < l + 1)))
  (hlayer : ∀ k, (operator? k).isSome → k.layer = l)
include hP hlayer

theorem opens_leftChain (hl : 0 < l ∧ l < 9) {e : Expression} (h : LeftChain operator? P ts e)
    (hts : ∀ t ∈ ts, p t) : Opens Kind.startsOperand ts := by
  induction h with
  | single he => exact (hP _ _ he hts).start
  | @join ts us t left right operator _ ht _ ih =>
    have hjoins : t.kind.Joins := by
      rw [Kind.Joins, hlayer _ (by rw [ht]; rfl)]
      exact hl
    exact (ih fun w hw => hts w (by simp [hw])).append hjoins us

/-- What is behind a chain decides how it goes on. -/
theorem runs_leftChain {e : Expression} (h : LeftChain operator? P ts e) (hts : ∀ t ∈ ts, p t)
    {v : View} (ht : v.look 0 = .ok t) (hstop : t.kind.layer < l + 1) {k : Nat}
    (hk : k ≤ v.tokens.length) {r : Except Error (Expression × View)}
    (hloops : Loops id (nextOperand operator? operand) k e v r) :
    Runs (leftChain operator? operand) (ts ++ v) r := by
  induction h generalizing v t k with
  | single he =>
    rw [leftChain_eq]
    exact ((hP _ _ he hts).runs v t ht hstop).bind (hloops.runs hk)
  | @join ts us sign left right operator _ hsign hright ih =>
    rw [List.forall_mem_append, List.forall_mem_cons] at hts
    have hstep : Runs (nextOperand operator? operand left) ((sign :: us) ++ v)
        (.ok (.more (.binary operator left right sign.position), v)) := by
      refine (Runs.peekKind (View.look_cons_zero sign us v)).bind ?_
      rw [hsign]
      exact (Runs.advance sign us v).bind
        (((hP _ _ hright hts.2.2).runs v t ht hstop).bind (.pure _ _))
    have hsign' := hlayer sign.kind (by rw [hsign]; rfl)
    rw [← View.append_append]
    exact ih hts.1 (View.look_cons_zero sign us v) (by omega) (by simp; omega) (hloops.more hstep)

theorem reads_leftChain (hl : 0 < l ∧ l < 9) : Within p (LeftChain operator? P)
    (Parse.Reads (leftChain operator? operand) (Opens Kind.startsOperand) (·.layer < l)) := by
  intro ts e h hts
  refine ⟨opens_leftChain hP hlayer hl h hts, fun v t ht hstop => ?_⟩
  exact runs_leftChain hP hlayer h hts ht (Nat.lt_succ_of_lt hstop) (Nat.zero_le _)
    (loops_leftChain_end ht (Kind.operator?_of_layer_ne hlayer (Nat.ne_of_lt hstop)) e)

end

theorem reads_comparison {P : Phrase Expression}
    (hP : Within p P (Parse.Reads (coalescing sub) (Opens Kind.startsOperand) (·.layer < 4))) :
    Within p (Comparison P)
      (Parse.Reads (comparison sub) (Opens Kind.startsOperand) (·.layer < 3)) := by
  intro ts e h hts
  cases h with
  | single he =>
    have hread := hP _ _ he hts
    refine ⟨hread.start, fun v t ht hstop => ?_⟩
    refine (hread.runs v t ht (Nat.lt_succ_of_lt hstop)).bind ((Runs.peekKind ht).bind ?_)
    rw [Kind.operator?_of_layer_ne Kind.layer_of_comparison (Nat.ne_of_lt hstop)]
    exact .pure _ _
  | @compare ts us sign left right operator hleft hsign hright =>
    rw [List.forall_mem_append, List.forall_mem_cons] at hts
    have hsign' := sign.kind.layer_of_comparison (by rw [hsign]; rfl)
    have hread := hP _ _ hleft hts.1
    refine ⟨hread.start.append (by rw [Kind.Joins, hsign']; decide) us, fun v t ht hstop => ?_⟩
    have hruns := hread.runs ((sign :: us) ++ v) sign rfl (by omega)
    rw [View.append_append] at hruns
    refine hruns.bind ((Runs.peekKind (View.look_cons_zero sign us v)).bind ?_)
    rw [hsign]
    exact (Runs.advance sign us v).bind
      (((hP _ _ hright hts.2.2).runs v t ht (Nat.lt_succ_of_lt hstop)).bind (.pure _ _))

/-- The layers of operators, over any operands that are read. -/
theorem reads_disjunction {P : Phrase Expression}
    (hP : Within p P (Parse.Reads (unary sub) (Opens Kind.startsOperand) (·.layer < 7))) :
    Within p (Disjunction P)
      (Parse.Reads (disjunction sub) (Opens Kind.startsOperand) (·.layer < 1)) := by
  have hproduct : Within p (Product P)
      (Parse.Reads (multiplicative sub) (Opens Kind.startsOperand) (·.layer < 6)) :=
    reads_leftChain hP Kind.layer_of_multiplicative (by decide)
  have hsum : Within p (Sum P)
      (Parse.Reads (additive sub) (Opens Kind.startsOperand) (·.layer < 5)) :=
    reads_leftChain hproduct Kind.layer_of_additive (by decide)
  have hcoalescing : Within p (Coalescing P)
      (Parse.Reads (coalescing sub) (Opens Kind.startsOperand) (·.layer < 4)) :=
    reads_leftChain hsum Kind.layer_of_coalescing (by decide)
  have hconjunction : Within p (Conjunction P)
      (Parse.Reads (conjunction sub) (Opens Kind.startsOperand) (·.layer < 2)) :=
    reads_leftChain (reads_comparison hcoalescing) Kind.layer_of_and (by decide)
  exact reads_leftChain hconjunction Kind.layer_of_or (by decide)

/-! ### Statements -/

section
variable {S : Kind → Prop}

theorem reads_bind {binding : Binding} {s : Statement} (ht : t.kind = .identifier)
    (hu : binding? u.kind = some binding) (hs : Parse.Reads sub.statement Begins S ts s) :
    Parse.Reads (statement sub) Begins S (t :: u :: ts) (.bind binding t.words s t.position) := by
  refine ⟨⟨t, u :: ts, rfl, by rw [ht]; rfl⟩, fun v w hw hstop => ?_⟩
  refine (Runs.peekKind (View.look_cons_zero t _ v)).bind ?_
  rw [ht]
  refine (Runs.peekKind (n := 1) (t := u) rfl).bind ?_
  rw [hu]
  exact (Runs.advance t _ v).bind ((Runs.advance u ts v).bind ((hs.runs v w hw hstop).bind (.pure _ _)))

theorem reads_breakOut (ht : t.kind = .breakWord) (hS : ∀ k, S k → endsBreak k) :
    Parse.Reads (statement sub) Begins S [t] (.breakOut none t.position) := by
  refine ⟨⟨t, [], rfl, by rw [ht]; rfl⟩, fun v w hw hstop => ?_⟩
  refine (Runs.peekKind (View.look_cons_zero t _ v)).bind ?_
  rw [ht]
  refine (Runs.expect ht _ [] v).bind ((Runs.peekKind hw).bind ?_)
  rw [if_pos (hS _ hstop)]
  exact .pure _ _

theorem reads_breakWith {s : Statement} (ht : t.kind = .breakWord)
    (hs : Parse.Reads sub.statement Begins S ts s) :
    Parse.Reads (statement sub) Begins S (t :: ts) (.breakOut (some s) t.position) := by
  refine ⟨⟨t, ts, rfl, by rw [ht]; rfl⟩, fun v w hw hstop => ?_⟩
  have hruns := hs.runs v w hw hstop
  obtain ⟨first, us, rfl, hfirst⟩ := hs.start
  refine (Runs.peekKind (View.look_cons_zero t _ v)).bind ?_
  rw [ht]
  refine (Runs.expect ht _ _ v).bind ((Runs.peekKind (View.look_cons_zero first us v)).bind ?_)
  have hends : endsBreak first.kind = false := by
    revert hfirst
    cases first.kind <;> decide
  rw [hends]
  exact hruns.bind (.pure _ _)

/-- An expression stands as a statement in front of all that stops it. -/
theorem reads_expression {e : Expression}
    (he : Parse.Reads sub.expression (Opens Kind.startsOperand) S ts e) (hS : ∀ k, S k → k.layer < 9) :
    Parse.Reads (statement sub) Begins S ts (.expression e) := by
  refine ⟨he.start.begins, fun v w hw hstop => ?_⟩
  have hruns : Runs (do return Statement.expression (← sub.expression)) (ts ++ v)
      (.ok (.expression e, v)) := (he.runs v w hw hstop).bind (.pure _ _)
  obtain ⟨t, us, rfl, ht, hname⟩ := he.start
  refine (Runs.peekKind (View.look_cons_zero t us v)).bind ?_
  split
  · next hk =>
    rw [hk] at ht
    cases ht
  · next hk =>
    rw [hk] at ht
    cases ht
  · next hk =>
    rw [hk] at ht
    cases ht
  · next hk =>
    obtain ⟨u, hu, hcases⟩ := View.look_zero_append hw us
    have hlayer : u.kind.layer < 9 := by
      obtain hhead | ⟨_, rfl⟩ := hcases
      · exact (hname hk u hhead).2
      · exact hS _ hstop
    refine (Runs.peekKind (n := 1) ((View.look_cons_succ t us v 0).trans hu)).bind ?_
    rw [u.kind.binding?_of_layer hlayer]
    exact hruns
  · exact hruns

end

/-- A program is read up to an end of text. -/
theorem runs_program (hsub : sub.Reads p parts) {statements : List Statement}
    (hs : Sequence parts.statement true ts statements) (hts : ∀ t ∈ ts, p t) {v : View}
    {first last : Token} (hfirst : (ts ++ v).look 0 = .ok first) (hlast : v.look 0 = .ok last)
    (hend : last.kind = .endOfText) :
    Runs (program sub) (ts ++ v) (.ok (⟨statements, first.position⟩, v)) := by
  have hpeek := Runs.peek (ts ++ v) 0
  rw [hfirst] at hpeek
  have hsequence := runs_sequence hsub.statement hs hts rfl nofun hlast hend
  exact hpeek.bind (hsequence.bind (.pure _ _))

end Grammar

end Lumen
