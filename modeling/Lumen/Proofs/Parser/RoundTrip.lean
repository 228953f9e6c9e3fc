import Lumen.Proofs.Parser.OpenEnds
import Lumen.Proofs.Parser.Soundness
import Lumen.Proofs.Syntax.Render

/-! What is written is read back.

The words of a tree, as tokens at any places, are read as the tree up to those places
(`Statement.Restored`, `Expression.Restored`), with as many levels of nesting as the written form
has. An expression is found in the layer that it is written in, so that it can be taken for an
operand in any looser layer (`InLayer.mono`); where it is in parentheses it is a factor. There is
one lemma for each construction, and they are put together along the tree. -/
namespace Lumen
open Parse Phrase Grammar
open Token (Kind Word)

/-! ### Layers -/

/-- What the nested readings read. -/
def Grammar.Layers.reading (sub : Layers) : Parts :=
  ⟨Parse.Reads sub.statement Begins Kind.EndsStatement,
    Parse.Reads sub.expression (Opens Kind.startsOperand) (·.layer < 1),
    Parse.Reads sub.unary (Opens Kind.startsOperand) (·.layer < 7)⟩

theorem Grammar.Layers.reads_reading (sub : Layers) : sub.Reads (fun _ => True) sub.reading :=
  ⟨fun _ _ h _ => h, fun _ _ h _ => h, fun _ _ h _ => h⟩

/-- The phrases of an expression whose factors end with their last token. -/
def closedCall (sub : Layers) : Phrase Expression := Call (Atom sub.reading) sub.reading.expression

def closedOperand (sub : Layers) : Phrase Expression := Unary (closedCall sub) sub.reading.unary

/-- The expressions of a layer, over the nested readings. In layer 0 are those that nothing may
follow. -/
def InLayer (sub : Layers) : Nat → Phrase Expression
  | 0 => Parse.Reads (disjunction sub) (Opens Kind.startsOperand) (·.layer < 1)
  | 1 => Disjunction (closedOperand sub)
  | 2 => Conjunction (closedOperand sub)
  | 3 => Comparison (Coalescing (closedOperand sub))
  | 4 => Coalescing (closedOperand sub)
  | 5 => Sum (closedOperand sub)
  | 6 => Product (closedOperand sub)
  | 7 => closedOperand sub
  | 8 => closedCall sub
  | _ + 9 => Atom sub.reading

namespace InLayer
variable {sub : Layers} {ts us : List Token} {t : Token} {e left right : Expression}

theorem reads_closedOperand (sub : Layers) : Within (fun _ => True) (closedOperand sub)
    (Parse.Reads (unary sub) (Opens Kind.startsOperand) (·.layer < 7)) :=
  reads_unary (reads_call (reads_atom sub.reads_reading) sub.reads_reading.expression)
    sub.reads_reading.unary

theorem reads (h : InLayer sub 1 ts e) : InLayer sub 0 ts e :=
  reads_disjunction (reads_closedOperand sub) ts e h fun _ _ => trivial

/-- What is in a layer is in the next looser one. -/
theorem loosen : {l : Nat} → InLayer sub (l + 1) ts e → InLayer sub l ts e
  | 0, h => h.reads
  | 1, h => .single h
  | 2, h => .single h
  | 3, h => .single h
  | 4, h => .single h
  | 5, h => .single h
  | 6, h => .single h
  | 7, h => .call h
  | 8, h => .factor h
  | _ + 9, h => h

theorem mono {l m : Nat} (hl : l ≤ m) (h : InLayer sub m ts e) : InLayer sub l ts e := by
  induction hl with
  | refl => exact h
  | step _ ih => exact ih h.loosen

theorem binary {operator : Operator} (hleft : InLayer sub operator.leftLayer ts left)
    (ht : t.kind = operator.kind) (hright : InLayer sub (operator.layer + 1) us right) :
    InLayer sub operator.layer (ts ++ t :: us) (.binary operator left right t.position) := by
  cases operator with
  | or => exact .join hleft (by rw [ht]; rfl) hright
  | and => exact .join hleft (by rw [ht]; rfl) hright
  | nullCoalescing => exact .join hleft (by rw [ht]; rfl) hright
  | add => exact .join hleft (by rw [ht]; rfl) hright
  | subtract => exact .join hleft (by rw [ht]; rfl) hright
  | multiply => exact .join hleft (by rw [ht]; rfl) hright
  | divide => exact .join hleft (by rw [ht]; rfl) hright
  | _ => exact .compare hleft (by rw [ht]; rfl) hright

end InLayer

/-! ### Readings up to places -/

/-- Whatever ends a statement. An expression that stands as one ends in front of more. -/
def Statement.Stops : Statement → Kind → Prop
  | .expression _ => (·.layer < 1)
  | _ => Kind.EndsStatement

def Statement.Restored (s : Statement) : Prop :=
  ∀ (n : Nat) (ts : List Token), s.levels ≤ n → ts.map Token.word = s.words →
    ∃ s', s'.unplaced = s.unplaced ∧ Parse.Reads (layers n).statement Begins s.Stops ts s'

def Expression.Restored (e : Expression) : Prop :=
  ∀ (n : Nat) (ts : List Token), e.levels ≤ n → ts.map Token.word = e.words →
    ∃ e', e'.unplaced = e.unplaced ∧ InLayer (layers n) e.layer ts e'

def Block.Restored (b : Block) : Prop :=
  ∀ (n : Nat) (ts : List Token), b.levels ≤ n → ts.map Token.word = b.words →
    ∃ b', b'.unplaced = b.unplaced ∧ Braces (layers n).reading ts b'

def Lambda.Restored (f : Lambda) : Prop :=
  ∀ (n : Nat) (ts : List Token), f.levels ≤ n → ts.map Token.word = f.words →
    ∃ f', f'.unplaced = f.unplaced ∧
      Parse.Reads (factor (layers n)) (Opens Kind.startsFactor) (·.layer < 1) ts (.lambda f')

def Branch.Restored (b : Branch) : Prop :=
  ∀ (n : Nat) (ts : List Token), b.levels ≤ n → ts.map Token.word = b.words →
    ∃ b' t us, b'.unplaced = b.unplaced ∧ ts = t :: us ∧ t.kind = .ifWord ∧
      Parse.Reads (branch (layers n)) (fun _ => True) (·.layer < 1) us b'

theorem Token.kind_of_word {t : Token} {w : Word} (h : t.word = w) : t.kind = w.kind :=
  congrArg Word.kind h

theorem Token.words_of_name {t : Token} {s : String} (h : t.word = .name s) : t.words = s := by
  have hvalue : t.value = .text s := congrArg Word.value h
  rw [Token.words, hvalue]

/-- Tokens between two others. -/
theorem Token.enclosed_of_words {ts : List Token} {w w' : Word} {ws : List Word}
    (h : ts.map Token.word = w :: ws ++ [w']) :
    ∃ t us u, ts = t :: us ++ [u] ∧ t.word = w ∧ us.map Token.word = ws ∧ u.word = w' := by
  obtain ⟨t, rest, rfl, ht, hrest⟩ := List.map_eq_cons_iff.mp h
  obtain ⟨us, last, rfl, hus, hlast⟩ := List.map_eq_append_iff.mp hrest
  obtain ⟨u, rfl, hu⟩ := List.map_eq_singleton_iff.mp hlast
  exact ⟨t, us, u, rfl, ht, hus, hu⟩

/-! ### Expressions -/

namespace Expression.Restored
variable {e left right : Expression} {n : Nat} {ts : List Token} {p : Position}

/-- An expression that stands as a statement, as an argument or in parentheses. -/
theorem standing (h : e.Restored) (hn : e.levels + 1 ≤ n) (hts : ts.map Token.word = e.words) :
    ∃ e', e'.unplaced = e.unplaced ∧ (layers n).reading.expression ts e' := by
  obtain ⟨n, rfl⟩ : ∃ m, n = m + 1 := ⟨n - 1, by omega⟩
  obtain ⟨e', he', hlayer⟩ := h n ts (by omega) hts
  exact ⟨e', he', hlayer.mono (Nat.zero_le _)⟩

/-- An operand of a layer, in parentheses if it needs them. -/
theorem operand (h : e.Restored) {l : Nat} (hl : l ≤ 9) (hn : e.levels + e.groups l ≤ n)
    (hts : ts.map Token.word = grouped e.words (e.groups l)) :
    ∃ e', e'.unplaced = e.unplaced ∧ InLayer (layers n) l ts e' := by
  unfold groups at hn hts
  split at hts
  · next hlayer =>
    rw [if_pos hlayer] at hn
    obtain ⟨t, us, u, rfl, ht, hus, hu⟩ := Token.enclosed_of_words hts
    obtain ⟨e', he', hread⟩ := h.standing hn hus
    have hgroup : InLayer (layers n) 9 (t :: us ++ [u]) e' :=
      .group (Token.kind_of_word ht) hread (Token.kind_of_word hu)
    exact ⟨e', he', hgroup.mono hl⟩
  · next hlayer =>
    rw [if_neg hlayer] at hn
    obtain ⟨e', he', hin⟩ := h n ts hn hts
    exact ⟨e', he', hin.mono (Nat.le_of_not_lt hlayer)⟩

theorem binary (hleft : left.Restored) (operator : Operator) (hright : right.Restored) :
    (Expression.binary operator left right p).Restored := by
  intro n ts hn hts
  rw [Expression.levels, Nat.max_le] at hn
  rw [Expression.words] at hts
  obtain ⟨us, rest, rfl, hus, hrest⟩ := List.map_eq_append_iff.mp hts
  obtain ⟨t, ws, rfl, ht, hws⟩ := List.map_eq_cons_iff.mp hrest
  have hbound : operator.leftLayer ≤ 9 ∧ operator.layer + 1 ≤ 9 := by cases operator <;> decide
  obtain ⟨left', hleft', hin⟩ := hleft.operand hbound.1 hn.1 hus
  obtain ⟨right', hright', hin'⟩ := hright.operand hbound.2 hn.2 hws
  refine ⟨.binary operator left' right' t.position, ?_, hin.binary (Token.kind_of_word ht) hin'⟩
  rw [Expression.unplaced, Expression.unplaced, hleft', hright']

theorem negate (h : e.Restored) : (Expression.negate e p).Restored := by
  intro n ts hn hts
  rw [Expression.levels] at hn
  rw [Expression.words] at hts
  obtain ⟨t, us, rfl, ht, hus⟩ := List.map_eq_cons_iff.mp hts
  obtain ⟨n, rfl⟩ : ∃ m, n = m + 1 := ⟨n - 1, by omega⟩
  obtain ⟨e', he', hin⟩ := h.operand (by decide) (Nat.le_of_succ_le_succ hn) hus
  have hread := InLayer.reads_closedOperand (layers n) us e' hin fun _ _ => trivial
  refine ⟨.negate e' t.position, ?_, .negate (Token.kind_of_word ht) hread⟩
  rw [Expression.unplaced, Expression.unplaced, he']

theorem constant (v : Literal) : (Expression.constant v p).Restored := by
  intro n ts hn hts
  rw [Expression.words] at hts
  obtain ⟨t, rfl, ht⟩ := List.map_eq_singleton_iff.mp hts
  have hvalue : t.kind ∈ [.integer, .text, .boolean, .null] ∧ literalOf t.value = v := by
    rw [Token.kind_of_word ht, show t.value = v.word.value from congrArg Word.value ht]
    cases v <;> exact ⟨by simp [Literal.word, Word.sign], rfl⟩
  refine ⟨.constant (literalOf t.value) t.position, ?_, .constant hvalue.1⟩
  rw [Expression.unplaced, Expression.unplaced, hvalue.2]

theorem reference (name : String) : (Expression.reference name p).Restored := by
  intro n ts hn hts
  rw [Expression.words] at hts
  obtain ⟨t, rfl, ht⟩ := List.map_eq_singleton_iff.mp hts
  refine ⟨.reference t.words t.position, ?_, .reference (Token.kind_of_word ht)⟩
  rw [Expression.unplaced, Expression.unplaced, Token.words_of_name ht]

theorem block {b : Block} (h : b.Restored) : (Expression.block b).Restored := by
  intro n ts hn hts
  rw [Expression.levels] at hn
  rw [Expression.words] at hts
  obtain ⟨b', hb', hread⟩ := h n ts hn hts
  refine ⟨.block b', ?_, .block hread⟩
  rw [Expression.unplaced, Expression.unplaced, hb']

theorem lambda {f : Lambda} (h : f.Restored) : (Expression.lambda f).Restored := by
  intro n ts hn hts
  rw [Expression.levels] at hn
  rw [Expression.words] at hts
  obtain ⟨f', hf', hread⟩ := h n ts hn hts
  refine ⟨.lambda f', ?_, reads_disjunction_alone hread⟩
  rw [Expression.unplaced, Expression.unplaced, hf']

theorem series {es : List Expression} (hes : ∀ e ∈ es, e.Restored) (hne : es ≠ [])
    (hn : argumentLevels es ≤ n) (hts : ts.map Token.word = argumentWords es) :
    ∃ es', unplacedArguments es' = unplacedArguments es ∧
      Series (layers n).reading.expression ts es' := by
  induction es generalizing ts with
  | nil => exact absurd rfl hne
  | cons e rest ih =>
    rw [List.forall_mem_cons] at hes
    rw [argumentLevels, Nat.max_le] at hn
    cases rest with
    | nil =>
      rw [argumentWords] at hts
      obtain ⟨e', he', hread⟩ := hes.1.standing hn.1 hts
      exact ⟨[e'], by simp [unplacedArguments, he'], .last hread⟩
    | cons next rest =>
      rw [argumentWords] at hts
      obtain ⟨us, more, rfl, hus, hmore⟩ := List.map_eq_append_iff.mp hts
      obtain ⟨t, ws, rfl, ht, hws⟩ := List.map_eq_cons_iff.mp hmore
      obtain ⟨e', he', hread⟩ := hes.1.standing hn.1 hus
      obtain ⟨es', hes', hseries⟩ := ih hes.2 (by simp) hn.2 hws
      refine ⟨e' :: es', ?_, .more hread (Token.kind_of_word ht) hseries⟩
      rw [unplacedArguments, unplacedArguments, he', hes']

theorem listed {es : List Expression} (hes : ∀ e ∈ es, e.Restored) (hn : argumentLevels es ≤ n)
    (hts : ts.map Token.word = argumentWords es) :
    ∃ es', unplacedArguments es' = unplacedArguments es ∧
      Listed (layers n).reading.expression ts es' := by
  cases es with
  | nil =>
    obtain rfl := List.map_eq_nil_iff.mp hts
    exact ⟨[], rfl, .none⟩
  | cons e rest =>
    obtain ⟨es', hes', hseries⟩ := series hes (by simp) hn hts
    exact ⟨es', hes', .some hseries⟩

theorem call (h : e.Restored) {given : List Expression} (hgiven : ∀ e ∈ given, e.Restored) :
    (Expression.call e given p).Restored := by
  intro n ts hn hts
  rw [Expression.levels, Nat.max_le] at hn
  rw [Expression.words] at hts
  rw [List.append_assoc] at hts
  obtain ⟨us, rest, rfl, hus, hrest⟩ := List.map_eq_append_iff.mp hts
  obtain ⟨t, ws, u, rfl, ht, hws, hu⟩ := Token.enclosed_of_words hrest
  obtain ⟨e', he', hin⟩ := h.operand (by decide) hn.1 hus
  obtain ⟨given', hgiven', hlisted⟩ := listed hgiven hn.2 hws
  have hcall : InLayer (layers n) 8 (us ++ t :: ws ++ [u]) (.call e' given' t.position) :=
    .call hin (Token.kind_of_word ht) hlisted (Token.kind_of_word hu)
  rw [List.append_assoc] at hcall
  refine ⟨.call e' given' t.position, ?_, hcall⟩
  rw [Expression.unplaced, Expression.unplaced, he', hgiven']

end Expression.Restored

/-! ### Blocks and functions -/

theorem Statement.Stops.of_endsStatement {s : Statement} {k : Kind} (h : k.EndsStatement) :
    s.Stops k := by
  cases s with
  | expression e => exact h.layer_lt
  | _ => exact h

/-- A statement of a sequence, or the value of one. -/
theorem Statement.Restored.within {s : Statement} (h : s.Restored) {n : Nat} {ts : List Token}
    (hn : s.levels ≤ n) (hts : ts.map Token.word = s.words) :
    ∃ s', s'.unplaced = s.unplaced ∧ (layers n).reading.statement ts s' := by
  obtain ⟨s', hs', hread⟩ := h n ts hn hts
  exact ⟨s', hs', hread.mono (fun _ h => h) fun _ => Stops.of_endsStatement⟩

/-- An expression that stands as a statement ends where the expression does. -/
theorem Statement.IsExpression.stops {s : Statement} (h : s.IsExpression) :
    s.Stops = (·.layer < 1) := by
  cases s with
  | expression e => rfl
  | _ => cases h

theorem Statement.IsBlock.eq_block {s : Statement} (h : s.IsBlock) :
    ∃ b, s = .expression (.block b) := by
  unfold IsBlock at h
  split at h
  · exact ⟨_, rfl⟩
  · cases h

section
variable {n : Nat} {ts : List Token} {p : Position}

theorem restored_sequence {ss : List Statement} (hss : ∀ s ∈ ss, s.Restored)
    (hn : sequenceLevels ss ≤ n) (hts : ts.map Token.word = sequenceWords ss) (last : Bool) :
    ∃ ss', unplacedSequence ss' = unplacedSequence ss ∧
      Sequence (layers n).reading.statement last ts ss' := by
  induction ss generalizing ts with
  | nil =>
    obtain rfl := List.map_eq_nil_iff.mp hts
    exact ⟨[], rfl, .none⟩
  | cons s rest ih =>
    rw [List.forall_mem_cons] at hss
    rw [sequenceLevels, Nat.max_le] at hn
    rw [sequenceWords] at hts
    obtain ⟨us, more, rfl, hus, hmore⟩ := List.map_eq_append_iff.mp hts
    obtain ⟨t, ws, rfl, ht, hws⟩ := List.map_eq_cons_iff.mp hmore
    obtain ⟨s', hs', hread⟩ := hss.1.within hn.1 hus
    obtain ⟨ss', hss', hsequence⟩ := ih hss.2 hn.2 hws
    refine ⟨s' :: ss', ?_, .more hread (Token.kind_of_word ht) hsequence⟩
    rw [unplacedSequence, unplacedSequence, hs', hss']

theorem Block.Restored.of_statements {ss : List Statement} (hss : ∀ s ∈ ss, s.Restored) :
    (Block.mk ss p).Restored := by
  intro n ts hn hts
  rw [Block.levels] at hn
  rw [Block.words] at hts
  obtain ⟨t, us, u, rfl, ht, hus, hu⟩ := Token.enclosed_of_words hts
  obtain ⟨ss', hss', hsequence⟩ := restored_sequence hss hn hus false
  refine ⟨⟨ss', t.position⟩, ?_, .block (Token.kind_of_word ht) hsequence (Token.kind_of_word hu)⟩
  rw [Block.unplaced, Block.unplaced, hss']

/-- The names of parameters, with commas between them. -/
theorem listed_parameters {names : List String} (hts : ts.map Token.word = parameterWords names) :
    Listed Name ts names := by
  have hname : ∀ {t : Token} {name : String}, t.word = .name name → Name [t] name := by
    intro t name ht
    have h := Name.name (Token.kind_of_word ht)
    rwa [Token.words_of_name ht] at h
  have hseries : ∀ names ts, names ≠ [] → ts.map Token.word = parameterWords names →
      Series Name ts names := by
    intro names
    induction names with
    | nil => exact fun _ h => absurd rfl h
    | cons name rest ih =>
      intro ts _ hts
      cases rest with
      | nil =>
        obtain ⟨t, rfl, ht⟩ := List.map_eq_singleton_iff.mp hts
        exact .last (hname ht)
      | cons next rest =>
        obtain ⟨t, more, rfl, ht, hmore⟩ := List.map_eq_cons_iff.mp hts
        obtain ⟨comma, us, rfl, hcomma, hus⟩ := List.map_eq_cons_iff.mp hmore
        exact .more (hname ht) (Token.kind_of_word hcomma) (ih us (by simp) hus)
  cases names with
  | nil =>
    obtain rfl := List.map_eq_nil_iff.mp hts
    exact .none
  | cons name rest => exact .some (hseries _ ts (by simp) hts)

theorem Lambda.Restored.of_body {body : Statement} (hbody : body.IsExpression) (h : body.Restored)
    (names : List String) : (Lambda.mk names body p).Restored := by
  intro n ts hn hts
  rw [Lambda.levels] at hn
  rw [Lambda.words] at hts
  obtain ⟨t, rest, rfl, ht, hrest⟩ := List.map_eq_cons_iff.mp hts
  obtain ⟨us, more, rfl, hus, hmore⟩ := List.map_eq_append_iff.mp hrest
  obtain ⟨u, more, rfl, hu, hmore⟩ := List.map_eq_cons_iff.mp hmore
  obtain ⟨arrow, ws, rfl, harrow, hws⟩ := List.map_eq_cons_iff.mp hmore
  obtain ⟨body', hbody', hread⟩ := h n ws hn hws
  rw [hbody.stops] at hread
  refine ⟨⟨names, body', t.position⟩, ?_, reads_lambda (Token.kind_of_word ht)
    (listed_parameters hus) (Token.kind_of_word hu) (Token.kind_of_word harrow) hread⟩
  rw [Lambda.unplaced, Lambda.unplaced, hbody']

end

/-! ### Statements -/

namespace Statement.Restored
variable {s guard body : Statement} {n : Nat} {ts : List Token} {p : Position}

theorem bind (h : s.Restored) (binding : Binding) (name : String) :
    (Statement.bind binding name s p).Restored := by
  intro n ts hn hts
  rw [Statement.levels] at hn
  rw [Statement.words] at hts
  obtain ⟨t, rest, rfl, ht, hrest⟩ := List.map_eq_cons_iff.mp hts
  obtain ⟨u, us, rfl, hu, hus⟩ := List.map_eq_cons_iff.mp hrest
  obtain ⟨n, rfl⟩ : ∃ m, n = m + 1 := ⟨n - 1, by omega⟩
  obtain ⟨s', hs', hread⟩ := h.within (Nat.le_of_succ_le_succ hn) hus
  have hsign : binding? u.kind = some binding := by
    rw [Token.kind_of_word hu]
    cases binding <;> rfl
  refine ⟨.bind binding t.words s' t.position, ?_, reads_bind (Token.kind_of_word ht) hsign hread⟩
  rw [Statement.unplaced, Statement.unplaced, hs', Token.words_of_name ht]

theorem breakOut : (Statement.breakOut none p).Restored := by
  intro n ts hn hts
  rw [Statement.levels] at hn
  rw [Statement.words] at hts
  obtain ⟨t, rfl, ht⟩ := List.map_eq_singleton_iff.mp hts
  obtain ⟨n, rfl⟩ : ∃ m, n = m + 1 := ⟨n - 1, by omega⟩
  refine ⟨.breakOut none t.position, rfl, reads_breakOut (Token.kind_of_word ht) fun k hk => ?_⟩
  obtain rfl | rfl := hk <;> rfl

theorem breakWith (h : s.Restored) : (Statement.breakOut (some s) p).Restored := by
  intro n ts hn hts
  rw [Statement.levels] at hn
  rw [Statement.words] at hts
  obtain ⟨t, us, rfl, ht, hus⟩ := List.map_eq_cons_iff.mp hts
  obtain ⟨n, rfl⟩ : ∃ m, n = m + 1 := ⟨n - 1, by omega⟩
  obtain ⟨s', hs', hread⟩ := h.within (Nat.le_of_succ_le_succ hn) hus
  refine ⟨.breakOut (some s') t.position, ?_, reads_breakWith (Token.kind_of_word ht) hread⟩
  rw [Statement.unplaced, Statement.unplaced, hs']

theorem expression {e : Expression} (h : e.Restored) : (Statement.expression e).Restored := by
  intro n ts hn hts
  rw [Statement.levels] at hn
  rw [Statement.words] at hts
  obtain ⟨n, rfl⟩ : ∃ m, n = m + 1 := ⟨n - 1, by omega⟩
  obtain ⟨e', he', hread⟩ := h.standing (Nat.le_of_succ_le_succ hn) hts
  refine ⟨.expression e', ?_, reads_expression hread fun k hk => Nat.lt_trans hk (by decide)⟩
  rw [Statement.unplaced, Statement.unplaced, he']

/-- The body of a condition or a loop. -/
theorem braced (h : body.Restored) (hbody : body.IsBlock) (hn : body.levels ≤ n)
    (hts : ts.map Token.word = body.words) :
    ∃ body', body'.unplaced = body.unplaced ∧
      Parse.Reads (layers n).statement Braced (·.layer < 1) ts body' := by
  obtain ⟨body', hbody', hread⟩ := h n ts hn hts
  obtain ⟨⟨statements, p⟩, rfl⟩ := hbody.eq_block
  have hbrace : Braced ts := by
    rw [Statement.words, Expression.words, Block.words] at hts
    obtain ⟨t, us, rfl, ht, _⟩ := List.map_eq_cons_iff.mp hts
    exact ⟨t, us, rfl, Token.kind_of_word ht⟩
  exact ⟨body', hbody', hbrace, hread.runs⟩

/-- A guard, which is an expression. -/
theorem guarding (h : guard.Restored) (hguard : guard.IsExpression) (hn : guard.levels ≤ n)
    (hts : ts.map Token.word = guard.words) :
    ∃ guard', guard'.unplaced = guard.unplaced ∧
      Parse.Reads (layers n).statement Begins (·.layer < 1) ts guard' := by
  obtain ⟨guard', hguard', hread⟩ := h n ts hn hts
  rw [hguard.stops] at hread
  exact ⟨guard', hguard', hread⟩

theorem loop (hguard : guard.Restored) (hexpression : guard.IsExpression) (hbody : body.Restored)
    (hblock : body.IsBlock) : (Statement.loop guard body p).Restored := by
  intro n ts hn hts
  rw [Statement.levels] at hn
  rw [Statement.words] at hts
  obtain ⟨t, rest, rfl, ht, hrest⟩ := List.map_eq_cons_iff.mp hts
  obtain ⟨us, ws, rfl, hus, hws⟩ := List.map_eq_append_iff.mp hrest
  obtain ⟨n, rfl⟩ : ∃ m, n = m + 1 := ⟨n - 1, by omega⟩
  have hn := Nat.max_le.mp (Nat.le_of_succ_le_succ hn)
  obtain ⟨guard', hguard', hread⟩ := hguard.guarding hexpression hn.1 hus
  obtain ⟨body', hbody', hread'⟩ := hbody.braced hblock hn.2 hws
  have hloop := reads_loop (Token.kind_of_word ht) hread
    (hread'.mono (fun _ h => h) fun _ => Kind.EndsStatement.layer_lt)
  refine ⟨.loop guard' body' t.position, ?_, hloop⟩
  rw [Statement.unplaced, Statement.unplaced, hguard', hbody']

end Statement.Restored

/-! ### Conditions -/

section
variable {n : Nat} {ts : List Token} {p : Position}

theorem Branch.Restored.of_parts {guard body : Statement} (hguard : guard.Restored)
    (hexpression : guard.IsExpression) (hbody : body.Restored) (hblock : body.IsBlock) :
    (Branch.mk guard body).Restored := by
  intro n ts hn hts
  rw [Branch.levels, Nat.max_le] at hn
  rw [Branch.words] at hts
  obtain ⟨t, rest, rfl, ht, hrest⟩ := List.map_eq_cons_iff.mp hts
  obtain ⟨us, ws, rfl, hus, hws⟩ := List.map_eq_append_iff.mp hrest
  obtain ⟨guard', hguard', hread⟩ := hguard.guarding hexpression hn.1 hus
  obtain ⟨body', hbody', hread'⟩ := hbody.braced hblock hn.2 hws
  refine ⟨⟨guard', body'⟩, t, us ++ ws, ?_, rfl, Token.kind_of_word ht, reads_branch hread hread'⟩
  rw [Branch.unplaced, Branch.unplaced, hguard', hbody']

/-- What follows the branches of a condition. -/
def otherwiseWords : Option Statement → List Word
  | none => []
  | some s => .sign .elseWord :: s.words

def otherwiseLevels : Option Statement → Nat
  | none => 0
  | some s => s.levels

theorem words_condition (branches : List Branch) (o : Option Statement) :
    (Statement.condition branches o p).words = branchWords branches ++ otherwiseWords o := by
  cases o <;> simp [Statement.words, otherwiseWords]

theorem levels_condition (branches : List Branch) (o : Option Statement) :
    (Statement.condition branches o p).levels =
      max (branchLevels branches) (otherwiseLevels o) + 1 := by
  cases o <;> simp [Statement.levels, otherwiseLevels]

theorem unplaced_condition (branches : List Branch) (o : Option Statement) :
    (Statement.condition branches o p).unplaced =
      .condition (unplacedBranches branches) (o.map (·.unplaced)) .unknown := by
  cases o <;> simp [Statement.unplaced]

/-- The branches after the first one. -/
def furtherWords (branches : List Branch) : List Word :=
  branches.flatMap fun b => .sign .elseWord :: b.words

theorem branchWords_cons (b : Branch) (rest : List Branch) :
    branchWords (b :: rest) = b.words ++ furtherWords rest := by
  induction rest generalizing b with
  | nil => simp [branchWords, furtherWords]
  | cons next rest ih => simp [branchWords, furtherWords, ih]

theorem restored_alternatives {rest : List Branch} (hrest : ∀ b ∈ rest, b.Restored)
    {o : Option Statement} (ho : ∀ s ∈ o, s.Restored ∧ s.IsBlock) (hn : branchLevels rest ≤ n)
    (hno : otherwiseLevels o ≤ n) (hts : ts.map Token.word = furtherWords rest ++ otherwiseWords o) :
    ∃ bs o', unplacedBranches bs = unplacedBranches rest ∧
      o'.map (·.unplaced) = o.map (·.unplaced) ∧
      Alternatives (Parse.Reads (branch (layers n)) (fun _ => True) (·.layer < 1))
        (Parse.Reads (layers n).statement Braced (·.layer < 1)) ts (bs, o') := by
  induction rest generalizing ts with
  | nil =>
    cases o with
    | none =>
      obtain rfl := List.map_eq_nil_iff.mp hts
      exact ⟨[], none, rfl, rfl, .none⟩
    | some s =>
      obtain ⟨hs, hblock⟩ := ho s rfl
      obtain ⟨t, us, rfl, ht, hus⟩ := List.map_eq_cons_iff.mp hts
      obtain ⟨s', hs', hread⟩ := hs.braced hblock hno hus
      exact ⟨[], some s', rfl, by simp [hs'], .otherwise (Token.kind_of_word ht) hread⟩
  | cons b rest ih =>
    rw [List.forall_mem_cons] at hrest
    rw [branchLevels, Nat.max_le] at hn
    rw [furtherWords, List.flatMap_cons, List.append_assoc] at hts
    obtain ⟨t, more, rfl, ht, hmore⟩ := List.map_eq_cons_iff.mp hts
    obtain ⟨us, ws, rfl, hus, hws⟩ := List.map_eq_append_iff.mp hmore
    obtain ⟨b', u, us, hb', rfl, hu, hread⟩ := hrest.1 n us hn.1 hus
    obtain ⟨bs, o', hbs, ho', halternatives⟩ := ih hrest.2 hn.2 hws
    refine ⟨b' :: bs, o', ?_, ho', .elseIf (Token.kind_of_word ht) hu hread halternatives⟩
    rw [unplacedBranches, unplacedBranches, hb', hbs]

theorem Statement.Restored.condition {branches : List Branch} (hne : branches ≠ [])
    (hbranches : ∀ b ∈ branches, b.Restored) {o : Option Statement}
    (ho : ∀ s ∈ o, s.Restored ∧ s.IsBlock) : (Statement.condition branches o p).Restored := by
  intro n ts hn hts
  cases branches with
  | nil => exact absurd rfl hne
  | cons b rest =>
    rw [List.forall_mem_cons] at hbranches
    rw [levels_condition, branchLevels] at hn
    rw [words_condition, branchWords_cons, List.append_assoc] at hts
    obtain ⟨n, rfl⟩ : ∃ m, n = m + 1 := ⟨n - 1, by omega⟩
    obtain ⟨us, ws, rfl, hus, hws⟩ := List.map_eq_append_iff.mp hts
    obtain ⟨b', t, us, hb', rfl, ht, hread⟩ := hbranches.1 n us (by omega) hus
    obtain ⟨bs, o', hbs, ho', halternatives⟩ :=
      restored_alternatives (n := n) hbranches.2 ho (by omega) (by omega) hws
    refine ⟨.condition (b' :: bs) o' t.position, ?_, reads_condition ht hread halternatives⟩
    rw [unplaced_condition, unplaced_condition, unplacedBranches, unplacedBranches, hb', hbs, ho']

end

/-! ### Trees -/

mutual

theorem Statement.restored : (s : Statement) → s.Printable → s.Restored
  | .bind binding name value _, h => by
    rw [Statement.Printable] at h
    exact (value.restored h.2).bind binding name
  | .condition branches none _, h => by
    rw [Statement.Printable] at h
    exact .condition h.1 (restoredBranches branches h.2) nofun
  | .condition branches (some s) _, h => by
    rw [Statement.Printable] at h
    obtain ⟨hne, hbranches, hblock, hs⟩ := h
    refine .condition hne (restoredBranches branches hbranches) fun s' hs' => ?_
    obtain rfl := Option.some.inj hs'
    exact ⟨s.restored hs, hblock⟩
  | .loop guard body _, h => by
    rw [Statement.Printable] at h
    obtain ⟨hexpression, hguard, hblock, hbody⟩ := h
    exact (guard.restored hguard).loop hexpression (body.restored hbody) hblock
  | .breakOut none _, _ => .breakOut
  | .breakOut (some s) _, h => by
    rw [Statement.Printable] at h
    exact (s.restored h).breakWith
  | .expression e, h => by
    rw [Statement.Printable] at h
    exact .expression (e.restored h)

theorem Expression.restored : (e : Expression) → e.Printable → e.Restored
  | .binary operator left right _, h => by
    rw [Expression.Printable] at h
    exact (left.restored h.1).binary operator (right.restored h.2)
  | .negate operand _, h => by
    rw [Expression.Printable] at h
    exact (operand.restored h).negate
  | .constant value _, _ => .constant value
  | .reference name _, _ => .reference name
  | .block b, h => by
    rw [Expression.Printable] at h
    exact .block (b.restored h)
  | .lambda f, h => by
    rw [Expression.Printable] at h
    exact .lambda (f.restored h)
  | .call callee given _, h => by
    rw [Expression.Printable] at h
    exact (callee.restored h.1).call (restoredArguments given h.2)

theorem Branch.restored : (b : Branch) → b.Printable → b.Restored
  | ⟨guard, body⟩, h => by
    rw [Branch.Printable] at h
    obtain ⟨hexpression, hguard, hblock, hbody⟩ := h
    exact .of_parts (guard.restored hguard) hexpression (body.restored hbody) hblock

theorem Block.restored : (b : Block) → b.Printable → b.Restored
  | ⟨statements, _⟩, h => by
    rw [Block.Printable] at h
    exact .of_statements (restoredSequence statements h)

theorem Lambda.restored : (f : Lambda) → f.Printable → f.Restored
  | ⟨parameters, body, _⟩, h => by
    rw [Lambda.Printable] at h
    exact .of_body h.2.1 (body.restored h.2.2) parameters

theorem restoredBranches : (bs : List Branch) → PrintableBranches bs → ∀ b ∈ bs, b.Restored
  | [], _ => nofun
  | b :: rest, h => by
    rw [PrintableBranches] at h
    exact List.forall_mem_cons.mpr ⟨b.restored h.1, restoredBranches rest h.2⟩

theorem restoredSequence : (ss : List Statement) → PrintableSequence ss → ∀ s ∈ ss, s.Restored
  | [], _ => nofun
  | s :: rest, h => by
    rw [PrintableSequence] at h
    exact List.forall_mem_cons.mpr ⟨s.restored h.1, restoredSequence rest h.2⟩

theorem restoredArguments : (es : List Expression) → PrintableArguments es → ∀ e ∈ es, e.Restored
  | [], _ => nofun
  | e :: rest, h => by
    rw [PrintableArguments] at h
    exact List.forall_mem_cons.mpr ⟨e.restored h.1, restoredArguments rest h.2⟩

end

/-! ### Programs -/

theorem Token.Stream.readable_map_ok {ts : List Token} (h : ∀ t ∈ ts, t.kind ≠ .comment) :
    readable (ts.map .ok) = ts := by
  induction ts with
  | nil => rfl
  | cons t ts ih =>
    rw [List.forall_mem_cons] at h
    rw [List.map_cons, readable, if_neg h.1, ih h.2]

theorem Token.Stream.failure?_map_ok (ts : List Token) : failure? (ts.map .ok) = none := by
  have happend := failure?_append ts []
  rwa [List.append_nil] at happend

/-- What there is to read in the text of a program: its words, as tokens at some places. -/
theorem view_render {ss : List Statement} {p : Position} (h : PrintableSequence ss) :
    ∃ (ts : List Token) (q : Position),
      (Token.Stream.ofSource (Block.mk ss p).render).view = ts ++ (⟨[], .ok q⟩ : View) ∧
      ts.map Token.word = sequenceWords ss := by
  have hcode := isCode_sequence ss h
  obtain ⟨ts, hpending, hwords⟩ := Word.pending_of_words hcode
  have hkinds : ∀ t ∈ ts, t.kind ≠ .comment := by
    intro t ht
    exact (hcode t.word (hwords ▸ List.mem_map_of_mem ht)).2
  refine ⟨ts, (Token.Stream.ofSource (Block.mk ss p).render).finish, ?_, hwords⟩
  rw [Token.Stream.view, Token.Stream.stop, Block.render, hpending,
    Token.Stream.readable_map_ok hkinds, Token.Stream.failure?_map_ok]
  exact congrArg (View.mk · _) (List.append_nil ts).symm

/-- **What is written is read back.** If the names and constants of a program have spellings, its
conditions have branches, its guards and functions' bodies are expressions and the bodies of its
conditions and loops are blocks, then reading its text gives the program again, places aside, as
long as the text does not nest deeper than the limit. -/
theorem parse_render {b : Block} (h : b.Printable) (hlevels : b.levels ≤ Parser.maxNesting) :
    ∃ b', parse b.render = .ok b' ∧ b'.unplaced = b.unplaced := by
  obtain ⟨ss, p⟩ := b
  rw [Block.Printable] at h
  rw [Block.levels] at hlevels
  obtain ⟨ts, q, hview, hwords⟩ := view_render (p := p) h
  obtain ⟨ss', hss', hsequence⟩ := restored_sequence (restoredSequence ss h) hlevels hwords true
  obtain ⟨first, hfirst, _⟩ := View.look_zero_append (v := ⟨[], .ok q⟩) rfl ts
  have hruns := runs_program (layers Parser.maxNesting).reads_reading hsequence (fun _ _ => trivial)
    hfirst rfl rfl
  rw [← hview] at hruns
  refine ⟨⟨ss', first.position⟩, ?_, ?_⟩
  · rw [parse_eq_outcome]
    exact hruns.outcome_eq (Cursor.ofStream_faces _)
  · rw [Block.unplaced, Block.unplaced, hss']

/-- A function whose body leans to the right, and a condition that calls it. -/
def rightLeaning : Block where
  statements :=
    [.bind .declare "f" (.expression (.lambda ⟨["n"], .expression (.binary .subtract
        (.reference "n" .unknown) (.binary .subtract (.constant (.integer 1) .unknown)
          (.negate (.constant (.integer 2) .unknown) .unknown) .unknown) .unknown), .unknown⟩)) .unknown,
      .condition [⟨.expression (.binary .equal (.call (.reference "f" .unknown)
          [.constant (.integer 3) .unknown] .unknown) (.constant .null .unknown) .unknown),
        .expression (.block ⟨[.breakOut (some (.expression (.constant (.text "x y") .unknown))) .unknown],
          .unknown⟩)⟩] (some (.expression (.block ⟨[], .unknown⟩))) .unknown]
  position := .unknown

theorem parse_render_rightLeaning : rightLeaning.Printable ∧ rightLeaning.levels ≤ Parser.maxNesting ∧
    rightLeaning.render =
      "f = ( n ) => n - ( 1 - - 2 ) ; if f ( 3 ) == null \x7b break \"x y\" ; \x7d else \x7b \x7d ;" ∧
    ∃ b, parse rightLeaning.render = .ok b ∧ b.unplaced = rightLeaning.unplaced := by
  have hf : (Word.name "f").WellFormed := ⟨by decide +kernel, by decide +kernel⟩
  have hn : (Word.name "n").WellFormed := ⟨by decide +kernel, by decide +kernel⟩
  have hletters : "x y".toList.all fun c => c != '"' && !isLineEnd c := by decide +kernel
  have htext : (Literal.word (.text "x y")).WellFormed :=
    ⟨by decide +kernel, fun c hc => by simpa using List.all_eq_true.mp hletters c hc⟩
  have hnull : (Literal.word .null).WellFormed := (Word.isCode_sign (by decide)).1
  have hinteger : ∀ n : Int32, 0 ≤ n → (Literal.word (.integer n)).WellFormed := fun _ h => h
  have hprintable : rightLeaning.Printable := by
    simp [rightLeaning, Block.Printable, PrintableSequence, Statement.Printable, Expression.Printable,
      Lambda.Printable, PrintableBranches, Branch.Printable, PrintableArguments,
      Statement.IsExpression, Statement.IsBlock, hf, hn, htext, hnull,
      hinteger 1 (by decide), hinteger 2 (by decide), hinteger 3 (by decide)]
  have hlevels : rightLeaning.levels ≤ Parser.maxNesting := by decide +kernel
  exact ⟨hprintable, hlevels, by decide +kernel, parse_render hprintable hlevels⟩

end Lumen
