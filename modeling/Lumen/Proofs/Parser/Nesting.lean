import Lumen.Proofs.Parser.Completeness
import Lumen.Proofs.Parser.RoundTrip

/-! How high the tree of a program can be.

The limit on nesting counts statements, expressions and signs inside one another. Operands in a
chain and calls of a call are read in a loop, which counts nothing, though every turn of it makes
the tree higher by one. So the limit bounds the height of a tree only together with the length of
its longest chain (`parse_height_le`), and there is no bound for all trees: the sum of many ones
is accepted, and as high as it is long (`parse_height_unbounded`). -/
namespace Lumen
open Parse Phrase
open Token (Kind Word)

/-! ### Heights and chains -/

mutual

/-- The number of edges on the longest way down from a statement, along all the parts that an
evaluation may go into. -/
def Statement.height : Statement → Nat
  | .bind _ _ value _ => value.height + 1
  | .condition branches none _ => branchHeight branches
  | .condition branches (some s) _ => max (branchHeight branches) (s.height + 1)
  | .loop guard body _ => max guard.height body.height + 1
  | .breakOut none _ => 0
  | .breakOut (some s) _ => s.height + 1
  | .expression e => e.height + 1

def Expression.height : Expression → Nat
  | .binary _ left right _ => max left.height right.height + 1
  | .negate operand _ => operand.height + 1
  | .constant _ _ => 0
  | .reference _ _ => 0
  | .block b => b.height
  | .lambda f => f.height
  | .call callee arguments _ => max (callee.height + 1) (argumentHeight arguments)

def Branch.height : Branch → Nat
  | ⟨guard, body⟩ => max guard.height body.height + 1

def Block.height : Block → Nat
  | ⟨statements, _⟩ => sequenceHeight statements

def Lambda.height : Lambda → Nat
  | ⟨_, body, _⟩ => body.height + 1

def branchHeight : List Branch → Nat
  | [] => 0
  | b :: rest => max b.height (branchHeight rest)

def sequenceHeight : List Statement → Nat
  | [] => 0
  | s :: rest => max (s.height + 1) (sequenceHeight rest)

def argumentHeight : List Expression → Nat
  | [] => 0
  | e :: rest => max (e.height + 1) (argumentHeight rest)

end

/-- How often one can go on from an expression to its left operand or its callee. -/
def Expression.spine : Expression → Nat
  | .binary _ left _ _ => left.spine + 1
  | .call callee _ _ => callee.spine + 1
  | _ => 0

mutual

/-- The longest spine of an expression inside a statement. -/
def Statement.chain : Statement → Nat
  | .bind _ _ value _ => value.chain
  | .condition branches none _ => branchChain branches
  | .condition branches (some s) _ => max (branchChain branches) s.chain
  | .loop guard body _ => max guard.chain body.chain
  | .breakOut none _ => 0
  | .breakOut (some s) _ => s.chain
  | .expression e => e.chain

def Expression.chain : Expression → Nat
  | .binary _ left right _ => max (left.spine + 1) (max left.chain right.chain)
  | .negate operand _ => operand.chain
  | .constant _ _ => 0
  | .reference _ _ => 0
  | .block b => b.chain
  | .lambda f => f.chain
  | .call callee arguments _ => max (callee.spine + 1) (max callee.chain (argumentChain arguments))

def Branch.chain : Branch → Nat
  | ⟨guard, body⟩ => max guard.chain body.chain

def Block.chain : Block → Nat
  | ⟨statements, _⟩ => sequenceChain statements

def Lambda.chain : Lambda → Nat
  | ⟨_, body, _⟩ => body.chain

def branchChain : List Branch → Nat
  | [] => 0
  | b :: rest => max b.chain (branchChain rest)

def sequenceChain : List Statement → Nat
  | [] => 0
  | s :: rest => max s.chain (sequenceChain rest)

def argumentChain : List Expression → Nat
  | [] => 0
  | e :: rest => max e.chain (argumentChain rest)

end

theorem Expression.spine_le_chain (e : Expression) : e.spine ≤ e.chain := by
  cases e with
  | binary operator left right p =>
    rw [spine, chain]
    exact Nat.le_max_left _ _
  | call callee arguments p =>
    rw [spine, chain]
    exact Nat.le_max_left _ _
  | _ => exact Nat.zero_le _

/-! ### Heights of phrases -/

namespace Phrase
variable {m h k : Nat} {parts : Parts}

/-- What the phrase derives with chains no longer than `m` is no higher than `h`. -/
def Low {α : Type} (chain height : α → Nat) (m h : Nat) (P : Phrase α) : Prop :=
  ∀ ts a, P ts a → chain a ≤ m → height a ≤ h

/-- The nested parts are no higher than `h`. -/
structure Parts.Low (m h : Nat) (parts : Parts) : Prop where
  statement : Phrase.Low Statement.chain Statement.height m h parts.statement
  expression : Phrase.Low Expression.chain Expression.height m h parts.expression
  unary : Phrase.Low Expression.chain Expression.height m h parts.unary

theorem Low.mono {α : Type} {chain height : α → Nat} {P : Phrase α} (hP : Low chain height m h P)
    (hle : h ≤ k) : Low chain height m k P :=
  fun ts a ha hchain => Nat.le_trans (hP ts a ha hchain) hle

theorem low_sequence {P : Phrase Statement} (hP : Low Statement.chain Statement.height m h P)
    (last : Bool) : Low sequenceChain sequenceHeight m (h + 1) (Sequence P last) := by
  intro ts ss hss hchain
  induction hss with
  | none => exact Nat.zero_le _
  | last _ hs =>
    simp only [sequenceChain, sequenceHeight] at hchain ⊢
    have := hP _ _ hs (by omega)
    omega
  | more hs _ _ ih =>
    simp only [sequenceChain, sequenceHeight] at hchain ⊢
    have := hP _ _ hs (by omega)
    have := ih (by omega)
    omega

theorem low_listed {P : Phrase Expression} (hP : Low Expression.chain Expression.height m h P) :
    Low argumentChain argumentHeight m (h + 1) (Listed P) := by
  have hseries : Low argumentChain argumentHeight m (h + 1) (Series P) := by
    intro ts es hes hchain
    induction hes with
    | last he =>
      simp only [argumentChain, argumentHeight] at hchain ⊢
      have := hP _ _ he (by omega)
      omega
    | more he _ _ ih =>
      simp only [argumentChain, argumentHeight] at hchain ⊢
      have := hP _ _ he (by omega)
      have := ih (by omega)
      omega
  intro ts es hes hchain
  cases hes with
  | none => exact Nat.zero_le _
  | some hes => exact hseries ts es hes hchain

/-! ### Expressions -/

/-- A chain is higher than its operands by no more than its length. -/
theorem low_leftChain {operator? : Kind → Option Operator} {P : Phrase Expression}
    (hP : Low Expression.chain Expression.height m h P) :
    Low Expression.chain Expression.height m (h + m) (LeftChain operator? P) := by
  have hspine : ∀ ts e, LeftChain operator? P ts e → e.chain ≤ m → e.height ≤ h + e.spine := by
    intro ts e he hchain
    induction he with
    | single he => exact Nat.le_add_right_of_le (hP _ _ he hchain)
    | join _ _ hright ih =>
      simp only [Expression.chain, Expression.height, Expression.spine] at hchain ⊢
      have := ih (by omega)
      have := hP _ _ hright (by omega)
      omega
  intro ts e he hchain
  have := hspine ts e he hchain
  have := e.spine_le_chain
  omega

theorem low_comparison {P : Phrase Expression}
    (hP : Low Expression.chain Expression.height m h P) :
    Low Expression.chain Expression.height m (h + 1) (Comparison P) := by
  intro ts e he hchain
  cases he with
  | single he => exact Nat.le_succ_of_le (hP _ _ he hchain)
  | compare hleft _ hright =>
    simp only [Expression.chain, Expression.height] at hchain ⊢
    have := hP _ _ hleft (by omega)
    have := hP _ _ hright (by omega)
    omega

theorem low_disjunction {P : Phrase Expression}
    (hP : Low Expression.chain Expression.height m h P) :
    Low Expression.chain Expression.height m (h + (5 * m + 1)) (Disjunction P) := by
  have hcoalescing : Low Expression.chain Expression.height m (h + m + m + m) (Coalescing P) :=
    low_leftChain (low_leftChain (low_leftChain hP))
  have hconjunction :
      Low Expression.chain Expression.height m (h + m + m + m + 1 + m) (Conjunction P) :=
    low_leftChain (low_comparison hcoalescing)
  exact (low_leftChain hconjunction).mono (by omega)

theorem low_factor (hparts : parts.Low m h) :
    Low Expression.chain Expression.height m (h + 1) (Factor parts) := by
  intro ts e he hchain
  cases he with
  | atom he =>
    cases he with
    | constant _ => exact Nat.zero_le _
    | reference _ => exact Nat.zero_le _
    | block hb =>
      obtain ⟨_, hs, _⟩ := hb
      simp only [Expression.chain, Expression.height, Block.chain, Block.height] at hchain ⊢
      exact low_sequence hparts.statement false _ _ hs hchain
    | group _ he _ => exact Nat.le_succ_of_le (hparts.expression _ _ he hchain)
  | lambda hf =>
    obtain ⟨_, _, _, _, hbody⟩ := hf
    simp only [Expression.chain, Expression.height, Lambda.chain, Lambda.height] at hchain ⊢
    exact Nat.succ_le_succ (hparts.statement _ _ hbody hchain)

/-- Calls of a call are a chain too. -/
theorem low_operand (hparts : parts.Low m h) :
    Low Expression.chain Expression.height m (h + 1 + m) (Operand parts) := by
  have hspine : ∀ ts e, Call (Factor parts) parts.expression ts e → e.chain ≤ m →
      e.height ≤ h + 1 + e.spine := by
    intro ts e he hchain
    induction he with
    | factor he => exact Nat.le_add_right_of_le (low_factor hparts _ _ he hchain)
    | call _ _ hgiven _ ih =>
      simp only [Expression.chain, Expression.height, Expression.spine] at hchain ⊢
      have := ih (by omega)
      have := low_listed hparts.expression _ _ hgiven (by omega)
      omega
  intro ts e he hchain
  cases he with
  | negate _ he =>
    simp only [Expression.chain, Expression.height] at hchain ⊢
    have := hparts.unary _ _ he hchain
    omega
  | call he =>
    have := hspine ts e he hchain
    have := e.spine_le_chain
    omega

/-! ### Statements -/

theorem low_guarded {P : Phrase Statement} (hP : Low Statement.chain Statement.height m h P) :
    Low Branch.chain Branch.height m (h + 1) (Guarded P) := by
  intro ts b hb hchain
  obtain ⟨hguard, hbody⟩ := hb
  simp only [Branch.chain, Branch.height] at hchain ⊢
  have := hP _ _ hguard (by omega)
  have := hP _ _ hbody (by omega)
  omega

theorem low_alternatives {P : Phrase Statement}
    (hP : Low Statement.chain Statement.height m h P) {ts : List Token} {bs : List Branch}
    {otherwise : Option Statement} (hbs : Alternatives (Guarded P) P ts (bs, otherwise))
    (hchain : branchChain bs ≤ m) (hchain' : ∀ s ∈ otherwise, s.chain ≤ m) :
    branchHeight bs ≤ h + 1 ∧ ∀ s ∈ otherwise, s.height ≤ h := by
  generalize hfound : (bs, otherwise) = found at hbs
  induction hbs generalizing bs with
  | none =>
    obtain ⟨rfl, rfl⟩ := Prod.mk.inj hfound
    exact ⟨Nat.zero_le _, fun _ hs => by cases hs⟩
  | otherwise _ hs =>
    obtain ⟨rfl, rfl⟩ := Prod.mk.inj hfound
    refine ⟨Nat.zero_le _, fun s' hs' => ?_⟩
    obtain rfl := Option.some.inj hs'
    exact hP _ _ hs (hchain' _ rfl)
  | elseIf _ _ hb _ ih =>
    obtain ⟨rfl, rfl⟩ := Prod.mk.inj hfound
    simp only [branchChain, branchHeight] at hchain ⊢
    have := low_guarded hP _ _ hb (by omega)
    obtain ⟨_, hotherwise⟩ := ih (by omega) rfl
    exact ⟨by omega, hotherwise⟩

theorem low_sentence (hparts : parts.Low m h) :
    Low Statement.chain Statement.height m (h + 1) (Sentence parts) := by
  intro ts s hs hchain
  cases hs with
  | @condition _ _ _ b bs otherwise _ hb hbs =>
    have hfirst := low_guarded hparts.statement _ _ hb
    cases otherwise with
    | none =>
      simp only [Statement.chain, branchChain, Statement.height, branchHeight] at hchain ⊢
      obtain ⟨hrest, _⟩ := low_alternatives hparts.statement hbs (by omega) fun _ hs => by cases hs
      have := hfirst (by omega)
      omega
    | some s =>
      simp only [Statement.chain, branchChain, Statement.height, branchHeight] at hchain ⊢
      obtain ⟨hrest, hlast⟩ := low_alternatives hparts.statement hbs (by omega)
        (by rintro _ ⟨⟩; omega)
      have := hfirst (by omega)
      have := hlast s rfl
      omega
  | loop _ hguard hbody =>
    simp only [Statement.chain, Statement.height] at hchain ⊢
    have := hparts.statement _ _ hguard (by omega)
    have := hparts.statement _ _ hbody (by omega)
    omega
  | breakOut _ => exact Nat.zero_le _
  | breakWith _ hs => exact Nat.succ_le_succ (hparts.statement _ _ hs hchain)
  | bind _ _ hs => exact Nat.succ_le_succ (hparts.statement _ _ hs hchain)
  | expression he => exact Nat.succ_le_succ (hparts.expression _ _ he hchain)

/-- Every level adds a fixed height and a chain for each layer of operators and for calls. -/
theorem low_parts (m n : Nat) : (Phrase.parts n).Low m (n * (6 * m + 2)) := by
  induction n with
  | zero => exact ⟨nofun, nofun, nofun⟩
  | succ n ih =>
    have hoperand := low_operand ih
    rw [Nat.succ_mul]
    exact ⟨(low_sentence ih).mono (by omega), (low_disjunction hoperand).mono (by omega),
      hoperand.mono (by omega)⟩

end Phrase

/-- **What the limit on nesting bounds.** The tree of a program is no higher than the limit times
the length of its longest chain allows: a program without chains has a tree of a fixed height at
most, and where it has chains, they may stretch every level. -/
theorem parse_height_le {source : String} {b : Block} (h : parse source = .ok b) :
    b.height ≤ Parser.maxNesting * (6 * b.chain + 2) + 1 := by
  have hcases := parse_cases source
  rw [h] at hcases
  obtain ⟨ts, _, hprogram⟩ := hcases
  generalize Token.Stream.uncommented ts = us at hprogram
  obtain ⟨hs, _, _⟩ := hprogram
  simp only [Block.height, Block.chain]
  exact low_sequence (low_parts _ Parser.maxNesting).statement true _ _ hs (Nat.le_refl _)

/-- A chain of two operators, with a tree of four edges. -/
theorem parse_height_le_sum : ∃ b, parse "1 + 2 + 3;" = .ok b ∧ b.height = 4 ∧ b.chain = 2 ∧
    b.height ≤ Parser.maxNesting * (6 * 2 + 2) + 1 := by
  have hread : (parse "1 + 2 + 3;").toOption.any
      (fun b => decide (b.height = 4 ∧ b.chain = 2)) = true := by decide +kernel
  cases hparse : parse "1 + 2 + 3;" with
  | ok b =>
    rw [hparse] at hread
    obtain ⟨hheight, hchain⟩ := of_decide_eq_true hread
    have hle := parse_height_le hparse
    rw [hchain] at hle
    exact ⟨b, rfl, hheight, hchain, hle⟩
  | error e =>
    rw [hparse] at hread
    cases hread

/-! ### Sums without end -/

/-- The words of a one with `n` more ones added to it. -/
def onesWords : Nat → List Word
  | 0 => [Literal.word (.integer 1)]
  | n + 1 => onesWords n ++ [.sign .plus, Literal.word (.integer 1)]

/-- The text of a program that adds up `n + 1` ones. -/
def onesSource (n : Nat) : String := Word.write (onesWords n ++ [.sign .endOfStatement])

theorem isCode_onesWords (n : Nat) :
    ∀ w ∈ onesWords n, w.IsCode ∧ w.kind ∈ [.integer, .plus, .endOfStatement] := by
  have hone : (Literal.word (.integer 1)).IsCode :=
    Word.isCode_literal (show (0 : Int32) ≤ 1 by decide)
  have hplus : (Word.sign .plus).IsCode := Word.isCode_sign (by decide)
  induction n with
  | zero => simpa [onesWords] using ⟨hone, by decide⟩
  | succ n ih =>
    simp only [onesWords, List.forall_mem_append, List.forall_mem_cons]
    exact ⟨ih, ⟨hplus, by decide⟩, ⟨hone, by decide⟩, List.forall_mem_nil _⟩

/-- A sum of ones is a chain, as high as it is long. -/
theorem exists_sum {parts : Parts} {n : Nat} {ts : List Token} (h : ts.map Token.word = onesWords n) :
    ∃ e, Sum (Operand parts) ts e ∧ e.height = n := by
  have hone : ∀ t : Token, t.word = Literal.word (.integer 1) → ∃ e,
      Product (Operand parts) [t] e ∧ e.height = 0 := by
    intro t ht
    have hkind : t.kind = .integer := Token.kind_of_word ht
    exact ⟨_, .single (.call (.factor (.atom (.constant (by rw [hkind]; decide))))), rfl⟩
  induction n generalizing ts with
  | zero =>
    obtain ⟨t, rfl, ht⟩ := List.map_eq_singleton_iff.mp h
    obtain ⟨e, he, hheight⟩ := hone t ht
    exact ⟨e, .single he, hheight⟩
  | succ n ih =>
    obtain ⟨us, ws, rfl, hus, hws⟩ := List.map_eq_append_iff.mp h
    obtain ⟨t, ws, rfl, ht, hws⟩ := List.map_eq_cons_iff.mp hws
    obtain ⟨u, rfl, hu⟩ := List.map_eq_singleton_iff.mp hws
    obtain ⟨left, hleft, hheight⟩ := ih hus
    obtain ⟨right, hright, hzero⟩ := hone u hu
    have hplus : t.kind = .plus := Token.kind_of_word ht
    have hoperator : t.kind.additive? = some .add := by rw [hplus]; rfl
    refine ⟨_, .join hleft hoperator hright, ?_⟩
    simp [Expression.height, hheight, hzero]

/-- A sum of ones is read, however long it is. -/
theorem parse_ones (n : Nat) : ∃ b, parse (onesSource n) = .ok b ∧ n < b.height := by
  have hcode : ∀ w ∈ onesWords n ++ [.sign .endOfStatement],
      w.IsCode ∧ w.kind ∈ [.integer, .plus, .endOfStatement] := by
    rw [List.forall_mem_append, List.forall_mem_singleton]
    exact ⟨isCode_onesWords n, Word.isCode_sign (by decide), by decide⟩
  obtain ⟨ts, hpending, hwords⟩ := Word.pending_of_words fun w hw => (hcode w hw).1
  have hkinds : ∀ t ∈ ts, t.kind ∈ [.integer, .plus, .endOfStatement] := fun t ht =>
    (hcode t.word (hwords ▸ List.mem_map_of_mem ht)).2
  obtain ⟨us, ws, rfl, hus, hws⟩ := List.map_eq_append_iff.mp hwords
  obtain ⟨sep, rfl, hsep⟩ := List.map_eq_singleton_iff.mp hws
  have htokens := Token.Stream.tokens_eq_ok_iff.mpr ⟨_, hpending, rfl⟩
  generalize (Token.Stream.ofSource (Word.write (onesWords n ++ [.sign .endOfStatement]))).finish = p
    at htokens
  -- The sum is an expression of the innermost but two levels, and the only statement.
  obtain ⟨e, he, hheight⟩ : ∃ e, Sum (Operand (Phrase.parts 62)) us e ∧ e.height = n :=
    exists_sum hus
  have hstatement : (Phrase.parts Parser.maxNesting).statement us (.expression e) :=
    .expression (.single (.single (.single (.single he))))
  have hsequence : Sequence (Phrase.parts Parser.maxNesting).statement true (us ++ [sep])
      [.expression e] := .more hstatement (Token.kind_of_word hsep) .none
  obtain ⟨first, rest, hfirst⟩ : ∃ first rest, us ++ [sep] ++ [.endAt p] = first :: rest :=
    List.exists_cons_of_ne_nil (by simp)
  have hprogram := Program.program hsequence rfl hfirst
  have hplain : ∀ t ∈ us ++ [sep] ++ [.endAt p], t.Plain ∧ t.kind ≠ .comment := by
    have hwords : ∀ k ∈ [Kind.integer, .plus, .endOfStatement],
        k ∉ [Kind.ifWord, .elseWord, .loopWord, .arrow] ∧ k ≠ .comment := by decide
    rw [List.forall_mem_append, List.forall_mem_singleton]
    exact ⟨fun t ht => hwords t.kind (hkinds t ht), nofun, nofun⟩
  have hall : Token.Stream.uncommented (us ++ [sep] ++ [.endAt p]) = us ++ [sep] ++ [.endAt p] :=
    List.filter_eq_self.mpr fun t ht => decide_eq_true (hplain t ht).2
  obtain ⟨q, hfaces⟩ := Cursor.ofTokens_faces_all (us ++ [sep] ++ [.endAt p])
  obtain ⟨v, hrun⟩ := Grammar.runs_derivation (Grammar.reads_layers (Nat.le_refl _)) hprogram
    (fun t ht => (hplain t ht).1) q
  refine ⟨⟨[.expression e], first.position⟩, ?_, ?_⟩
  · rw [onesSource, parse_of_tokens htokens, hall]
    exact hrun.outcome_eq hfaces
  · simp only [Block.height, sequenceHeight, Statement.height, hheight]
    omega

/-- **No bound on the height of trees.** For every height there is a source whose tree is higher. -/
theorem parse_height_unbounded : ¬∃ bound, ∀ source b, parse source = .ok b → b.height ≤ bound := by
  rintro ⟨bound, hbound⟩
  obtain ⟨b, hparse, hheight⟩ := parse_ones bound
  exact absurd (hbound _ b hparse) (Nat.not_le_of_lt hheight)

end Lumen
