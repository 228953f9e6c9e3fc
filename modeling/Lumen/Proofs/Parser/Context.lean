import Lumen.Proofs.Parser.Soundness
import Lumen.Proofs.Parser.Reads

/-! What stands in front of a token.

A program that is accepted is one that the grammar derives. What the grammar leaves out can be
told from a token and those in front of it (`Follows`): a separator has a statement to end, a
list does not close behind a comma, `=>` comes behind a whole list of parameters, and a
comparison behind an operand that begins where an expression may (`Opening`), so that it does not
belong to a comparison already.

Whether tokens fit is a matter of what they stand behind, so it is shown for each production
behind any tokens that its layer allows: an operand may follow every token, an expression or a
statement only those that it may begin behind. -/
namespace Lumen
open Phrase
open Token (Kind)

namespace Token.Kind

/-- A token that an expression can end with. -/
def endsExpression : Kind → Bool
  | .integer | .text | .boolean | .null | .identifier | .parenClose | .braceClose => true
  | _ => false

/-- A token that a statement can end with. -/
def closes : Kind → Bool
  | .breakWord => true
  | k => k.endsExpression

/-- A comparison, or an operator inside the operands of one. -/
def Tight (k : Kind) : Prop := 3 ≤ k.layer ∧ k.layer ≤ 6

instance (k : Kind) : Decidable k.Tight := inferInstanceAs (Decidable (_ ∧ _))

/-- A token that asks nothing of those in front of it. -/
def free : Kind → Bool
  | .endOfStatement | .parenClose | .arrow => false
  | k => k.comparison?.isNone

theorem not_tight_of_closes (k : Kind) : k.closes → ¬k.Tight := by
  cases k <;> decide

theorem comparison?_of_free (k : Kind) : k.free → k.comparison? = none := by
  cases k <;> decide

end Token.Kind

/-- The kind of the last token. A text begins as if a statement had just ended. -/
def preceding (before : List Token) : Kind := before.getLast?.elim .endOfStatement (·.kind)

@[simp] theorem preceding_concat (before : List Token) (t : Token) :
    preceding (before ++ [t]) = t.kind := by
  simp [preceding]

/-- An expression may begin behind `before`: the last token is no comparison and no tighter
operator, and if another expression ends with it, that is a guard, behind an `if` or a `loop`. -/
structure Opening (before : List Token) : Prop where
  loose : ¬(preceding before).Tight
  body : (preceding before).endsExpression →
    ∃ t ∈ before, t.kind = .ifWord ∨ t.kind = .loopWord

/-- The token `t` may stand behind the tokens `before`. -/
structure Follows (before : List Token) (t : Token) : Prop where
  /-- No statement is empty. -/
  separator : t.kind = .endOfStatement → (preceding before).closes
  /-- No list has a comma at its end. -/
  list : t.kind = .parenClose → preceding before ≠ .comma
  /-- Only parameters make a function. -/
  arrow : t.kind = .arrow → ∃ front opening ts closing names,
    before = front ++ (opening :: ts ++ [closing]) ∧ opening.kind = .parenOpen ∧
      Listed Name ts names ∧ closing.kind = .parenClose
  /-- A comparison is of operands, and what it compares is not compared already. -/
  comparison : t.kind.comparison?.isSome → ∃ front ts n e, before = front ++ ts ∧ Opening front ∧
    Coalescing (Operand (Phrase.parts n)) ts e

/-- Each of the tokens `ts` may stand where it does, behind `before` and those of `ts` in front of
it. -/
def Fits (before ts : List Token) : Prop :=
  ∀ front t back, ts = front ++ t :: back → Follows (before ++ front) t

/-- The tokens `ts` fit behind `before`, and a statement can end with them. -/
structure Completes (before ts : List Token) : Prop where
  fits : Fits before ts
  closes : (preceding (before ++ ts)).closes

/-- What `P` derives completes any tokens that satisfy `p`. -/
def Phrase.Stands {α : Type} (p : List Token → Prop) (P : Phrase α) : Prop :=
  ∀ ts a, P ts a → ∀ before, p before → Completes before ts

variable {before ts us : List Token} {t u : Token}

/-! ### Tokens side by side -/

/-- Tokens that are neither an operand nor a tight operator let an expression begin. -/
theorem Opening.concat (h : ¬t.kind.Tight ∧ t.kind.endsExpression = false) (before : List Token) :
    Opening (before ++ [t]) := by
  refine ⟨?_, fun hends => ?_⟩
  · rw [preceding_concat]
    exact h.1
  · rw [preceding_concat, h.2] at hends
    cases hends

theorem Follows.of_free (h : t.kind.free) (before : List Token) : Follows before t := by
  have hne {k : Kind} (hk : k.free = false) : t.kind ≠ k := by
    rintro rfl
    rw [hk] at h
    cases h
  refine ⟨fun hk => absurd hk (hne rfl), fun hk => absurd hk (hne rfl),
    fun hk => absurd hk (hne rfl), fun hk => ?_⟩
  rw [t.kind.comparison?_of_free h] at hk
  cases hk

namespace Fits

theorem nil (before : List Token) : Fits before [] := by
  intro front t back h
  cases front <;> cases h

theorem append (h : Fits before ts) (hus : Fits (before ++ ts) us) : Fits before (ts ++ us) := by
  intro front t back heq
  obtain ⟨rest, rfl, hback⟩ | ⟨rest, rfl, hrest⟩ := List.append_eq_append_iff.mp heq
  · have := hus rest t back hback
    rwa [List.append_assoc] at this
  · cases rest with
    | nil =>
      have := hus [] t back (by simpa using hrest.symm)
      simpa using this
    | cons w rest =>
      obtain ⟨rfl, rfl⟩ := List.cons.inj hrest
      exact h front t rest rfl

theorem single (h : Follows before t) : Fits before [t] := by
  intro front w back heq
  cases front with
  | nil =>
    obtain ⟨rfl, rfl⟩ := List.cons.inj heq
    simpa using h
  | cons v front => simp at heq

theorem cons (h : Follows before t) (hts : Fits (before ++ [t]) ts) : Fits before (t :: ts) :=
  append (single h) hts

end Fits

namespace Completes

theorem single (hfree : t.kind.free) (hcloses : t.kind.closes) (before : List Token) :
    Completes before [t] :=
  ⟨.single (.of_free hfree before), by rwa [preceding_concat]⟩

theorem append (h : Fits before ts) (hus : Completes (before ++ ts) us) :
    Completes before (ts ++ us) :=
  ⟨h.append hus.fits, List.append_assoc before ts us ▸ hus.closes⟩

theorem cons (h : Follows before t) (hts : Completes (before ++ [t]) ts) :
    Completes before (t :: ts) :=
  append (.single h) hts

/-- Tokens that are closed by a last one. -/
theorem concat (h : Fits before ts) (ht : Follows (before ++ ts) t) (hcloses : t.kind.closes) :
    Completes before (ts ++ [t]) :=
  append h ⟨.single ht, by rwa [preceding_concat]⟩

end Completes

/-! ### Lists and sequences -/

section
variable {α : Type} {item : Phrase α} {as : List α}

theorem stands_name (p : List Token → Prop) : Stands p Name := by
  rintro _ _ ⟨ht⟩ before -
  exact .single (by rw [ht]; rfl) (by rw [ht]; rfl) before

theorem stands_series (hitem : Stands Opening item) : Stands Opening (Series item) := by
  intro ts as h
  induction h with
  | last ha => exact hitem _ _ ha
  | @more ts us t a as ha ht _ ih =>
    intro before hbefore
    have hrest := ih (before ++ ts ++ [t]) (.concat (by rw [ht]; decide) _)
    exact .append (hitem _ _ ha before hbefore).fits (.cons (.of_free (by rw [ht]; rfl) _) hrest)

/-- A list in parentheses, be it of parameters, of arguments or of one expression. -/
theorem completes_parens (hitem : Stands Opening item) (ht : t.kind = .parenOpen)
    (h : Listed item ts as) (hu : u.kind = .parenClose) (before : List Token) :
    Completes before (t :: ts ++ [u]) := by
  obtain ⟨hfits, hcomma⟩ : Fits (before ++ [t]) ts ∧ preceding (before ++ [t] ++ ts) ≠ .comma := by
    cases h with
    | none =>
      refine ⟨.nil _, ?_⟩
      rw [List.append_nil, preceding_concat, ht]
      decide
    | some has =>
      have hcompletes := stands_series hitem _ _ has _ (.concat (by rw [ht]; decide) before)
      refine ⟨hcompletes.fits, fun hcomma => ?_⟩
      have hcloses := hcompletes.closes
      rw [hcomma] at hcloses
      cases hcloses
  refine .cons (.of_free (by rw [ht]; rfl) _) (.concat hfits ?_ (by rw [hu]; rfl))
  exact ⟨by simp [hu], fun _ => hcomma, by simp [hu], by simp [hu, Kind.comparison?]⟩

theorem fits_sequence {lastNeedsSeparator : Bool} (hitem : Stands Opening item)
    (h : Sequence item lastNeedsSeparator ts as) (hbefore : Opening before) :
    Fits before ts := by
  induction h generalizing before with
  | none => exact .nil before
  | last _ ha => exact (hitem _ _ ha before hbefore).fits
  | @more ts us t a as ha ht _ ih =>
    have hcompletes := hitem _ _ ha before hbefore
    have hseparator : Follows (before ++ ts) t :=
      ⟨fun _ => hcompletes.closes, by simp [ht], by simp [ht], by simp [ht, Kind.comparison?]⟩
    exact hcompletes.fits.append (.cons hseparator (ih (.concat (by rw [ht]; decide) _)))

end

/-! ### Expressions -/

/-- The nested parts stand where their layers allow it. -/
structure Phrase.Parts.Stand (parts : Parts) : Prop where
  statement : Stands Opening parts.statement
  expression : Stands Opening parts.expression
  unary : Stands (fun _ => True) parts.unary

section
variable {parts : Parts} {p : List Token → Prop} {operand : Phrase Expression}

theorem stands_braces (h : parts.Stand) : Stands (fun _ => True) (Braces parts) := by
  rintro _ _ ⟨ht, hs, hu⟩ before -
  have hfits := fits_sequence h.statement hs (.concat (by rw [ht]; decide) before)
  exact .cons (.of_free (by rw [ht]; rfl) _)
    (.concat hfits (.of_free (by rw [hu]; rfl) _) (by rw [hu]; rfl))

theorem stands_atom (h : parts.Stand) : Stands (fun _ => True) (Atom parts) := by
  intro ts e he before hbefore
  cases he with
  | @constant t ht =>
    have hconstant : ∀ k ∈ [Kind.integer, .text, .boolean, .null], k.free ∧ k.closes := by decide
    exact .single (hconstant t.kind ht).1 (hconstant t.kind ht).2 before
  | reference ht => exact .single (by rw [ht]; rfl) (by rw [ht]; rfl) before
  | block hb => exact stands_braces h _ _ hb before hbefore
  | group ht he hu => exact completes_parens h.expression ht (.some (.last he)) hu before

theorem stands_function (h : parts.Stand) : Stands (fun _ => True) (Function parts) := by
  rintro _ _ @⟨ts, us, t, u, arrow, names, body, ht, hnames, hu, harrow, hbody⟩ before -
  have hparameters := completes_parens (stands_name _) ht hnames hu before
  have hfollows : Follows (before ++ (t :: ts ++ [u])) arrow :=
    ⟨by simp [harrow], by simp [harrow],
      fun _ => ⟨before, t, ts, u, names, rfl, ht, hnames, hu⟩, by simp [harrow, Kind.comparison?]⟩
  have hcompletes := h.statement _ _ hbody _
    (.concat (by rw [harrow]; decide) (before ++ (t :: ts ++ [u])))
  have := Completes.append hparameters.fits (.cons hfollows hcompletes)
  simpa using this

theorem stands_factor (h : parts.Stand) : Stands (fun _ => True) (Factor parts) := by
  intro ts e he
  cases he with
  | atom he => exact stands_atom h _ _ he
  | lambda hf => exact stands_function h _ _ hf

theorem stands_call (h : parts.Stand) :
    Stands (fun _ => True) (Call (Factor parts) parts.expression) := by
  intro ts e he before _
  induction he with
  | factor he => exact stands_factor h _ _ he before trivial
  | call _ ht hgiven hu ih =>
    have := Completes.append ih.fits (completes_parens h.expression ht hgiven hu _)
    simpa using this

theorem stands_operand (h : parts.Stand) : Stands (fun _ => True) (Operand parts) := by
  intro ts e he before _
  cases he with
  | negate ht he => exact .cons (.of_free (by rw [ht]; rfl) _) (h.unary _ _ he _ trivial)
  | call he => exact stands_call h _ _ he before trivial

theorem stands_leftChain {operator? : Kind → Option Operator} (hoperand : Stands p operand)
    (hfree : ∀ k, (operator? k).isSome → k.free)
    (hp : ∀ t, (operator? t.kind).isSome → ∀ before, p (before ++ [t])) :
    Stands p (LeftChain operator? operand) := by
  intro ts e he before hbefore
  induction he with
  | single he => exact hoperand _ _ he before hbefore
  | @join ts us t left right operator _ ht hright ih =>
    have hsome : (operator? t.kind).isSome := by rw [ht]; rfl
    have hcompletes := hoperand _ _ hright (before ++ ts ++ [t]) (hp t hsome _)
    exact .append ih.fits (.cons (.of_free (hfree _ hsome) _) hcompletes)

theorem stands_comparison {n : Nat}
    (hoperand : Stands (fun _ => True) (Coalescing (Operand (Phrase.parts n)))) :
    Stands Opening (Comparison (Coalescing (Operand (Phrase.parts n)))) := by
  intro ts e he before hbefore
  cases he with
  | single he => exact hoperand _ _ he before trivial
  | @compare ts us t left right operator hleft ht hright =>
    have hne {k : Kind} (hk : k.comparison? = none) : t.kind ≠ k := by
      rintro rfl
      rw [hk] at ht
      cases ht
    have hfollows : Follows (before ++ ts) t :=
      ⟨fun hk => absurd hk (hne rfl), fun hk => absurd hk (hne rfl), fun hk => absurd hk (hne rfl),
        fun _ => ⟨before, ts, n, left, rfl, hbefore, hleft⟩⟩
    exact .append (hoperand _ _ hleft before trivial).fits
      (.cons hfollows (hoperand _ _ hright _ trivial))

theorem stands_disjunction {n : Nat} (h : (Phrase.parts n).Stand) :
    Stands Opening (Disjunction (Operand (Phrase.parts n))) := by
  have hproduct : Stands (fun _ => True) (Product (Operand (Phrase.parts n))) :=
    stands_leftChain (stands_operand h) (fun k => by cases k <;> decide) fun _ _ _ => trivial
  have hsum : Stands (fun _ => True) (Sum (Operand (Phrase.parts n))) :=
    stands_leftChain hproduct (fun k => by cases k <;> decide) fun _ _ _ => trivial
  have hcoalescing : Stands (fun _ => True) (Coalescing (Operand (Phrase.parts n))) :=
    stands_leftChain hsum (fun k => by cases k <;> decide) fun _ _ _ => trivial
  have hand : ∀ k : Kind, k.andOperator?.isSome → ¬k.Tight ∧ k.endsExpression = false := fun k => by
    cases k <;> decide
  have hor : ∀ k : Kind, k.orOperator?.isSome → ¬k.Tight ∧ k.endsExpression = false := fun k => by
    cases k <;> decide
  have hconjunction : Stands Opening (Conjunction (Operand (Phrase.parts n))) :=
    stands_leftChain (stands_comparison hcoalescing) (fun k => by cases k <;> decide)
      fun t ht => .concat (hand t.kind ht)
  exact stands_leftChain hconjunction (fun k => by cases k <;> decide)
    fun t ht => .concat (hor t.kind ht)

/-! ### Statements -/

section
variable {statement : Phrase Statement} (h : Stands Opening statement)
include h

/-- A guard and a body, behind the word that asks for them. -/
theorem completes_guarded {b : Branch} (hb : Guarded statement ts b)
    (ht : t.kind = .ifWord ∨ t.kind = .loopWord) (before : List Token) :
    Completes (before ++ [t]) ts := by
  obtain @⟨ts, us, guard, body, hguard, hbody⟩ := hb
  have hopening : Opening (before ++ [t]) := .concat (by obtain h | h := ht <;> rw [h] <;> decide) _
  have hcompletes := h _ _ hguard _ hopening
  refine .append hcompletes.fits (h _ _ hbody _ ⟨?_, fun _ => ⟨t, by simp, ht⟩⟩)
  exact Kind.not_tight_of_closes _ hcompletes.closes

theorem completes_alternatives {found : List Branch × Option Statement}
    (hfound : Alternatives (Guarded statement) statement ts found)
    (hbefore : (preceding before).closes) : Completes before ts := by
  induction hfound generalizing before with
  | none => exact ⟨.nil before, by rwa [List.append_nil]⟩
  | otherwise ht hs =>
    exact .cons (.of_free (by rw [ht]; rfl) _) (h _ _ hs _ (.concat (by rw [ht]; decide) before))
  | @elseIf ts us t u b bs otherwise ht hu hb _ ih =>
    have hbranch := completes_guarded h hb (.inl hu) (before ++ [t])
    exact .cons (.of_free (by rw [ht]; rfl) _) (.cons (.of_free (by rw [hu]; rfl) _)
      (.append hbranch.fits (ih hbranch.closes)))

end

theorem stands_sentence (h : parts.Stand) : Stands Opening (Sentence parts) := by
  intro ts s hs before hbefore
  cases hs with
  | condition ht hb hbs =>
    have hbranch := completes_guarded h.statement hb (.inl ht) before
    exact .cons (.of_free (by rw [ht]; rfl) _)
      (.append hbranch.fits (completes_alternatives h.statement hbs hbranch.closes))
  | loop ht hguard hbody =>
    exact .cons (.of_free (by rw [ht]; rfl) _)
      (completes_guarded h.statement (.branch hguard hbody) (.inr ht) before)
  | breakOut ht => exact .single (by rw [ht]; rfl) (by rw [ht]; rfl) before
  | breakWith ht hs =>
    exact .cons (.of_free (by rw [ht]; rfl) _)
      (h.statement _ _ hs _ (.concat (by rw [ht]; decide) before))
  | @bind ts t u s binding ht hu hs =>
    have hbinding : ∀ k, (Grammar.binding? k).isSome → k.free ∧ ¬k.Tight ∧ k.endsExpression = false :=
      fun k => by cases k <;> decide
    obtain ⟨hfree, hopening⟩ := hbinding u.kind (by rw [hu]; rfl)
    exact .cons (.of_free (by rw [ht]; rfl) _) (.cons (.of_free hfree _)
      (h.statement _ _ hs _ (.concat hopening (before ++ [t]))))
  | expression he => exact h.expression _ _ he before hbefore

theorem stand_parts (n : Nat) : (Phrase.parts n).Stand := by
  induction n with
  | zero => exact ⟨nofun, nofun, nofun⟩
  | succ n ih => exact ⟨stands_sentence ih, stands_disjunction ih, stands_operand ih⟩

end

/-! ### Programs -/

theorem fits_program {n : Nat} {b : Block} (h : Program (Phrase.parts n) ts b) : Fits [] ts := by
  obtain ⟨hs, hlast, _⟩ := h
  have hopening : Opening [] := ⟨by decide, nofun⟩
  have hfits := fits_sequence (stand_parts n).statement hs hopening
  exact hfits.append (.single (.of_free (by rw [hlast]; rfl) _))

/-- **Only programs are accepted.** If a source is accepted, it has all its tokens, and without the
comments they derive, with no more levels of nesting than allowed, the program that is given
back. So each of them stands where it may: there is no empty statement, no comma at the end of
a list, no function without proper parameters and no comparison of a comparison, unless a
function or parentheses enclose it. -/
theorem parse_sound {source : String} {b : Block} (h : parse source = .ok b) :
    ∃ ts, tokenize source = .ok ts ∧
      Program (Phrase.parts Parser.maxNesting) (Token.Stream.uncommented ts) b ∧
      ∀ before t after, Token.Stream.uncommented ts = before ++ t :: after → Follows before t := by
  have hcases := parse_cases source
  rw [h] at hcases
  obtain ⟨ts, htokens, hprogram⟩ := hcases
  exact ⟨ts, htokens, hprogram, fits_program hprogram⟩

/-- A function, and a comparison of what it gives. -/
theorem parse_sound_function : ∃ b ts, parse "f = (a) => -a; f(1) < 2;" = .ok b ∧
    tokenize "f = (a) => -a; f(1) < 2;" = .ok ts ∧
    Program (Phrase.parts Parser.maxNesting) (Token.Stream.uncommented ts) b ∧
    ∀ before t after, Token.Stream.uncommented ts = before ++ t :: after → Follows before t := by
  have hok : (parse "f = (a) => -a; f(1) < 2;").isOk := by decide +kernel
  cases hparse : parse "f = (a) => -a; f(1) < 2;" with
  | error e =>
    rw [hparse] at hok
    cases hok
  | ok b =>
    obtain ⟨ts, htokens, hprogram, hfollows⟩ := parse_sound hparse
    exact ⟨b, ts, rfl, htokens, hprogram, hfollows⟩

example : ["(a b) => c;", "(a,) => c;", "f(a,);", ";", "a < b < c;"].filter
    (fun source => (parse source).isOk) = [] := by
  decide +kernel

end Lumen
