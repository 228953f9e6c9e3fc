import Lumen.Value.Operation

/-! The order of values.

Texts are compared character by character as far as both of them go. One is less than another if it
comes first in the order of its code points and does not begin the other one (`textLess_iff`). The
two then differ at some place, and what stands behind that place does not matter
(`textLess_append`), which is why the comparison is transitive. That neither of two texts is less is
not: both `ab` and `ac` begin with `a`.

Of other values integers are compared. Only a closure cannot be compared, whatever it is compared
with and on whatever side it is (`less_of_closure`, `less_of_no_closure`), so the four comparisons
fail together. -/
namespace Lumen.Value

/-! ### Texts -/

section Texts
variable {r s t : List Char}

theorem textLess_iff : textLess s t = true ↔ s < t ∧ ¬s <+: t := by
  induction s generalizing t with
  | nil => simp [textLess]
  | cons c cs ih =>
    cases t with
    | nil => simp [textLess]
    | cons d ds =>
      rw [textLess, List.cons_lt_cons_iff, List.cons_prefix_cons]
      by_cases hcd : c = d
      · simp [hcd, ih]
      · simp [hcd]

/-- What follows the place where two texts differ does not matter. -/
theorem textLess_append (h : textLess s t = true) (s' t' : List Char) :
    textLess (s ++ s') (t ++ t') = true := by
  fun_induction textLess s t with
  | case1 c cs ds ih => simpa [textLess] using ih h
  | case2 c cs d ds hne => simpa [textLess, hne] using h
  | case3 => cases h

theorem textLess_irrefl (s : List Char) : ¬textLess s s = true := by
  rw [textLess_iff]
  exact fun h => h.2 List.prefix_rfl

theorem textLess_asymm (h : textLess s t = true) : ¬textLess t s = true := by
  rw [textLess_iff] at *
  exact fun h' => List.lt_asymm h.1 h'.1

theorem textLess_trans (hrs : textLess r s = true) (hst : textLess s t = true) :
    textLess r t = true := by
  have hlt := textLess_iff.mp hst
  refine textLess_iff.mpr ⟨List.lt_trans (textLess_iff.mp hrs).1 hlt.1, ?_⟩
  -- If the first text began the last one, the second would not be less than that one.
  rintro ⟨rest, rfl⟩
  have hback := textLess_append hrs rest []
  rw [List.append_nil] at hback
  exact textLess_asymm hst hback

theorem textLess_iff_lt (h : ¬s <+: t) : textLess s t = true ↔ s < t := by
  rw [textLess_iff]
  exact and_iff_left h

/-- A text is not less than one that it begins, and that one is not less than it. -/
theorem not_textLess_of_begins (h : s <+: t) : ¬textLess s t = true ∧ ¬textLess t s = true := by
  refine ⟨fun hst => (textLess_iff.mp hst).2 h, fun hts => ?_⟩
  obtain ⟨rest, rfl⟩ := h
  have hself := textLess_append hts [] rest
  rw [List.append_nil] at hself
  exact textLess_irrefl _ hself

/-- Neither of two texts is less if and only if one of them begins the other. -/
theorem not_textLess_iff :
    ¬textLess s t = true ∧ ¬textLess t s = true ↔ s <+: t ∨ t <+: s := by
  constructor
  · rintro ⟨hst, hts⟩
    by_cases hs : s <+: t
    · exact .inl hs
    by_cases ht : t <+: s
    · exact .inr ht
    rw [textLess_iff_lt hs, List.not_lt] at hst
    rw [textLess_iff_lt ht, List.not_lt] at hts
    exact .inl (List.le_antisymm hts hst ▸ List.prefix_rfl)
  · rintro (h | h)
    · exact not_textLess_of_begins h
    · exact (not_textLess_of_begins h).symm

/-- Of two texts that do not begin one another exactly one is less. -/
theorem textLess_iff_not (hs : ¬s <+: t) (ht : ¬t <+: s) :
    textLess s t = true ↔ ¬textLess t s = true := by
  refine ⟨textLess_asymm, fun hts => ?_⟩
  by_cases hst : textLess s t = true
  · exact hst
  · exact absurd (not_textLess_iff.mp ⟨hst, hts⟩) (not_or.mpr ⟨hs, ht⟩)

end Texts

/-! ### Values -/

section Values
variable {left right : Value} {position : Position}

theorem toText_of_no_closure (position : Position) {v : Value} (h : v.tag ≠ .closure) :
    ∃ s, v.toText position = .ok s := by
  cases v with
  | closure c => exact absurd rfl h
  | _ => exact ⟨_, rfl⟩

theorem toText_of_closure {v : Value} (h : v.tag = .closure) :
    v.toText position = .error (.runtime position (.coercion .closure .text)) := by
  cases v with
  | closure c => rfl
  | _ => cases h

theorem toInteger_of_no_closure (position : Position) {v : Value} (h : v.tag ≠ .closure)
    (htext : v.isText = false) : ∃ n, v.toInteger position = .ok n := by
  cases v with
  | closure c => exact absurd rfl h
  | text s => cases htext
  | _ => exact ⟨_, rfl⟩

theorem toInteger_of_closure {v : Value} (h : v.tag = .closure) :
    v.toInteger position = .error (.runtime position (.coercion .closure .integer)) := by
  cases v with
  | closure c => rfl
  | _ => cases h

/-- Values other than closures can be compared. -/
theorem less_of_no_closure (position : Position) (hleft : left.tag ≠ .closure) (hright : right.tag ≠ .closure) :
    ∃ b, less position left right = .ok b := by
  unfold less
  split
  · obtain ⟨s, hs⟩ := toText_of_no_closure position hleft
    obtain ⟨t, ht⟩ := toText_of_no_closure position hright
    rw [hs, ht]
    exact ⟨_, rfl⟩
  · next hno =>
    obtain ⟨hl, hr⟩ := Bool.or_eq_false_iff.mp (Bool.eq_false_iff.mpr hno)
    obtain ⟨m, hm⟩ := toInteger_of_no_closure position hleft hl
    obtain ⟨n, hn⟩ := toInteger_of_no_closure position hright hr
    rw [hm, hn]
    exact ⟨_, rfl⟩

/-- How a comparison with a closure fails. -/
def closureFailure (position : Position) (left right : Value) : Error :=
  .runtime position (.coercion .closure (if left.isText || right.isText then .text else .integer))

theorem closureFailure_comm (position : Position) (left right : Value) :
    closureFailure position left right = closureFailure position right left := by
  rw [closureFailure, closureFailure, Bool.or_comm]

/-- A closure cannot be compared. -/
theorem less_of_closure (position : Position) (h : left.tag = .closure ∨ right.tag = .closure) :
    less position left right = .error (closureFailure position left right) := by
  unfold less closureFailure
  by_cases htext : (left.isText || right.isText) = true
  · rw [if_pos htext, if_pos htext]
    by_cases hleft : left.tag = .closure
    · rw [toText_of_closure hleft]
      rfl
    · obtain ⟨s, hs⟩ := toText_of_no_closure position hleft
      rw [hs, toText_of_closure (h.resolve_left hleft)]
      rfl
  · rw [if_neg htext, if_neg htext]
    have hno := (Bool.or_eq_false_iff.mp (Bool.eq_false_iff.mpr htext)).1
    by_cases hleft : left.tag = .closure
    · rw [toInteger_of_closure hleft]
      rfl
    · obtain ⟨m, hm⟩ := toInteger_of_no_closure position hleft hno
      rw [hm, toInteger_of_closure (h.resolve_left hleft)]
      rfl

/-- The four comparisons of two values come to this. -/
structure Compared (position : Position) (left right : Value)
    (less greater lessEqual greaterEqual : Except Error Value) : Prop where
  less : binary .less left right position = less
  greater : binary .greater left right position = greater
  lessEqual : binary .lessEqual left right position = lessEqual
  greaterEqual : binary .greaterEqual left right position = greaterEqual

/-- Less-than in both directions decides all four. -/
theorem compared {less greater : Except Error Bool} (hless : left.less position right = less)
    (hgreater : right.less position left = greater) :
    Compared position left right (boolean <$> less) (boolean <$> greater)
      ((fun b => boolean !b) <$> greater) ((fun b => boolean !b) <$> less) := by
  subst hless hgreater
  exact ⟨rfl, rfl, rfl, rfl⟩

theorem compared_of_closure (h : left.tag = .closure ∨ right.tag = .closure) :
    ∃ e, Compared position left right (.error e) (.error e) (.error e) (.error e) := by
  have hgreater := less_of_closure position h.symm
  rw [closureFailure_comm] at hgreater
  exact ⟨_, compared (less_of_closure position h) hgreater⟩

theorem compared_of_no_closure (h : ¬(left.tag = .closure ∨ right.tag = .closure)) :
    ∃ less greater : Bool, Compared position left right (.ok (.boolean less))
      (.ok (.boolean greater)) (.ok (.boolean !greater)) (.ok (.boolean !less)) := by
  obtain ⟨hleft, hright⟩ := not_or.mp h
  obtain ⟨b, hless⟩ := less_of_no_closure position hleft hright
  obtain ⟨b', hgreater⟩ := less_of_no_closure position hright hleft
  exact ⟨b, b', compared hless hgreater⟩

end Values

/-! ### Comparisons -/

theorem compared_texts (position : Position) (a b : String) :
    Compared position (.text a) (.text b) (.ok (.boolean (textLess a.toList b.toList)))
      (.ok (.boolean (textLess b.toList a.toList))) (.ok (.boolean !textLess b.toList a.toList))
      (.ok (.boolean !textLess a.toList b.toList)) := compared rfl rfl

/-- The comparison of two texts gives true. -/
def Holds (position : Position) (operator : Operator) (a b : String) : Prop :=
  binary operator (.text a) (.text b) position = .ok (.boolean true)

theorem holds_less {position : Position} {a b : String} :
    Holds position .less a b ↔ textLess a.toList b.toList = true := by
  rw [Holds, (compared_texts position a b).less]
  simp

theorem holds_lessEqual {position : Position} {a b : String} :
    Holds position .lessEqual a b ↔ ¬textLess b.toList a.toList = true := by
  rw [Holds, (compared_texts position a b).lessEqual]
  simp

/-- **Comparisons are orders, but for texts of which one begins the other.** Less-than on texts is
irreflexive, asymmetric and transitive. Of two texts that do not begin one another exactly one is
less, the one that comes first in the order of code points, and two texts are each at most the other
if and only if one of them begins the other. Whatever the values, greater-than is less-than with the
operands exchanged, and at-most and at-least are the opposites of greater-than and less-than, unless
one of the values is a closure: then all four fail alike. -/
theorem comparison_laws (position : Position) :
    (∀ a b c : String,
      ¬Holds position .less a a ∧
      (Holds position .less a b → ¬Holds position .less b a) ∧
      (Holds position .less a b → Holds position .less b c → Holds position .less a c) ∧
      (¬a.toList <+: b.toList → ¬b.toList <+: a.toList →
        (Holds position .less a b ↔ ¬Holds position .less b a) ∧
          (Holds position .less a b ↔ a < b)) ∧
      (Holds position .lessEqual a b ∧ Holds position .lessEqual b a ↔
        a.toList <+: b.toList ∨ b.toList <+: a.toList)) ∧
    ∀ left right : Value,
      binary .greater left right position = binary .less right left position ∧
      ((left.tag = .closure ∨ right.tag = .closure) →
        ∃ e, Compared position left right (.error e) (.error e) (.error e) (.error e)) ∧
      (¬(left.tag = .closure ∨ right.tag = .closure) →
        ∃ less greater : Bool, Compared position left right (.ok (.boolean less))
          (.ok (.boolean greater)) (.ok (.boolean !greater)) (.ok (.boolean !less))) := by
  refine ⟨fun a b c => ?_, fun left right =>
    ⟨rfl, compared_of_closure, compared_of_no_closure⟩⟩
  simp only [holds_less, holds_lessEqual]
  refine ⟨textLess_irrefl _, textLess_asymm, textLess_trans, fun ha hb => ?_, ?_⟩
  · exact ⟨textLess_iff_not ha hb, textLess_iff_lt ha⟩
  · rw [and_comm]
    exact not_textLess_iff

/-- A text and one that it begins are each at most the other, a text that differs from both is less
or greater, and a closure is neither. -/
theorem comparison_laws_beginning :
    (¬"ab".toList <+: "b".toList ∧ ¬"b".toList <+: "ab".toList) ∧
      (Holds .start .less "ab" "b" ↔ ¬Holds .start .less "b" "ab") ∧
      (Holds .start .less "ab" "b" ↔ "ab" < "b") ∧
      (Holds .start .lessEqual "ab" "a" ∧ Holds .start .lessEqual "a" "ab") ∧
      ∃ e, Compared .start (.closure ⟨0, .native ⟨none, "f", []⟩, 0⟩) (.text "f")
        (.error e) (.error e) (.error e) (.error e) := by
  obtain ⟨htexts, hvalues⟩ := comparison_laws .start
  have hapart : ¬"ab".toList <+: "b".toList ∧ ¬"b".toList <+: "ab".toList := by decide
  obtain ⟨-, -, -, hdiffer, -⟩ := htexts "ab" "b" "b"
  obtain ⟨-, -, -, -, hbegins⟩ := htexts "ab" "a" "a"
  obtain ⟨-, hclosure, -⟩ := hvalues (.closure ⟨0, .native ⟨none, "f", []⟩, 0⟩) (.text "f")
  obtain ⟨hone, hfirst⟩ := hdiffer hapart.1 hapart.2
  exact ⟨hapart, hone, hfirst, hbegins.mpr (.inr (by decide)), hclosure (.inl rfl)⟩

end Lumen.Value
