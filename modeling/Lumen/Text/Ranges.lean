/-! Sets of characters written as ranges of code points.

A table lists the first and last code point of every range in ascending order, so
a search may stop at the first range that begins beyond the character. The tables hold
the properties of version 17.0 of the standard. -/
namespace Lumen.Text

/-- The first and the last code point of a run of characters. -/
abbrev CodeRange := Nat × Nat

/-- Whether a code point lies in one of the ranges of an ascending table. -/
def inRanges : List CodeRange → Nat → Bool
  | [], _ => false
  | (first, last) :: rest, n => if n < first then false else n ≤ last || inRanges rest n

end Lumen.Text
