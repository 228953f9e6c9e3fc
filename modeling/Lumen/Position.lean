/-! Places in a source text.

Lines and columns count from one, without a bound: in a source with fewer than
`2 ^ 32 - 1` characters they fit words of 32 bits (`scanned_position_lt`). A place on
line zero is *unknown*: it stands on values that no source text produced, and a failure
that carries it takes the place of the call that ran into it instead. -/
namespace Lumen

structure Position where
  line : Nat
  column : Nat
  deriving DecidableEq, Repr, Inhabited

namespace Position

/-- No place in any text. -/
def unknown : Position := ⟨0, 0⟩

/-- The first character of a text. -/
def start : Position := ⟨1, 1⟩

def isUnknown (p : Position) : Bool := p.line == 0

/-- The place after a character that does not end its line. -/
def nextColumn (p : Position) : Position := ⟨p.line, p.column + 1⟩

/-- The place after a line end. -/
def nextLine (p : Position) : Position := ⟨p.line + 1, 1⟩

/-- Reading order: by line, then by column. -/
instance : LT Position where
  lt p q := p.line < q.line ∨ (p.line = q.line ∧ p.column < q.column)

instance (p q : Position) : Decidable (p < q) :=
  inferInstanceAs (Decidable (p.line < q.line ∨ (p.line = q.line ∧ p.column < q.column)))

instance : LE Position where
  le p q := p < q ∨ p = q

instance (p q : Position) : Decidable (p ≤ q) :=
  inferInstanceAs (Decidable (p < q ∨ p = q))

theorem lt_def (p q : Position) :
    p < q ↔ p.line < q.line ∨ (p.line = q.line ∧ p.column < q.column) := Iff.rfl

theorem lt_trans {p q r : Position} (hpq : p < q) (hqr : q < r) : p < r := by
  rw [lt_def] at *
  omega

theorem lt_nextColumn (p : Position) : p < p.nextColumn := by
  rw [lt_def]
  simp [nextColumn]

theorem lt_nextLine (p : Position) : p < p.nextLine := by
  rw [lt_def]
  simp [nextLine]

/-- A list of places in reading order. -/
def sort (ps : List Position) : List Position := ps.mergeSort fun p q => decide (p ≤ q)

/-- The written form `line:column`, or `?:?` for an unknown place. -/
def display (p : Position) : String :=
  if p.isUnknown then "?:?" else toString p.line ++ ":" ++ toString p.column

end Position

end Lumen
