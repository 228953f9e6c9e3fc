import Lumen.Proofs.Token.Stream

/-! Reading tokens through a buffer.

A lexer need not have all items of a text at hand. It can draw them one by one when it looks at
them, hold them in a buffer while automata read ahead, go back to where a token began, and drop
what lies behind it only when the next token is due. `Buffer.next` reads a token in that way. It
fails if it ever asks for an item outside the buffer, and if a loop of it has not ended after a
turn for every item and one more.

Neither happens: wherever the buffer and the items to come hold what a lexer has left (`Holds`),
reading through the buffer gives what the lexer gives and holds what the lexer leaves
(`Buffer.yields_next`). -/
namespace Lumen
open Token

/-- What a lexer has left after `count` attempts. -/
def Lexer.after : Nat → Lexer → Lexer
  | 0, l => l
  | count + 1, l => l.next.2.after count

structure Buffer where
  /-- The items that have not been drawn yet. -/
  upcoming : List Scanned
  /-- Where the text ends. -/
  finish : Position
  /-- The items that have been drawn and not dropped, ends of text included. -/
  held : List Scanned
  /-- How many of the items held have been read. -/
  cursor : Nat

/-- A computation on a buffer, which may fail. -/
abbrev Buffered := StateT Buffer Option

namespace Buffer

def ofSource (source : String) : Buffer :=
  ⟨scan source, placeAfter .start (scan source), [], 0⟩

/-! ### Items -/

/-- Draws the next item, or an end of text behind the last one. -/
def draw (b : Buffer) : Buffer :=
  match b.upcoming with
  | [] => { b with held := b.held ++ [.endAt b.finish] }
  | s :: rest => { b with upcoming := rest, held := b.held ++ [s] }

def drawTimes : Nat → Buffer → Buffer
  | 0, b => b
  | count + 1, b => drawTimes count b.draw

/-- The item at the cursor, drawn if it has to be. -/
def peek : Buffered Scanned := fun b =>
  let b := b.drawTimes (b.cursor + 1 - b.held.length)
  b.held[b.cursor]?.map (·, b)

def moveTo (cursor : Nat) : Buffered Unit := modify ({ · with cursor })

/-- Reads the item at the cursor. The end of text is never used up. -/
def advance : Buffered Scanned := do
  let s ← peek
  if s.symbol ≠ .endOfText then
    moveTo ((← get).cursor + 1)
  return s

def advanceTimes : Nat → Buffered Unit
  | 0 => pure ()
  | count + 1 => do
    let _ ← advance
    advanceTimes count

/-- Drops what has been read. -/
def commit : Buffered Unit := fun b =>
  if b.cursor ≤ b.held.length then
    some ((), { b with held := b.held.drop b.cursor, cursor := 0 })
  else none

/-- The raw text of the items held from one index up to another. -/
def text (start stop : Nat) : Buffered String := fun b =>
  if start ≤ stop ∧ stop ≤ b.held.length then
    some (Lexer.rawText ((b.held.take stop).drop start), b)
  else none

/-! ### Tokens -/

def skipBlanks : (turns : Nat) → Buffered Unit
  | 0 => failure
  | turns + 1 => do
    if (← peek).isBlank then
      let _ ← advance
      skipBlanks turns
    else
      return ()

/-- Runs the race of the automata, `used` items of which have been read before. -/
def race (live : List Automaton) (best : Lexer.Best) (used : Nat) :
    (turns : Nat) → Buffered (Except Fault Lexer.Best)
  | 0 => failure
  | turns + 1 => do
    if live.isEmpty then
      return .ok best
    else
      let s ← advance
      match Lexer.feed s.symbol live with
      | .error f => return .error f
      | .ok round =>
        let best := match round.completed with
          | some a => some (a, used + 1)
          | none => best
        if s.symbol = .endOfText then
          return .ok best
        else
          race round.survivors best (used + 1) turns

/-- The value of a token that `winner` recognised in the `length` items from `start` on. -/
def valueOf (winner : Automaton) (start length : Nat) : Buffered Payload :=
  match winner with
  | .fixed spelling _ =>
    return if spelling.kind = .boolean then .boolean (spelling.letters == ['t', 'r', 'u', 'e'])
      else .none
  | .integer value _ _ => return .integer (Int32.ofNat value.toNat)
  | .identifier _ => return .text (← text start (start + length))
  | .text _ => return .text (← text (start + 1) (start + length - 1))
  | .comment _ => return .text (← text (start + 1) (start + length))

/-- A turn for every item that there is, and one more. -/
def turns (b : Buffer) : Nat := b.held.length + b.upcoming.length + 1

/-- The next token. -/
def next : Buffered (Except Error Token) := do
  skipBlanks (← get).turns
  commit
  let first ← peek
  if first.symbol = .endOfText then
    return .ok (.endAt first.position)
  else
    let start := (← get).cursor
    match ← race Automaton.initialSet none 0 (← get).turns with
    | .error f => return .error (.lex first.position (.fault f))
    | .ok none => return .error (.lex first.position (.unexpected first.raw))
    | .ok (some (winner, length)) =>
      moveTo start
      advanceTimes length
      return .ok ⟨winner.kind, ← valueOf winner start length, first.position, length⟩

/-- What the next `count` attempts give, whether they fail or not. -/
def pull : Nat → Buffered (List (Except Error Token))
  | 0 => return []
  | count + 1 => do
    let result ← next
    return result :: (← pull count)

/-! ### What a computation yields -/

/-- From `b`, the computation `m` does not fail, and `Q` holds of its result and of the buffer that
it leaves. -/
def Yields {α : Type} (m : Buffered α) (b : Buffer) (Q : α → Buffer → Prop) : Prop :=
  ∃ a b', m b = some (a, b') ∧ Q a b'

namespace Yields
variable {α β : Type} {m : Buffered α} {b : Buffer} {Q : α → Buffer → Prop}

theorem pure {a : α} (h : Q a b) : Yields (Pure.pure a) b Q := ⟨a, b, rfl, h⟩

theorem bind {f : α → Buffered β} {Q : β → Buffer → Prop}
    (h : Yields m b fun a b' => Yields (f a) b' Q) : Yields (m >>= f) b Q := by
  obtain ⟨a, b', hm, c, b'', hf, hQ⟩ := h
  refine ⟨c, b'', ?_, hQ⟩
  show (m b).bind (fun (a, b') => f a b') = _
  rw [hm]
  exact hf

theorem mono {Q' : α → Buffer → Prop} (h : Yields m b Q) (himp : ∀ a b', Q a b' → Q' a b') :
    Yields m b Q' := by
  obtain ⟨a, b', hm, hQ⟩ := h
  exact ⟨a, b', hm, himp a b' hQ⟩

theorem get {Q : Buffer → Buffer → Prop} (h : Q b b) : Yields MonadState.get b Q := ⟨b, b, rfl, h⟩

theorem moveTo {cursor : Nat} {Q : Unit → Buffer → Prop} (h : Q () { b with cursor }) :
    Yields (moveTo cursor) b Q := ⟨(), _, rfl, h⟩

end Yields

/-! ### What a buffer holds -/

/-- From the index `i` on, the buffer and the items to come are what `l` has left, and behind them
ends of text that have been drawn. -/
structure Holds (b : Buffer) (i : Nat) (l : Lexer) : Prop where
  bound : i ≤ b.held.length
  finish : b.finish = l.finish
  items : ∃ ends, b.held.drop i ++ b.upcoming = l.rest ++ ends ∧
    (∀ s ∈ ends, s = .endAt l.finish) ∧ (ends = [] ∨ b.upcoming = [])
  proper : ∀ s ∈ l.rest, s.symbol ≠ .endOfText

/-- Whatever `b` holds from some index on, `b'` holds as well. -/
def Grows (b b' : Buffer) : Prop := ∀ i l, b.Holds i l → b'.Holds i l

variable {b b' : Buffer} {i : Nat} {l : Lexer} {s : Scanned} {rest : List Scanned}

theorem Grows.refl (b : Buffer) : b.Grows b := fun _ _ h => h

theorem Grows.trans {b'' : Buffer} (h : b.Grows b') (h' : b'.Grows b'') : b.Grows b'' :=
  fun i l hl => h' i l (h i l hl)

theorem grows_cursor (b : Buffer) (cursor : Nat) : b.Grows { b with cursor } :=
  fun _ _ h => ⟨h.bound, h.finish, h.items, h.proper⟩

theorem draw_of_nil (h : b.upcoming = []) :
    b.draw = { b with held := b.held ++ [.endAt b.finish] } := by
  rw [draw, h]

theorem draw_of_cons (h : b.upcoming = s :: rest) :
    b.draw = { b with upcoming := rest, held := b.held ++ [s] } := by
  rw [draw, h]

theorem grows_draw (b : Buffer) : b.Grows b.draw := by
  intro i l h
  obtain ⟨ends, hitems, hends, hlast⟩ := h.items
  have hdrop : ∀ s, (b.held ++ [s]).drop i = b.held.drop i ++ [s] := fun s =>
    List.drop_append_of_le_length h.bound
  cases hupcoming : b.upcoming with
  | nil =>
    rw [hupcoming, List.append_nil] at hitems
    rw [draw_of_nil hupcoming]
    refine ⟨Nat.le_trans h.bound (by simp), h.finish,
      ⟨ends ++ [.endAt b.finish], ?_, ?_, .inr hupcoming⟩, h.proper⟩
    · rw [hdrop, hupcoming, List.append_nil, hitems, List.append_assoc]
    · rw [h.finish]
      exact List.forall_mem_append.mpr ⟨hends, List.forall_mem_singleton.mpr rfl⟩
  | cons s rest =>
    rw [hupcoming] at hitems hlast
    obtain rfl | hnil := hlast
    · rw [draw_of_cons hupcoming]
      refine ⟨Nat.le_trans h.bound (by simp), h.finish, ⟨[], ?_, nofun, .inl rfl⟩, h.proper⟩
      rw [hdrop, List.append_assoc]
      exact hitems
    · cases hnil

theorem drawTimes_spec (count : Nat) (b : Buffer) :
    b.Grows (b.drawTimes count) ∧ (b.drawTimes count).cursor = b.cursor ∧
      (b.drawTimes count).held.length = b.held.length + count := by
  induction count generalizing b with
  | zero => exact ⟨.refl b, rfl, rfl⟩
  | succ count ih =>
    obtain ⟨hgrows, hcursor, hlength⟩ := ih b.draw
    have hdraw : b.draw.cursor = b.cursor ∧ b.draw.held.length = b.held.length + 1 := by
      unfold draw
      split <;> simp
    refine ⟨(grows_draw b).trans hgrows, hcursor.trans hdraw.1, ?_⟩
    rw [drawTimes, hlength, hdraw.2]
    omega

namespace Holds

/-- The item held at an index is the first one left, or an end of text. -/
theorem getElem? (h : b.Holds i l) (hi : i < b.held.length) :
    b.held[i]? = some (l.rest.headD (.endAt l.finish)) := by
  obtain ⟨ends, hitems, hends, -⟩ := h.items
  rw [List.drop_eq_getElem_cons hi, List.cons_append] at hitems
  rw [List.getElem?_eq_getElem hi]
  cases hrest : l.rest with
  | nil =>
    rw [hrest, List.nil_append] at hitems
    exact congrArg some (hends _ (hitems ▸ List.mem_cons_self))
  | cons s rest =>
    rw [hrest, List.cons_append] at hitems
    exact congrArg some (List.cons.inj hitems).1

theorem succ (h : b.Holds i l) (hrest : l.rest = s :: rest) (hi : i < b.held.length) :
    b.Holds (i + 1) { l with rest } := by
  obtain ⟨ends, hitems, hends, hlast⟩ := h.items
  rw [List.drop_eq_getElem_cons hi, hrest, List.cons_append, List.cons_append] at hitems
  refine ⟨hi, h.finish, ⟨ends, (List.cons.inj hitems).2, hends, hlast⟩, fun s hs => ?_⟩
  exact h.proper s (hrest ▸ List.mem_cons_of_mem _ hs)

/-- There is a turn for every item left. -/
theorem length_lt (h : b.Holds i l) : l.rest.length < b.turns := by
  obtain ⟨ends, hitems, -⟩ := h.items
  have hlength := congrArg List.length hitems
  simp only [List.length_append, List.length_drop] at hlength
  unfold turns
  omega

theorem take (h : b.Holds i l) {n : Nat} (hheld : i + n ≤ b.held.length)
    (hn : n ≤ l.rest.length) : (b.held.drop i).take n = l.rest.take n := by
  obtain ⟨ends, hitems, -⟩ := h.items
  have hlength : n ≤ (b.held.drop i).length := by
    rw [List.length_drop]
    omega
  have htake := congrArg (List.take n) hitems
  rwa [List.take_append_of_le_length hlength, List.take_append_of_le_length hn] at htake

end Holds

/-! ### Reading on -/

/-- From `b` to `b'` the first `count` items that `l` has left were read. -/
structure Reads (l : Lexer) (count : Nat) (b b' : Buffer) : Prop where
  grows : b.Grows b'
  cursor : b'.cursor = b.cursor + count
  holds : b'.Holds b'.cursor { l with rest := l.rest.drop count }

theorem Reads.trans {count more : Nat} {b'' : Buffer} (h : Reads l count b b')
    (h' : Reads { l with rest := l.rest.drop count } more b' b'') :
    Reads l (count + more) b b'' := by
  refine ⟨h.grows.trans h'.grows, ?_, ?_⟩
  · rw [h'.cursor, h.cursor, Nat.add_assoc]
  · have hholds := h'.holds
    rw [List.drop_drop] at hholds
    exact hholds

theorem yields_peek (h : b.Holds b.cursor l) : Yields peek b fun s b' =>
    s = l.rest.headD (.endAt l.finish) ∧ Reads l 0 b b' ∧ b'.cursor < b'.held.length := by
  obtain ⟨hgrows, hcursor, hlength⟩ := drawTimes_spec (b.cursor + 1 - b.held.length) b
  have hpeek : peek b = (b.drawTimes (b.cursor + 1 - b.held.length)).held[
      (b.drawTimes (b.cursor + 1 - b.held.length)).cursor]?.map
        (·, b.drawTimes (b.cursor + 1 - b.held.length)) := rfl
  generalize b.drawTimes (b.cursor + 1 - b.held.length) = b' at hgrows hcursor hlength hpeek
  have hlt : b'.cursor < b'.held.length := by omega
  have hholds : b'.Holds b'.cursor l := hcursor ▸ hgrows _ _ h
  rw [hholds.getElem? hlt] at hpeek
  exact ⟨_, b', hpeek, rfl, ⟨hgrows, hcursor, hholds⟩, hlt⟩

/-- Reading where there is an item uses it up. -/
theorem yields_advance_cons (h : b.Holds b.cursor l) (hrest : l.rest = s :: rest) :
    Yields advance b fun s' b' => s' = s ∧ Reads l 1 b b' := by
  refine .bind ((yields_peek h).mono ?_)
  rintro s' b' ⟨rfl, hreads, hlt⟩
  have hholds := hreads.holds.succ hrest hlt
  rw [hrest, List.headD_cons]
  have hproper : s.symbol ≠ .endOfText := h.proper s (hrest ▸ List.mem_cons_self)
  dsimp only
  rw [if_pos hproper]
  refine .bind (.get (.bind <| .moveTo (.pure ⟨rfl, ?_, ?_, ?_⟩)))
  · exact hreads.grows.trans (grows_cursor b' _)
  · exact congrArg (· + 1) hreads.cursor
  · rw [hrest]
    exact grows_cursor b' _ _ _ hholds

/-- Reading behind the last item uses up nothing. -/
theorem yields_advance_nil (h : b.Holds b.cursor l) (hrest : l.rest = []) :
    Yields advance b fun s b' => s = .endAt l.finish ∧ Reads l 0 b b' := by
  refine .bind ((yields_peek h).mono ?_)
  rintro s b' ⟨rfl, hreads, -⟩
  rw [hrest, List.headD_nil]
  exact .pure ⟨rfl, hreads⟩

theorem yields_advanceTimes (h : b.Holds b.cursor l) {count : Nat}
    (hcount : count ≤ l.rest.length) :
    Yields (advanceTimes count) b fun _ b' => Reads l count b b' := by
  induction count generalizing b l with
  | zero => exact .pure ⟨.refl b, rfl, h⟩
  | succ count ih =>
    have hpos : 0 < l.rest.length := Nat.lt_of_lt_of_le count.succ_pos hcount
    obtain ⟨s, rest, hrest⟩ := List.exists_cons_of_length_pos hpos
    refine .bind ((yields_advance_cons h hrest).mono ?_)
    rintro _ b₁ ⟨-, hfirst⟩
    have hcount : count ≤ (l.rest.drop 1).length := by
      rw [List.length_drop]
      omega
    refine (ih hfirst.holds hcount).mono fun _ b₂ hothers => ?_
    rw [Nat.add_comm]
    exact hfirst.trans hothers

theorem yields_skipBlanks {turns : Nat} (h : b.Holds b.cursor l) (hturns : l.rest.length < turns) :
    Yields (skipBlanks turns) b fun _ b' => b'.Holds b'.cursor l.skipBlanks := by
  induction turns generalizing b l with
  | zero => cases hturns
  | succ turns ih =>
    refine .bind ((yields_peek h).mono ?_)
    rintro s b₁ ⟨rfl, hpeek, -⟩
    cases hrest : l.rest with
    | nil =>
      have hskip : l.skipBlanks = l := by
        rw [Lexer.skipBlanks, hrest]
        exact congrArg (Lexer.mk · l.finish) hrest.symm
      rw [hskip]
      exact .pure hpeek.holds
    | cons s rest =>
      rw [List.headD_cons]
      by_cases hblank : s.isBlank
      · rw [if_pos hblank]
        refine .bind ((yields_advance_cons hpeek.holds hrest).mono ?_)
        rintro _ b₂ ⟨-, hadvance⟩
        have hskip : l.skipBlanks = ({ l with rest } : Lexer).skipBlanks := by
          rw [Lexer.skipBlanks, hrest, List.dropWhile_cons_of_pos hblank]
          rfl
        have hholds := hadvance.holds
        rw [hrest] at hholds hturns
        rw [hskip]
        exact ih hholds (Nat.lt_of_succ_lt_succ hturns)
      · have hskip : l.skipBlanks = l := by
          rw [Lexer.skipBlanks, hrest, List.dropWhile_cons_of_neg hblank, ← hrest]
        rw [if_neg hblank, hskip]
        exact .pure hpeek.holds

theorem yields_commit (h : b.Holds b.cursor l) :
    Yields commit b fun _ b' => b'.Holds b'.cursor l := by
  refine ⟨(), { b with held := b.held.drop b.cursor, cursor := 0 }, ?_, ?_⟩
  · rw [commit, if_pos h.bound]
  · exact ⟨Nat.zero_le _, h.finish, h.items, h.proper⟩

/-! ### The race -/

/-- No automaton goes on with the end of text. -/
theorem advance_endOfText (a : Automaton) : a.advance .endOfText = none := by
  cases a with
  | text phase => cases phase <;> rfl
  | comment phase => cases phase <;> rfl
  | _ => rfl

/-- The end of text completes no automaton. -/
theorem completed_endOfText {live : List Automaton} {round : Lexer.Round}
    (h : Lexer.feed .endOfText live = .ok round) : round.completed = none := by
  rw [Lexer.feed_eq] at h
  split at h
  · cases h
  · obtain rfl := Except.ok.inj h
    refine List.findSome?_eq_none_iff.mpr fun a _ => ?_
    rw [Automaton.accept, advance_endOfText]
    rfl

/-- The race through the buffer ends like the race over the items left, and reads what that one
uses up. -/
theorem yields_race {turns : Nat} (h : b.Holds b.cursor l) (hturns : l.rest.length < turns)
    (live : List Automaton) (best : Lexer.Best) (used : Nat) :
    Yields (race live best used turns) b fun result b' =>
      ∃ count, Lexer.race live best used l.rest = (result, used + count) ∧ Reads l count b b' := by
  induction turns generalizing b l live best used with
  | zero => cases hturns
  | succ turns ih =>
    rw [race]
    cases hrest : l.rest with
    | nil =>
      by_cases hlive : live.isEmpty
      · rw [if_pos hlive, List.isEmpty_iff.mp hlive]
        exact .pure ⟨0, rfl, .refl b, rfl, h⟩
      · rw [if_neg hlive]
        refine .bind ((yields_advance_nil h hrest).mono ?_)
        rintro _ b₁ ⟨rfl, hreads⟩
        rw [Lexer.race, Scanned.endAt]
        dsimp only
        cases hfeed : Lexer.feed .endOfText live with
        | error f => exact .pure ⟨0, rfl, hreads⟩
        | ok round =>
          dsimp only
          rw [completed_endOfText hfeed, if_pos rfl]
          exact .pure ⟨0, rfl, hreads⟩
    | cons s rest =>
      rw [Lexer.race]
      by_cases hlive : live.isEmpty
      · rw [if_pos hlive, if_pos hlive]
        exact .pure ⟨0, rfl, .refl b, rfl, h⟩
      · rw [if_neg hlive, if_neg hlive]
        refine .bind ((yields_advance_cons h hrest).mono ?_)
        rintro s b₁ ⟨rfl, hfirst⟩
        have hproper : s.symbol ≠ .endOfText := h.proper s (hrest ▸ List.mem_cons_self)
        dsimp only
        cases Lexer.feed s.symbol live with
        | error f => exact .pure ⟨1, rfl, hfirst⟩
        | ok round =>
          dsimp only
          rw [if_neg hproper]
          have hlength : (l.rest.drop 1).length < turns := by
            rw [hrest] at hturns ⊢
            exact Nat.lt_of_succ_lt_succ hturns
          refine (ih hfirst.holds hlength round.survivors _ (used + 1)).mono ?_
          rintro result b₂ ⟨count, hrace, hothers⟩
          rw [hrest] at hrace
          exact ⟨1 + count, by rw [← Nat.add_assoc]; exact hrace, hfirst.trans hothers⟩

/-! ### Values -/

/-- The items held from `start` up to `stop` are some of those left behind `start`. -/
theorem yields_text {start skipped count : Nat} (h : b.Holds start l)
    (hskipped : skipped ≤ count) (hheld : start + count ≤ b.held.length)
    (hcount : count ≤ l.rest.length) :
    Yields (text (start + skipped) (start + count)) b fun words b' =>
      words = Lexer.rawText ((l.rest.take count).drop skipped) ∧ b' = b := by
  refine ⟨_, b, if_pos ⟨by omega, hheld⟩, ?_, rfl⟩
  rw [← h.take hheld hcount, List.take_drop, List.drop_drop]

/-- A text literal takes up at least its two quotes. -/
theorem two_le_of_spells_text {w : List Symbol} (h : Category.text.spells w) : 2 ≤ w.length := by
  unfold Category.spells at h
  split at h
  case h_3 w =>
    have hlength := congrArg List.length (beq_iff_eq.mp h)
    rw [List.length_append] at hlength
    exact Nat.succ_le_succ (hlength ▸ Nat.le_add_left 1 _)
  all_goals contradiction

theorem yields_valueOf {c : Category} {start count : Nat} (h : b.Holds start l)
    (hspells : c.spells ((l.rest.map (·.symbol)).take count)) (hpos : 0 < count)
    (hheld : start + count ≤ b.held.length) (hcount : count ≤ l.rest.length) (w : List Symbol) :
    Yields (valueOf (c.accepting w) start count) b fun value b' =>
      value = Lexer.valueOf (c.accepting w) (l.rest.take count) ∧ b' = b := by
  cases c with
  | fixed spelling => exact .pure ⟨rfl, rfl⟩
  | integer => exact .pure ⟨rfl, rfl⟩
  | identifier =>
    refine .bind ((yields_text h (Nat.zero_le _) hheld hcount).mono ?_)
    rintro words _ ⟨rfl, rfl⟩
    exact .pure ⟨rfl, rfl⟩
  | comment =>
    refine .bind ((yields_text h hpos hheld hcount).mono ?_)
    rintro words _ ⟨rfl, rfl⟩
    exact .pure ⟨rfl, rfl⟩
  | text =>
    have htwo : 2 ≤ count := by
      have hlength := two_le_of_spells_text hspells
      rw [List.length_take] at hlength
      omega
    have hstop : start + count - 1 = start + (count - 1) := by omega
    have hcontent : ((l.rest.take count).drop 1).dropLast = (l.rest.take (count - 1)).drop 1 := by
      rw [List.dropLast_eq_take, List.length_drop, List.length_take, Nat.min_eq_left hcount,
        List.take_drop, List.take_take]
      congr 2
      omega
    rw [Category.accepting, valueOf, hstop]
    refine .bind ((yields_text h (show 1 ≤ count - 1 by omega) (by omega) (by omega)).mono ?_)
    rintro words _ ⟨rfl, rfl⟩
    refine .pure ⟨?_, rfl⟩
    rw [Lexer.valueOf, hcontent]

/-! ### The next token -/

/-- What wins a race of fresh automata has read a lexeme of its category. -/
theorem winner_spells {items : List Scanned} {winner : Automaton} {count used : Nat}
    (h : Lexer.race Automaton.initialSet none 0 items = (.ok (some (winner, count)), used)) :
    ∃ c : Category, winner = c.accepting ((items.map (·.symbol)).take count) ∧
      c.spells ((items.map (·.symbol)).take count) ∧ 0 < count ∧ count ≤ items.length := by
  have hrace := Lexer.race_initialSet items
  rw [h] at hrace
  cases hfault : Category.all.findSome? (·.fault (items.map (·.symbol))) with
  | some f =>
    rw [hfault] at hrace
    cases hrace
  | none =>
    rw [hfault] at hrace
    obtain ⟨⟨c, n⟩, hlongest, hfound⟩ := Option.map_eq_some_iff.mp (Except.ok.inj hrace).symm
    obtain ⟨rfl, rfl⟩ := Prod.mk.inj hfound
    obtain ⟨-, hspells, hpos, hle⟩ := Lexer.longest_eq_some hlongest
    exact ⟨c, rfl, hspells, hpos, hle⟩

/-- **Reading through a buffer gives what the lexer gives**, never asks for an item outside the
buffer, and leaves the cursor in front of what the lexer leaves. -/
theorem yields_next (h : b.Holds b.cursor l) :
    Yields next b fun result b' => result = l.next.1 ∧ b'.Holds b'.cursor l.next.2 := by
  refine .bind (.get ?_)
  refine .bind ((yields_skipBlanks h h.length_lt).mono fun _ b₁ hskip => ?_)
  refine .bind ((yields_commit hskip).mono fun _ b₂ hcommit => ?_)
  refine .bind ((yields_peek hcommit).mono ?_)
  rintro _ b₃ ⟨rfl, hpeek, -⟩
  have hstart : b₃.Holds b₃.cursor l.skipBlanks := hpeek.holds
  rw [Lexer.next]
  dsimp only
  cases hrest : l.skipBlanks.rest with
  | nil => exact .pure ⟨rfl, hstart⟩
  | cons first rest =>
    have hproper : first.symbol ≠ .endOfText := hstart.proper first (hrest ▸ List.mem_cons_self)
    rw [List.headD_cons, if_neg hproper]
    refine .bind (.get (.bind (.get ?_)))
    refine .bind ((yields_race hstart hstart.length_lt _ _ _).mono ?_)
    rintro result b₄ ⟨used, hrace, hreads⟩
    rw [Nat.zero_add] at hrace
    dsimp only [Lexer.readToken]
    rw [hrace]
    rcases result with f | _ | ⟨winner, count⟩
    · exact .pure ⟨rfl, hreads.holds⟩
    · exact .pure ⟨rfl, hreads.holds⟩
    · obtain ⟨c, rfl, hspells, hpos, hcount⟩ := winner_spells hrace
      have hback : Holds { b₄ with cursor := b₃.cursor } b₃.cursor l.skipBlanks :=
        grows_cursor b₄ _ _ _ (hreads.grows _ _ hstart)
      refine .bind (.moveTo ?_)
      refine .bind ((yields_advanceTimes hback hcount).mono fun _ b₅ hagain => ?_)
      have hheld : b₃.cursor + count ≤ b₅.held.length := hagain.cursor ▸ hagain.holds.bound
      refine .bind ((yields_valueOf (hagain.grows _ _ hback) hspells hpos hheld hcount _).mono ?_)
      rintro value _ ⟨rfl, rfl⟩
      exact .pure ⟨rfl, hagain.holds⟩

theorem yields_pull (h : b.Holds b.cursor l) (count : Nat) :
    Yields (pull count) b fun results b' =>
      results = l.pull count ∧ b'.Holds b'.cursor (l.after count) := by
  induction count generalizing b l with
  | zero => exact .pure ⟨rfl, h⟩
  | succ count ih =>
    refine .bind ((yields_next h).mono ?_)
    rintro _ b₁ ⟨rfl, hnext⟩
    refine .bind ((ih hnext).mono ?_)
    rintro _ b₂ ⟨rfl, hothers⟩
    exact .pure ⟨rfl, hothers⟩

/-- The items behind the cursor, drawn or not. -/
def unread (b : Buffer) : List Scanned :=
  (b.held.drop b.cursor ++ b.upcoming).filter (·.symbol ≠ .endOfText)

theorem Holds.unread (h : b.Holds b.cursor l) : b.unread = l.rest := by
  obtain ⟨ends, hitems, hends, -⟩ := h.items
  have hnone : ends.filter (·.symbol ≠ .endOfText) = [] :=
    List.filter_eq_nil_iff.mpr fun s hs => by simp [hends s hs, Scanned.endAt]
  have hall : l.rest.filter (·.symbol ≠ .endOfText) = l.rest :=
    List.filter_eq_self.mpr fun s hs => by simpa using h.proper s hs
  rw [Buffer.unread, hitems, List.filter_append, hall, hnone, List.append_nil]

theorem scanFrom_proper (p : Position) (cs : List Char) :
    ∀ s ∈ scanFrom p cs, s.symbol ≠ .endOfText := by
  fun_induction scanFrom p cs with
  | case1 => exact List.forall_mem_nil _
  | case2 p rest ih => exact List.forall_mem_cons.mpr ⟨by simp [Scanned.newlineAt], ih⟩
  | case3 p c rest _ _ ih => exact List.forall_mem_cons.mpr ⟨by simp [Scanned.newlineAt], ih⟩
  | case4 p c rest _ _ ih =>
    refine List.forall_mem_cons.mpr ⟨?_, ih⟩
    show Symbol.ofChar c ≠ .endOfText
    unfold Symbol.ofChar
    split <;> simp

theorem holds_ofSource (source : String) : (ofSource source).Holds 0 (.ofSource source) :=
  ⟨Nat.le_refl 0, rfl, ⟨[], (List.append_nil _).symm, nofun, .inl rfl⟩, scanFrom_proper _ _⟩

end Buffer

end Lumen
