import Lumen.Proofs.Parser.Recorded
import Lumen.Proofs.Parser.View
import Lumen.Proofs.Token.Progress

/-! The recorded parser beside the parser.

A moment is in balance if the tokens taken, followed by those looked at, are what the lexer has
returned so far, comments and failures left out. Every change of a recorded parser keeps that:
one lemma each says so of a token that is fetched into the queue, fetched and handed out at once, or
taken from the queue, of a comment and of a failure, and of a nested part that is entered or left.

From a given history, a recorded reading `Mirrors` a reading if it does not get stuck, ends as that
one does with the same cursor, and leaves no more to read than there was. What is left to read
(`Cursor.load`) is what the loops of the parser run down: ends of text do not count, so it never
grows, and it gets less with every other token that is taken. -/
namespace Lumen
open Token (Kind)

/-! ### What the lexer has returned -/

theorem Token.Stream.pull_cons (r : Except Error Token) (pending : List (Except Error Token))
    (finish : Position) :
    pull ⟨r :: pending, finish⟩ = match r with
      | .error e => (.error e, ⟨pending, finish⟩)
      | .ok t =>
        if t.kind = .comment then pull ⟨pending, finish⟩ else (.ok t, ⟨pending, finish⟩) := by
  cases r with
  | error e => rfl
  | ok t =>
    rw [pull, pullFrom]
    dsimp only
    split <;> rfl

namespace Lexer

theorem after_succ (l : Lexer) (count : Nat) : l.after (count + 1) = (l.after count).next.2 := by
  induction count generalizing l with
  | zero => rfl
  | succ count ih => exact ih l.next.2

theorem pull_succ (l : Lexer) (count : Nat) :
    l.pull (count + 1) = l.pull count ++ [(l.after count).next.1] := by
  induction count generalizing l with
  | zero => rfl
  | succ count ih => exact congrArg (l.next.1 :: ·) (ih l.next.2)

theorem eq_stream {l : Lexer} {pending : List (Except Error Token)}
    (h : l.stream.pending = pending) : l.stream = ⟨pending, l.finish⟩ := by
  rw [← h]
  rfl

/-- What is pulled from a stream is what the lexer gives next, comments passed over. -/
theorem pull_stream (l : Lexer) :
    l.stream.pull = match l.next.1 with
      | .error e => (.error e, l.next.2.stream)
      | .ok t => if t.kind = .comment then l.next.2.stream.pull else (.ok t, l.next.2.stream) := by
  obtain ⟨hnil, hresult, hstream⟩ | ⟨hcons, hfinish⟩ := l.stream_cases
  · rw [hresult, hstream, eq_stream hnil]
    rfl
  · rw [eq_stream hcons, Token.Stream.pull_cons, eq_stream (l := l.next.2) rfl, hfinish]

/-- An attempt leaves one less to come, unless it gives the end of text. -/
theorem length_stream_next (l : Lexer) :
    l.next.2.stream.pending.length + 1 = l.stream.pending.length ∨
      l.next.1 = .ok (.endAt l.finish) ∧ l.next.2.stream = l.stream := by
  obtain ⟨-, hend⟩ | ⟨hcons, -⟩ := l.stream_cases
  · exact .inr hend
  · exact .inl (congrArg List.length hcons).symm

end Lexer

/-! ### Moments in balance -/

/-- The tokens among what a lexer has returned, without the comments. -/
def Token.received (returned : List (Except Error Token)) : List Token :=
  returned.filterMap fun
    | .ok t => if t.kind = .comment then none else some t
    | .error _ => none

namespace Moment
variable {source : String} {m m' : Moment} {t : Token}

/-- The lexer has returned what it returns for the source, and the tokens taken and those looked at
are what it has returned, the comments left out. -/
structure Balanced (source : String) (m : Moment) : Prop where
  returned : m.returned = (Lexer.ofSource source).pull m.returned.length
  lexer : m.lexer = (Lexer.ofSource source).after m.returned.length
  tokens : m.taken ++ m.ahead = Token.received m.returned

theorem balanced_ofSource (source : String) : (ofSource source).Balanced source := ⟨rfl, rfl, rfl⟩

/-- Asking the lexer keeps the balance if a token that is not a comment is put in its place. -/
theorem Balanced.of_asked (h : m.Balanced source) (hlexer : m'.lexer = m.asked.lexer)
    (hreturned : m'.returned = m.asked.returned)
    (htokens : m'.taken ++ m'.ahead = m.taken ++ m.ahead ++ Token.received [m.lexer.next.1]) :
    m'.Balanced source := by
  have hlength : m'.returned.length = m.returned.length + 1 := by
    rw [hreturned]
    exact List.length_append
  refine ⟨?_, ?_, ?_⟩
  · rw [hlength, Lexer.pull_succ, ← h.returned, ← h.lexer, hreturned]
    rfl
  · rw [hlength, Lexer.after_succ, ← h.lexer, hlexer]
    rfl
  · rw [htokens, h.tokens, hreturned]
    exact (List.filterMap_append ..).symm

theorem Balanced.asked (h : m.Balanced source) (hnone : Token.received [m.lexer.next.1] = []) :
    m.asked.Balanced source :=
  h.of_asked rfl rfl (by rw [hnone, List.append_nil]; rfl)

theorem received_of_ok (h : m.lexer.next.1 = .ok t) (ht : t.kind ≠ .comment) :
    Token.received [m.lexer.next.1] = [t] := by
  rw [h]
  simp [Token.received, ht]

theorem Balanced.queued (h : m.Balanced source) (hnext : m.lexer.next.1 = .ok t)
    (ht : t.kind ≠ .comment) : (m.asked.queued t).Balanced source := by
  refine h.of_asked rfl rfl ?_
  rw [received_of_ok hnext ht]
  exact (List.append_assoc ..).symm

theorem Balanced.handedOut (h : m.Balanced source) (hnext : m.lexer.next.1 = .ok t)
    (ht : t.kind ≠ .comment) (hahead : m.ahead = []) : (m.asked.handedOut t).Balanced source := by
  refine h.of_asked rfl rfl ?_
  rw [received_of_ok hnext ht]
  show (m.taken ++ [t]) ++ m.ahead = _
  rw [hahead, List.append_nil, List.append_nil]

theorem Balanced.taking {rest : List Token} (h : m.Balanced source) (hahead : m.ahead = t :: rest) :
    Balanced source { m with ahead := rest, taken := m.taken ++ [t] } := by
  refine ⟨h.returned, h.lexer, ?_⟩
  have htokens := h.tokens
  rw [hahead] at htokens
  exact (List.append_assoc ..).trans htokens

end Moment

namespace History

/-- Every moment is in balance. -/
def Balanced (source : String) (h : History) : Prop := ∀ m ∈ h.moments, m.Balanced source

theorem Balanced.add {source : String} {h : History} {m : Moment} (hh : h.Balanced source)
    (hm : m.Balanced source) : (h.add m).Balanced source := List.forall_mem_cons.mpr ⟨hm, hh⟩

theorem Balanced.now {source : String} {h : History} (hh : h.Balanced source) :
    h.now.Balanced source := hh _ List.mem_cons_self

theorem Balanced.enter {source : String} {h : History} (hh : h.Balanced source) :
    h.enter.Balanced source := hh.add ⟨hh.now.returned, hh.now.lexer, hh.now.tokens⟩

theorem Balanced.leave {source : String} {h : History} (hh : h.Balanced source) :
    h.leave.Balanced source := hh.add ⟨hh.now.returned, hh.now.lexer, hh.now.tokens⟩

/-- The place of a parser among the tokens. -/
def cursor (h : History) : Cursor := ⟨h.now.ahead, h.now.lexer.stream⟩

end History

/-! ### What is left before the end of text -/

/-- The tokens left before the end of text, if the first `i` of those looked at are left out. -/
def Cursor.load (c : Cursor) (i : Nat) : Nat :=
  (c.ahead.drop i).countP (·.kind ≠ .endOfText) + c.stream.pending.length

namespace Cursor
variable {c : Cursor}

theorem load_le_size (c : Cursor) : c.load 0 ≤ c.size :=
  Nat.add_le_add_right List.countP_le_length _

theorem load_succ_le (c : Cursor) (i : Nat) : c.load (i + 1) ≤ c.load i := by
  refine Nat.add_le_add_right (List.Sublist.countP_le ?_) _
  rw [← List.drop_drop]
  exact List.drop_sublist ..

theorem load_le (i : Nat) (c : Cursor) : c.load i ≤ c.load 0 :=
  Nat.add_le_add_right (List.Sublist.countP_le (List.drop_sublist ..)) _

theorem load_of_getElem? {i : Nat} {t : Token} (h : c.ahead[i]? = some t)
    (ht : t.kind ≠ .endOfText) : c.load (i + 1) < c.load i := by
  obtain ⟨hi, rfl⟩ := List.getElem?_eq_some_iff.mp h
  rw [load, load, List.drop_eq_getElem_cons hi, List.countP_cons_of_pos (by simpa using ht)]
  omega

/-- Pulling a token into the queue leaves no more behind any place. -/
theorem load_append_le {s s' : Token.Stream} {t : Token}
    (h : [t].countP (·.kind ≠ .endOfText) + s'.pending.length ≤ s.pending.length)
    (ahead : List Token) (i : Nat) : load ⟨ahead ++ [t], s'⟩ i ≤ load ⟨ahead, s⟩ i := by
  have happend : ((ahead ++ [t]).drop i).countP (·.kind ≠ .endOfText) ≤
      (ahead.drop i).countP (·.kind ≠ .endOfText) + [t].countP (·.kind ≠ .endOfText) := by
    rw [List.drop_append, List.countP_append]
    exact Nat.add_le_add_left (List.Sublist.countP_le (List.drop_sublist ..)) _
  unfold load
  dsimp only
  omega

theorem load_le_of_pending {s s' : Token.Stream} (h : s'.pending.length ≤ s.pending.length)
    (ahead : List Token) (i : Nat) : load ⟨ahead, s'⟩ i ≤ load ⟨ahead, s⟩ i :=
  Nat.add_le_add_left h _

end Cursor

namespace Parse

/-- Looks at one more token. -/
def lookOne : Parse Token := fun c =>
  match pull c with
  | .ok t c => .ok t { c with ahead := c.ahead ++ [t] }
  | .error e c => .error e c

theorem lookFurther_succ (count : Nat) :
    lookFurther (count + 1) = lookOne >>= fun _ => lookFurther count := by
  funext c
  rw [lookFurther, bind_eq, bind_eq, lookOne]
  cases pull c <;> rfl

theorem peek_eq (n : Nat) (c : Cursor) :
    peek n c = match lookFurther (n + 1 - c.ahead.length) c with
      | .ok _ c' => .ok (c'.ahead.getD n (.endAt c'.stream.finish)) c'
      | .error e c' => .error e c' := by
  show (lookFurther (n + 1 - c.ahead.length) >>= _) c = _
  rw [bind_eq]
  cases lookFurther (n + 1 - c.ahead.length) c <;> rfl

end Parse

/-! ### The recorded parser beside the parser -/

/-- What a recorded reading does from `h` to `h'`, however it ends: it comes back from all nested
parts, leaves no more before the end of text than there was, and keeps the balance. -/
structure History.LeadsTo (h h' : History) : Prop where
  depth : h'.now.depth = h.now.depth
  load : h'.cursor.load 0 ≤ h.cursor.load 0
  balanced : ∀ source, h.Balanced source → h'.Balanced source

namespace History.LeadsTo

theorem refl (h : History) : h.LeadsTo h := ⟨rfl, Nat.le_refl _, fun _ hh => hh⟩

theorem trans {h h' h'' : History} (hh : h.LeadsTo h') (hh' : h'.LeadsTo h'') : h.LeadsTo h'' :=
  ⟨hh'.depth.trans hh.depth, Nat.le_trans hh'.load hh.load,
    fun source hb => hh'.balanced source (hh.balanced source hb)⟩

end History.LeadsTo

namespace Recorded
variable {α β : Type} {turns : Nat} {w : Recorded α} {m : Parse α} {h : History}
  {Q : α → History → Prop}

/-- From `h`, with so many turns for its loops, the recorded reading `w` does not get stuck and
does what the reading `m` does. If it succeeds, `Q` holds of its result and of the history that it
leaves. -/
inductive Mirrors (turns : Nat) (w : Recorded α) (m : Parse α) (h : History)
    (Q : α → History → Prop) : Prop
  | ok {a : α} {h' : History} (hw : w turns h = .ok a h') (hm : m h.cursor = .ok a h'.cursor)
      (hleads : h.LeadsTo h') (hq : Q a h')
  | failed {e : Error} {h' : History} (hw : w turns h = .error (.failed e) h')
      (hm : m h.cursor = .error e h'.cursor) (hleads : h.LeadsTo h')

theorem bind_eq (w : Recorded α) (f : α → Recorded β) (turns : Nat) (h : History) :
    (w >>= f) turns h = match w turns h with
      | .ok a h' => f a turns h'
      | .error halt h' => .error halt h' := by
  simp only [Bind.bind, ReaderT.bind, EStateM.bind]
  cases w turns h <;> rfl

namespace Mirrors

theorem pure {a : α} (hq : Q a h) : Mirrors turns (Pure.pure a) (Pure.pure a) h Q :=
  .ok rfl rfl (.refl h) hq

theorem fail (e : Error) : Mirrors turns (fail e : Recorded α) (throw e) h Q :=
  .failed rfl rfl (.refl h)

theorem mono {Q' : α → History → Prop} (hw : Mirrors turns w m h Q)
    (himp : ∀ a h', h.LeadsTo h' → Q a h' → Q' a h') : Mirrors turns w m h Q' := by
  cases hw with
  | ok hw hm hleads hq => exact .ok hw hm hleads (himp _ _ hleads hq)
  | failed hw hm hleads => exact .failed hw hm hleads

/-- Only what both readings do from here matters. -/
theorem of_eq {w' : Recorded α} {m' : Parse α} (hmirrors : Mirrors turns w' m' h Q)
    (hw : w turns h = w' turns h) (hm : m h.cursor = m' h.cursor) : Mirrors turns w m h Q := by
  cases hmirrors with
  | ok hw' hm' hleads hq => exact .ok (hw.trans hw') (hm.trans hm') hleads hq
  | failed hw' hm' hleads => exact .failed (hw.trans hw') (hm.trans hm') hleads

theorem bind {f : α → Recorded β} {g : α → Parse β} {R : β → History → Prop}
    (hw : Mirrors turns w m h Q)
    (hf : ∀ a h', h.LeadsTo h' → Q a h' → Mirrors turns (f a) (g a) h' R) :
    Mirrors turns (w >>= f) (m >>= g) h R := by
  cases hw with
  | @failed e h' hw hm hleads =>
    have hw' : (w >>= f) turns h = .error (.failed e) h' := by rw [bind_eq, hw]
    have hm' : (m >>= g) h.cursor = .error e h'.cursor := by rw [Parse.bind_eq, hm]
    exact .failed hw' hm' hleads
  | @ok a h' hw hm hleads hq =>
    have hw' : (w >>= f) turns h = f a turns h' := by rw [bind_eq, hw]
    have hm' : (m >>= g) h.cursor = g a h'.cursor := by rw [Parse.bind_eq, hm]
    cases hf a h' hleads hq with
    | ok hf hg hleads' hr => exact .ok (hw'.trans hf) (hm'.trans hg) (hleads.trans hleads') hr
    | failed hf hg hleads' => exact .failed (hw'.trans hf) (hm'.trans hg) (hleads.trans hleads')

end Mirrors

/-! ### Tokens -/

/-- From `h` to `h'` the lexer has returned nothing but comments. -/
structure Passes (h h' : History) : Prop where
  ahead : h'.now.ahead = h.now.ahead
  depth : h'.now.depth = h.now.depth
  pull : h'.now.lexer.stream.pull = h.now.lexer.stream.pull
  length : h'.now.lexer.stream.pending.length ≤ h.now.lexer.stream.pending.length
  balanced : ∀ source, h.Balanced source → h'.Balanced source

section Fetching
variable {h' h'' : History} {t : Token} {e : Error}

theorem Passes.refl (h : History) : Passes h h :=
  ⟨rfl, rfl, rfl, Nat.le_refl _, fun _ hb => hb⟩

theorem Passes.trans (hh : Passes h h') (hh' : Passes h' h'') : Passes h h'' :=
  ⟨hh'.ahead.trans hh.ahead, hh'.depth.trans hh.depth, hh'.pull.trans hh.pull,
    Nat.le_trans hh'.length hh.length, fun source hb => hh'.balanced source (hh.balanced source hb)⟩

theorem Passes.cursor_asked (hh : Passes h h') :
    (h'.add h'.now.asked).cursor = ⟨h.now.ahead, h'.now.lexer.next.2.stream⟩ := by
  rw [← hh.ahead]
  rfl

theorem passes_comment (hnext : h.now.lexer.next.1 = .ok t) (ht : t.kind = .comment) :
    Passes h (h.add h.now.asked) ∧ (h.add h.now.asked).now.lexer.stream.pending.length <
      h.now.lexer.stream.pending.length := by
  have hlt : h.now.lexer.next.2.stream.pending.length < h.now.lexer.stream.pending.length := by
    obtain hlength | ⟨hend, -⟩ := h.now.lexer.length_stream_next
    · omega
    · rw [hend] at hnext
      obtain rfl := Except.ok.inj hnext
      cases ht
  refine ⟨⟨rfl, rfl, ?_, Nat.le_of_lt hlt, fun source hb => ?_⟩, hlt⟩
  · rw [h.now.lexer.pull_stream, hnext]
    exact (if_pos ht).symm
  · refine hb.add (hb.now.asked ?_)
    rw [hnext]
    simp [Token.received, ht]

/-- From `h` to `h'` the lexer has returned comments, and it returns the token `t` next. -/
structure Finds (h h' : History) (t : Token) : Prop extends Passes h h' where
  next : h'.now.lexer.next.1 = .ok t
  kind : t.kind ≠ .comment

theorem Finds.pull_eq (hfinds : Finds h h' t) :
    Parse.pull h.cursor = .ok t ⟨h.now.ahead, h'.now.lexer.next.2.stream⟩ := by
  have hpull := h'.now.lexer.pull_stream
  rw [hfinds.next, hfinds.pull] at hpull
  dsimp only at hpull
  rw [if_neg hfinds.kind] at hpull
  rw [Parse.pull_eq, History.cursor, hpull]

/-- A token leaves one less to come, unless it ends the text. -/
theorem Finds.length_le (hfinds : Finds h h' t) :
    [t].countP (·.kind ≠ .endOfText) + h'.now.lexer.next.2.stream.pending.length ≤
      h.now.lexer.stream.pending.length := by
  have hle : [t].countP (·.kind ≠ .endOfText) ≤ 1 := List.countP_le_length
  have hlength := hfinds.length
  obtain hnext | ⟨hend, hstream⟩ := h'.now.lexer.length_stream_next
  · omega
  · obtain rfl := Except.ok.inj (hend.symm.trans hfinds.next)
    rw [hstream]
    exact Nat.le_trans (Nat.le_of_eq (Nat.zero_add _)) hlength

/-- From `h` to `h'` the lexer has returned comments, and it fails next. -/
structure Breaks (h h' : History) (e : Error) : Prop extends Passes h h' where
  next : h'.now.lexer.next.1 = .error e

theorem Breaks.pull_eq (hbreaks : Breaks h h' e) :
    Parse.pull h.cursor = .error e (h'.add h'.now.asked).cursor := by
  have hpull := h'.now.lexer.pull_stream
  rw [hbreaks.next, hbreaks.pull] at hpull
  rw [Parse.pull_eq, hbreaks.cursor_asked, History.cursor, hpull]

theorem Breaks.leadsTo (hbreaks : Breaks h h' e) : h.LeadsTo (h'.add h'.now.asked) := by
  have hlength : h'.now.lexer.next.2.stream.pending.length ≤
      h.now.lexer.stream.pending.length := by
    have hlength := hbreaks.length
    obtain hnext | ⟨hend, -⟩ := h'.now.lexer.length_stream_next
    · omega
    · cases hend.symm.trans hbreaks.next
  refine ⟨hbreaks.depth, ?_, fun source hb => ?_⟩
  · rw [hbreaks.cursor_asked]
    exact Cursor.load_le_of_pending hlength _ _
  · have hb := hbreaks.balanced source hb
    refine hb.add (hb.now.asked ?_)
    rw [hbreaks.next]
    rfl

end Fetching

/-- Fetching passes over comments and finds a token or a failure behind them. -/
theorem fetch_cases (place : Token → Moment → Moment)
    (hturns : h.now.lexer.stream.pending.length < turns) :
    (∃ h' t, Finds h h' t ∧ fetch place turns h = .ok t (h'.add (place t h'.now.asked))) ∨
      ∃ h' e, Breaks h h' e ∧ fetch place turns h = .error (.failed e) (h'.add h'.now.asked) := by
  induction turns generalizing h with
  | zero => cases hturns
  | succ turns ih =>
    rw [fetch]
    cases hnext : h.now.lexer.next.1 with
    | error e => exact .inr ⟨h, e, ⟨.refl h, hnext⟩, rfl⟩
    | ok t =>
      dsimp only
      by_cases hcomment : t.kind = .comment
      · obtain ⟨hpasses, hlt⟩ := passes_comment hnext hcomment
        rw [if_pos hcomment]
        obtain ⟨h', t, hfinds, hfetch⟩ | ⟨h', e, hbreaks, hfetch⟩ :=
          ih (Nat.lt_of_lt_of_le hlt (Nat.le_of_lt_succ hturns))
        · exact .inl ⟨h', t, ⟨hpasses.trans hfinds.toPasses, hfinds.next, hfinds.kind⟩, hfetch⟩
        · exact .inr ⟨h', e, ⟨hpasses.trans hbreaks.toPasses, hbreaks.next⟩, hfetch⟩
      · rw [if_neg hcomment]
        exact .inl ⟨h, t, ⟨.refl h, hnext, hcomment⟩, rfl⟩

theorem pending_lt (hload : h.cursor.load 0 < turns) :
    h.now.lexer.stream.pending.length < turns := Nat.lt_of_le_of_lt (Nat.le_add_left _ _) hload

theorem mirrors_lookOne (hload : h.cursor.load 0 < turns) :
    Mirrors turns (fetch .queued) Parse.lookOne h fun _ h' =>
      h'.now.ahead.length = h.now.ahead.length + 1 ∧ ∀ i, h'.cursor.load i ≤ h.cursor.load i := by
  obtain ⟨h', t, hfinds, hfetch⟩ | ⟨h', e, hbreaks, hfetch⟩ :=
    fetch_cases .queued (pending_lt hload)
  · have hcursor : (h'.add (h'.now.asked.queued t)).cursor =
        ⟨h.now.ahead ++ [t], h'.now.lexer.next.2.stream⟩ := by
      rw [← hfinds.ahead]
      rfl
    have hloads : ∀ i, (h'.add (h'.now.asked.queued t)).cursor.load i ≤ h.cursor.load i := by
      intro i
      rw [hcursor]
      exact Cursor.load_append_le hfinds.length_le _ _
    refine .ok hfetch ?_ ⟨hfinds.depth, hloads 0, fun source hb => ?_⟩ ⟨?_, hloads⟩
    · rw [Parse.lookOne, hfinds.pull_eq, hcursor]
    · have hb := hfinds.balanced source hb
      exact hb.add (hb.now.queued hfinds.next hfinds.kind)
    · exact (congrArg (·.ahead.length) hcursor).trans List.length_append
  · refine .failed hfetch ?_ hbreaks.leadsTo
    rw [Parse.lookOne, hbreaks.pull_eq]

theorem mirrors_lookFurther (hload : h.cursor.load 0 < turns) (count : Nat) :
    Mirrors turns (lookFurther count) (Parse.lookFurther count) h fun _ h' =>
      h'.now.ahead.length = h.now.ahead.length + count ∧
        ∀ i, h'.cursor.load i ≤ h.cursor.load i := by
  induction count generalizing h with
  | zero => exact .pure ⟨rfl, fun _ => Nat.le_refl _⟩
  | succ count ih =>
    rw [Parse.lookFurther_succ]
    refine .bind (mirrors_lookOne hload) fun _ h₁ hleads hone => ?_
    refine (ih (Nat.lt_of_le_of_lt hleads.load hload)).mono fun _ h₂ _ hothers => ?_
    refine ⟨?_, fun i => Nat.le_trans (hothers.2 i) (hone.2 i)⟩
    rw [hothers.1, hone.1]
    omega

theorem peek_eq (n turns : Nat) (h : History) :
    peek n turns h = match lookFurther (n + 1 - h.now.ahead.length) turns h with
      | .ok _ h' =>
        match h'.now.ahead[n]? with
        | some t => .ok t h'
        | none => .error .stuck h'
      | .error halt h' => .error halt h' := by
  show (lookFurther (n + 1 - h.now.ahead.length) >>= _) turns h = _
  rw [bind_eq]
  cases lookFurther (n + 1 - h.now.ahead.length) turns h with
  | error halt h' => rfl
  | ok _ h' =>
    dsimp only
    show (match h'.now.ahead[n]? with
      | some t => Pure.pure t
      | none => throw .stuck : Recorded Token) turns h' = _
    cases h'.now.ahead[n]? <;> rfl

theorem mirrors_peek (hload : h.cursor.load 0 < turns) (n : Nat) :
    Mirrors turns (peek n) (Parse.peek n) h fun t h' =>
      h'.now.ahead[n]? = some t ∧ ∀ i, h'.cursor.load i ≤ h.cursor.load i := by
  have hw := peek_eq n turns h
  have hm := Parse.peek_eq n h.cursor
  cases mirrors_lookFurther hload (n + 1 - h.now.ahead.length) with
  | @failed e h' hlook hparse hleads =>
    rw [hlook] at hw
    rw [show h.cursor.ahead = h.now.ahead from rfl, hparse] at hm
    exact .failed hw hm hleads
  | @ok _ h' hlook hparse hleads hq =>
    obtain ⟨t, ht⟩ : ∃ t, h'.now.ahead[n]? = some t :=
      ⟨_, List.getElem?_eq_getElem (show n < h'.now.ahead.length by omega)⟩
    have hget : h'.cursor.ahead.getD n (.endAt h'.cursor.stream.finish) = t := by
      rw [List.getD_eq_getElem?_getD, show h'.cursor.ahead = h'.now.ahead from rfl, ht]
      rfl
    rw [hlook] at hw
    rw [show h.cursor.ahead = h.now.ahead from rfl, hparse] at hm
    dsimp only at hw hm
    rw [ht] at hw
    rw [hget] at hm
    exact .ok hw hm hleads ⟨ht, hq.2⟩

theorem mirrors_peekKind (hload : h.cursor.load 0 < turns) (n : Nat) :
    Mirrors turns (peekKind n) (Parse.peekKind n) h fun kind h' =>
      (∃ t, h'.now.ahead[n]? = some t ∧ t.kind = kind) ∧
        ∀ i, h'.cursor.load i ≤ h.cursor.load i :=
  .bind (mirrors_peek hload n) fun t _ _ hpeek => .pure ⟨⟨t, hpeek.1, rfl⟩, hpeek.2⟩

theorem mirrors_unexpected (hload : h.cursor.load 0 < turns) (what : Expectation) :
    Mirrors turns (unexpected what) (Parse.unexpected what) h Q :=
  .bind (mirrors_peek hload 0) fun _ _ _ _ => .fail _

/-- Taking the next token leaves one less before the end of text, if there is one. -/
theorem mirrors_advance (hload : h.cursor.load 0 < turns) :
    Mirrors turns advance Parse.advance h fun _ h' =>
      ∀ t, h.now.ahead[0]? = some t → t.kind ≠ .endOfText →
        h'.cursor.load 0 < h.cursor.load 0 := by
  cases hahead : h.now.ahead with
  | cons t rest =>
    have hw : advance turns h =
        .ok t (h.add { h.now with ahead := rest, taken := h.now.taken ++ [t] }) := by
      rw [advance, hahead]
    have hm : Parse.advance h.cursor = .ok t ⟨rest, h.now.lexer.stream⟩ := by
      rw [History.cursor, hahead]
      rfl
    have hbehind : Cursor.load ⟨rest, h.now.lexer.stream⟩ 0 = h.cursor.load 1 := by
      rw [Cursor.load, Cursor.load, History.cursor, hahead]
      rfl
    refine .ok hw hm ⟨rfl, ?_, fun source hb => hb.add ?_⟩ fun first hfirst hkind => ?_
    · exact Nat.le_trans (Nat.le_of_eq hbehind) (h.cursor.load_succ_le 0)
    · exact hb.now.taking hahead
    · exact Nat.lt_of_le_of_lt (Nat.le_of_eq hbehind)
        (Cursor.load_of_getElem? (hahead ▸ hfirst : h.now.ahead[0]? = some first) hkind)
  | nil =>
    have hw : advance turns h = fetch .handedOut turns h := by rw [advance, hahead]
    have hm : Parse.advance h.cursor = Parse.pull h.cursor := by
      rw [Parse.advance, show h.cursor.ahead = [] from hahead]
    obtain ⟨h', t, hfinds, hfetch⟩ | ⟨h', e, hbreaks, hfetch⟩ :=
      fetch_cases .handedOut (pending_lt hload)
    · have hcursor : (h'.add (h'.now.asked.handedOut t)).cursor =
          ⟨h.now.ahead, h'.now.lexer.next.2.stream⟩ := hfinds.cursor_asked
      refine .ok (hw.trans hfetch) ?_ ⟨hfinds.depth, ?_, fun source hb => ?_⟩
        fun t ht _ => by cases ht
      · rw [hm, hfinds.pull_eq, hcursor]
      · rw [hcursor]
        exact Cursor.load_le_of_pending (Nat.le_trans (Nat.le_add_left _ _) hfinds.length_le) _ _
      · have hb := hfinds.balanced source hb
        exact hb.add (hb.now.handedOut hfinds.next hfinds.kind (hfinds.ahead.trans hahead))
    · exact .failed (hw.trans hfetch) (hm.trans hbreaks.pull_eq) hbreaks.leadsTo

end Recorded

end Lumen
