import Lumen.Parser.Cursor
import Lumen.Proofs.Token.Stream

/-! What a reading sees.

A cursor holds more than a reading can tell apart: how many tokens have been looked at,
where the comments are, what lies behind a failure of the lexer. What it faces is a
`View`: the tokens left to read, and what stops them, a failure or the end of text.

`Runs m v r` says that a reading ends with `r` wherever `v` is faced, so that the view
alone decides. `Ensures m v Q` adds, without naming the end, what a failure may be (the
lexer's, or a complaint about a token in view) and what holds after a success. Readings
are taken apart by one rule for each construction; a repetition ends because it runs out
of tokens (`Ensures.iterate`). -/
namespace Lumen
open Token (Kind)

structure View where
  /-- The tokens left, none of them a comment. -/
  tokens : List Token
  /-- What comes behind them: a failure, or the place where the text ends. -/
  stop : Except Error Position

namespace View

instance : HAppend (List Token) View View where
  hAppend ts v := ⟨ts ++ v.tokens, v.stop⟩

@[simp] theorem tokens_append (ts : List Token) (v : View) : (ts ++ v).tokens = ts ++ v.tokens := rfl

@[simp] theorem stop_append (ts : List Token) (v : View) : (ts ++ v).stop = v.stop := rfl

@[simp] theorem nil_append (v : View) : ([] : List Token) ++ v = v := rfl

/-- Tokens in front of a view are kept in one list. -/
@[simp] theorem append_append (ts us : List Token) (v : View) : ts ++ (us ++ v) = (ts ++ us) ++ v :=
  congrArg (View.mk · v.stop) (List.append_assoc ts us v.tokens).symm

/-- Looks at the token `n` places behind the next one. -/
def look (v : View) (n : Nat) : Except Error Token :=
  match v.tokens[n]? with
  | some t => .ok t
  | none => v.stop.map .endAt

@[simp] theorem look_cons_zero (t : Token) (ts : List Token) (v : View) :
    ((t :: ts) ++ v).look 0 = .ok t := rfl

@[simp] theorem look_cons_succ (t : Token) (ts : List Token) (v : View) (n : Nat) :
    ((t :: ts) ++ v).look (n + 1) = (ts ++ v).look n := by
  simp [look]

theorem look_append (ts : List Token) (v : View) (n : Nat) :
    (ts ++ v).look (ts.length + n) = v.look n := by
  rw [look, tokens_append, List.getElem?_append_right (Nat.le_add_right _ _),
    Nat.add_sub_cancel_left]
  rfl

/-- A token that does not end the text and is next in view is the first one left. -/
theorem eq_cons_of_look {v : View} {t : Token} (h : v.look 0 = .ok t) (hk : t.kind ≠ .endOfText) :
    ∃ rest : View, v = [t] ++ rest := by
  obtain ⟨tokens, stop⟩ := v
  cases tokens with
  | cons u us =>
    obtain rfl := Except.ok.inj h
    exact ⟨⟨us, stop⟩, rfl⟩
  | nil =>
    cases stop with
    | error e => cases h
    | ok p =>
      obtain rfl := Except.ok.inj h
      exact absurd rfl hk

/-- Only what stops the tokens can fail. -/
theorem stop_of_look {v : View} {n : Nat} {e : Error} (h : v.look n = .error e) :
    v.stop = .error e := by
  unfold look at h
  split at h
  · cases h
  · cases hstop : v.stop with
    | error e' =>
      rw [hstop] at h
      exact congrArg Except.error (Except.error.inj h)
    | ok p =>
      rw [hstop] at h
      cases h

/-- The failures that a view accounts for: the lexer's, or a complaint about a token. -/
def Blames (v : View) (e : Error) : Prop :=
  v.stop = .error e ∨ ∃ n t cause, v.look n = .ok t ∧ e = .parse t.position cause

theorem Blames.append {v : View} {e : Error} (h : v.Blames e) (ts : List Token) :
    (ts ++ v).Blames e := by
  obtain h | ⟨n, t, cause, ht, he⟩ := h
  · exact .inl h
  · exact .inr ⟨ts.length + n, t, cause, (look_append ts v n).trans ht, he⟩

end View

/-! ### What a cursor faces -/

/-- All that there is to read in a stream. -/
def Token.Stream.view (s : Token.Stream) : View := ⟨readable s.pending, s.stop⟩

namespace Cursor

/-- The tokens left to a cursor: those of the view, and behind them ends of text that have
been looked at. -/
structure Faces (c : Cursor) (v : View) : Prop where
  stop : c.stream.stop = v.stop
  tokens : ∃ ends : List Token, c.ahead ++ Token.Stream.readable c.stream.pending = v.tokens ++ ends ∧
    ∀ t ∈ ends, v.stop.map Token.endAt = .ok t

theorem ofStream_faces (s : Token.Stream) : (ofStream s).Faces s.view :=
  ⟨rfl, [], by simp [ofStream, Token.Stream.view], nofun⟩

theorem Faces.length_le {c : Cursor} {v : View} (h : c.Faces v) : v.tokens.length ≤ c.size := by
  obtain ⟨ends, htokens, _⟩ := h.tokens
  have hreadable : ∀ pending, (Token.Stream.readable pending).length ≤ pending.length := by
    intro pending
    induction pending with
    | nil => exact Nat.le_refl 0
    | cons r rest ih =>
      unfold Token.Stream.readable
      split <;> grind
  have hlength := congrArg List.length htokens
  have := hreadable c.stream.pending
  simp only [List.length_append] at hlength
  simp only [size]
  omega

/-- Tokens that have been looked at are those of the view. -/
theorem Faces.look {c : Cursor} {v : View} (h : c.Faces v) {n : Nat} {t : Token}
    (ht : c.ahead[n]? = some t) : v.look n = .ok t := by
  obtain ⟨ends, htokens, hends⟩ := h.tokens
  have hn : (v.tokens ++ ends)[n]? = some t := by
    rw [← htokens, List.getElem?_append_left (List.getElem?_eq_some_iff.mp ht).1, ht]
  by_cases hlt : n < v.tokens.length
  · rw [List.getElem?_append_left hlt] at hn
    rw [View.look, hn]
  · rw [List.getElem?_append_right (by omega)] at hn
    rw [View.look, List.getElem?_eq_none (by omega)]
    exact hends t (List.mem_of_getElem? hn)

end Cursor

/-! ### What the view decides -/

namespace Parse
variable {α β : Type} {m : Parse α} {v v' : View} {a : α} {e : Error}

/-- How a reading ends, the cursor aside. -/
def outcome (r : EStateM.Result Error Cursor α) : Except Error α :=
  match r with
  | .ok a _ => .ok a
  | .error e _ => .error e

/-- Wherever `v` is faced, `m` ends with `r`. -/
def Runs (m : Parse α) (v : View) (r : Except Error (α × View)) : Prop :=
  ∀ c : Cursor, c.Faces v →
    match m c with
    | .ok a c' => ∃ v', r = .ok (a, v') ∧ c'.Faces v'
    | .error e _ => r = .error e

theorem bind_eq (m : Parse α) (f : α → Parse β) (c : Cursor) :
    (m >>= f) c = match m c with
      | .ok a c' => f a c'
      | .error e c' => .error e c' := by
  simp only [Bind.bind, EStateM.bind]
  cases m c <;> rfl

namespace Runs

theorem outcome_eq {r : Except Error (α × View)} (h : Runs m v r) {c : Cursor} (hc : c.Faces v) :
    outcome (m c) = r.map (·.1) := by
  have h := h c hc
  unfold outcome
  cases hm : m c with
  | ok a c' =>
    rw [hm] at h
    obtain ⟨v', rfl, _⟩ := h
    rfl
  | error e c' =>
    rw [hm] at h
    obtain rfl := h
    rfl

theorem pure (a : α) (v : View) : Runs (Pure.pure a) v (.ok (a, v)) := fun _ hc => ⟨v, rfl, hc⟩

theorem throw (e : Error) (v : View) : Runs (MonadExcept.throw e : Parse α) v (.error e) :=
  fun _ _ => rfl

theorem bind {f : α → Parse β} {r : Except Error (β × View)} (hm : Runs m v (.ok (a, v')))
    (hf : Runs (f a) v' r) : Runs (m >>= f) v r := by
  intro c hc
  have h := hm c hc
  rw [bind_eq]
  cases hr : m c with
  | ok b c' =>
    rw [hr] at h
    obtain ⟨w, hw, hc'⟩ := h
    obtain ⟨rfl, rfl⟩ := Prod.mk.inj (Except.ok.inj hw)
    exact hf c' hc'
  | error e c' =>
    rw [hr] at h
    cases h

theorem bind_error (hm : Runs m v (.error e)) (f : α → Parse β) : Runs (m >>= f) v (.error e) := by
  intro c hc
  have h := hm c hc
  rw [bind_eq]
  cases hr : m c with
  | ok b c' =>
    rw [hr] at h
    obtain ⟨w, hw, _⟩ := h
    cases hw
  | error e' c' =>
    rw [hr] at h
    obtain rfl := Except.error.inj h
    rfl

end Runs

/-! ### Tokens -/

theorem pull_eq (c : Cursor) :
    pull c = match c.stream.pull with
      | (.ok t, stream) => .ok t { c with stream }
      | (.error e, stream) => .error e { c with stream } := rfl

/-- Looking further either adds to the tokens looked at or meets the failure behind them. -/
theorem lookFurther_faces (count : Nat) {c : Cursor} (hc : c.Faces v) :
    match lookFurther count c with
    | .ok _ c' => c'.Faces v ∧ c'.ahead.length = c.ahead.length + count
    | .error e _ => v.stop = .error e ∧ c.ahead.length ≤ v.tokens.length ∧
        v.tokens.length < c.ahead.length + count := by
  induction count generalizing c with
  | zero => exact ⟨hc, rfl⟩
  | succ count ih =>
    obtain ⟨ends, htokens, hends⟩ := hc.tokens
    have hstep : lookFurther (count + 1) c = match pull c with
        | .ok t c => lookFurther count { c with ahead := c.ahead ++ [t] }
        | .error e c => .error e c := by
      rw [lookFurther, bind_eq]
      cases pull c <;> rfl
    rw [hstep, pull_eq]
    cases hreadable : Token.Stream.readable c.stream.pending with
    | cons t ts =>
      obtain ⟨s', hpull, hts, hstop⟩ := Token.Stream.pull_of_cons hreadable
      rw [hpull]
      have hfaces : Cursor.Faces ⟨c.ahead ++ [t], s'⟩ v := by
        refine ⟨hstop.trans hc.stop, ends, ?_, hends⟩
        rw [← htokens, hreadable, hts, List.append_assoc]
        rfl
      have h := ih hfaces
      dsimp only at h ⊢
      split <;> grind
    | nil =>
      obtain ⟨s', hpull, hs'⟩ := Token.Stream.pull_of_nil hreadable
      rw [hpull, hc.stop]
      rw [hreadable, List.append_nil] at htokens
      cases hstop : v.stop with
      | error e =>
        have hnone : ends = [] := by
          refine List.eq_nil_iff_forall_not_mem.mpr fun t ht => ?_
          have := hends t ht
          rw [hstop] at this
          cases this
        rw [hnone, List.append_nil] at htokens
        have hlength := congrArg List.length htokens
        exact ⟨rfl, Nat.le_of_eq hlength, by omega⟩
      | ok p =>
        obtain ⟨hnil, hs'⟩ := hs' p (hc.stop.trans hstop)
        have hfaces : Cursor.Faces ⟨c.ahead ++ [.endAt p], s'⟩ v := by
          refine ⟨hs'.trans hstop.symm, ends ++ [.endAt p], ?_, ?_⟩
          · rw [hnil, List.append_nil, htokens, List.append_assoc]
          · intro t ht
            rcases List.mem_append.mp ht with ht | ht
            · exact hends t ht
            · rw [List.mem_singleton.mp ht, hstop]
              rfl
        have h := ih hfaces
        dsimp only [Except.map] at h ⊢
        split <;> grind

theorem Runs.peek (v : View) (n : Nat) : Runs (peek n) v ((v.look n).map (·, v)) := by
  intro c hc
  have h := lookFurther_faces (n + 1 - c.ahead.length) hc
  have hstep : Parse.peek n c = match lookFurther (n + 1 - c.ahead.length) c with
      | .ok _ c => .ok (c.ahead.getD n (.endAt c.stream.finish)) c
      | .error e c => .error e c := by
    show (lookFurther (n + 1 - c.ahead.length) >>= fun _ => _) c = _
    rw [bind_eq]
    cases lookFurther (n + 1 - c.ahead.length) c <;> rfl
  rw [hstep]
  cases hr : lookFurther (n + 1 - c.ahead.length) c with
  | ok _ c' =>
    rw [hr] at h
    obtain ⟨hfaces, hlength⟩ := h
    have hn : n < c'.ahead.length := by omega
    refine ⟨v, ?_, hfaces⟩
    rw [hfaces.look (List.getElem?_eq_getElem hn), List.getD_eq_getElem?_getD,
      List.getElem?_eq_getElem hn]
    rfl
  | error e c' =>
    rw [hr] at h
    obtain ⟨hstop, hahead, hlength⟩ := h
    show (v.look n).map _ = _
    rw [View.look, List.getElem?_eq_none (by omega), hstop]
    rfl

theorem Runs.advance (t : Token) (ts : List Token) (v : View) :
    Runs advance ((t :: ts) ++ v) (.ok (t, ts ++ v)) := by
  intro c hc
  obtain ⟨ahead, s⟩ := c
  obtain ⟨ends, htokens, hends⟩ := hc.tokens
  cases ahead with
  | cons u ahead =>
    obtain ⟨rfl, hrest⟩ := List.cons.inj htokens
    exact ⟨ts ++ v, rfl, hc.stop, ends, hrest, hends⟩
  | nil =>
    obtain ⟨s', hpull, hts, hstop⟩ := Token.Stream.pull_of_cons htokens
    have hstep : Parse.advance ⟨[], s⟩ = .ok t ⟨[], s'⟩ := by
      simp only [Parse.advance, pull_eq, hpull]
    rw [hstep]
    exact ⟨ts ++ v, rfl, hstop.trans hc.stop, ends, hts, hends⟩

theorem Runs.peekKind {t : Token} {n : Nat} (h : v.look n = .ok t) :
    Runs (peekKind n) v (.ok (t.kind, v)) := by
  have hpeek := Runs.peek v n
  rw [h] at hpeek
  exact hpeek.bind (.pure _ v)

theorem Runs.expect {t : Token} {kind : Kind} (h : t.kind = kind) (what : Expectation)
    (ts : List Token) (v : View) : Runs (expect kind what) ((t :: ts) ++ v) (.ok (t, ts ++ v)) := by
  refine (Runs.peekKind (View.look_cons_zero t ts v)).bind ?_
  rw [if_pos h]
  exact .advance t ts v

theorem Runs.skip {t : Token} {kind : Kind} (h : t.kind = kind) (ts : List Token) (v : View) :
    Runs (skip kind) ((t :: ts) ++ v) (.ok ((), ts ++ v)) := by
  refine (Runs.peekKind (View.look_cons_zero t ts v)).bind ?_
  rw [if_pos h]
  exact (Runs.advance t ts v).bind (.pure () (ts ++ v))

theorem Runs.skip_of_ne {t : Token} {kind : Kind} (ht : v.look 0 = .ok t) (h : t.kind ≠ kind) :
    Runs (Parse.skip kind) v (.ok ((), v)) := by
  refine (Runs.peekKind ht).bind ?_
  rw [if_neg h]
  exact .pure () v

/-! ### Repetition -/

/-- Wherever `v` is faced, the repetition from `a` ends with `r` after at most `k` further
steps. -/
def Loops (giveUp : α → β) (step : α → Parse (Progress α β)) (k : Nat) (a : α) (v : View)
    (r : Except Error (β × View)) : Prop :=
  ∀ limit, k < limit → Runs (repeatUpTo giveUp step limit a) v r

namespace Loops
variable {giveUp : α → β} {step : α → Parse (Progress α β)} {k : Nat} {b : β}
  {r : Except Error (β × View)}

theorem more {a' : α} (hstep : Runs (step a) v (.ok (.more a', v')))
    (h : Loops giveUp step k a' v' r) : Loops giveUp step (k + 1) a v r := by
  intro limit hlimit
  obtain ⟨limit, rfl⟩ : ∃ l, limit = l + 1 := ⟨limit - 1, by omega⟩
  exact hstep.bind (h limit (by omega))

theorem done (hstep : Runs (step a) v (.ok (.done b, v'))) : Loops giveUp step k a v (.ok (b, v')) := by
  intro limit hlimit
  obtain ⟨limit, rfl⟩ : ∃ l, limit = l + 1 := ⟨limit - 1, by omega⟩
  exact hstep.bind (.pure b v')

theorem fail (hstep : Runs (step a) v (.error e)) : Loops giveUp step k a v (.error e) := by
  intro limit hlimit
  obtain ⟨limit, rfl⟩ : ∃ l, limit = l + 1 := ⟨limit - 1, by omega⟩
  exact hstep.bind_error _

theorem mono (h : Loops giveUp step k a v r) {k' : Nat} (hk : k ≤ k') :
    Loops giveUp step k' a v r := fun limit hlimit => h limit (by omega)

/-- A cursor allows as many steps as there are tokens in view. -/
theorem runs (h : Loops giveUp step k a v r) (hk : k ≤ v.tokens.length) :
    Runs (iterate giveUp step a) v r := by
  intro c hc
  exact h (c.size + 1) (by have := hc.length_le; omega) c hc

end Loops

/-! ### What a reading ensures -/

/-- How a reading of `v` may end: with tokens taken from the front and `Q` true of the rest,
or with a failure that `v` accounts for. -/
inductive Ends (Q : α → View → Prop) : View → Except Error (α × View) → Prop
  | gives (ts : List Token) {a : α} {rest : View} (hQ : Q a rest) : Ends Q (ts ++ rest) (.ok (a, rest))
  | fails {v : View} {e : Error} (he : v.Blames e) : Ends Q v (.error e)

theorem Ends.append {Q : α → View → Prop} {r : Except Error (α × View)} (h : Ends Q v r)
    (ts : List Token) : Ends Q (ts ++ v) r := by
  cases h with
  | gives us hQ =>
    rw [View.append_append]
    exact .gives (ts ++ us) hQ
  | fails he => exact .fails (he.append ts)

/-- Wherever `v` is faced, `m` ends in one and the same way, and `Q` holds if it succeeds. -/
def Ensures (m : Parse α) (v : View) (Q : α → View → Prop) : Prop := ∃ r, Runs m v r ∧ Ends Q v r

namespace Ensures
variable {Q : α → View → Prop}

/-- What is ensured of a view holds for every cursor that faces it. -/
theorem on_cursor (h : Ensures m v Q) {c : Cursor} (hc : c.Faces v) :
    match outcome (m c) with
    | .ok a => ∃ rest, Q a rest
    | .error e => v.Blames e := by
  obtain ⟨r, hrun, hends⟩ := h
  rw [hrun.outcome_eq hc]
  cases hends with
  | gives ts hQ => exact ⟨_, hQ⟩
  | fails he => exact he

theorem of_runs (ts : List Token) (h : Runs m (ts ++ v) (.ok (a, v))) (hQ : Q a v) :
    Ensures m (ts ++ v) Q := ⟨_, h, .gives ts hQ⟩

theorem pure (h : Q a v) : Ensures (Pure.pure a) v Q := ⟨_, .pure a v, .gives [] h⟩

theorem mono {Q' : α → View → Prop} (h : Ensures m v Q) (himp : ∀ a v', Q a v' → Q' a v') :
    Ensures m v Q' := by
  obtain ⟨r, hrun, ⟨ts, hQ⟩ | ⟨he⟩⟩ := h
  · exact ⟨_, hrun, .gives ts (himp _ _ hQ)⟩
  · exact ⟨_, hrun, .fails he⟩

theorem bind {f : α → Parse β} {Q : β → View → Prop}
    (h : Ensures m v fun a v' => Ensures (f a) v' Q) : Ensures (m >>= f) v Q := by
  obtain ⟨r, hm, ⟨ts, r', hf, hends⟩ | ⟨he⟩⟩ := h
  · exact ⟨r', hm.bind hf, hends.append ts⟩
  · exact ⟨_, hm.bind_error f, .fails he⟩

theorem peek {n : Nat} {Q : Token → View → Prop} (h : ∀ t, v.look n = .ok t → Q t v) :
    Ensures (peek n) v Q := by
  have hrun := Runs.peek v n
  cases hlook : v.look n with
  | ok t =>
    rw [hlook] at hrun
    exact ⟨_, hrun, .gives [] (h t hlook)⟩
  | error e =>
    rw [hlook] at hrun
    exact ⟨_, hrun, .fails (.inl (View.stop_of_look hlook))⟩

theorem peekKind {n : Nat} {Q : Kind → View → Prop} (h : ∀ t, v.look n = .ok t → Q t.kind v) :
    Ensures (peekKind n) v Q :=
  bind (peek fun t ht => pure (h t ht))

theorem advance {t : Token} {Q : Token → View → Prop} (hlook : v.look 0 = .ok t)
    (hk : t.kind ≠ .endOfText) (h : ∀ rest : View, v = [t] ++ rest → Q t rest) :
    Ensures advance v Q := by
  obtain ⟨rest, rfl⟩ := View.eq_cons_of_look hlook hk
  exact ⟨_, .advance t [] rest, .gives [t] (h rest rfl)⟩

/-- A complaint about a token in view. -/
theorem complain {n : Nat} {t : Token} (h : v.look n = .ok t) (cause : ParseCause) :
    Ensures (throw (.parse t.position cause)) v Q :=
  ⟨_, .throw _ v, .fails (.inr ⟨n, t, cause, h, rfl⟩)⟩

theorem unexpected (what : Expectation) : Ensures (unexpected what) v Q :=
  bind (peek fun _ ht => complain ht _)

theorem expect {kind : Kind} {what : Expectation} {Q : Token → View → Prop}
    (hk : kind ≠ .endOfText) (h : ∀ t (rest : View), v = [t] ++ rest → t.kind = kind → Q t rest) :
    Ensures (expect kind what) v Q := by
  refine bind (peekKind fun t ht => ?_)
  by_cases hkind : t.kind = kind
  · rw [if_pos hkind]
    exact advance ht (hkind ▸ hk) fun rest hrest => h t rest hrest hkind
  · rw [if_neg hkind]
    exact unexpected what

section Repetition
variable {giveUp : α → β} {step : α → Parse (Progress α β)} {Q : β → View → Prop}
  (Inv : α → View → Prop) (left : α → View → Nat)
  (hstep : ∀ a v, Inv a v → Ensures (step a) v fun
    | .more a', v' => Inv a' v' ∧ left a' v' < left a v
    | .done b, v' => Q b v')
include hstep

/-- A repetition keeps what every step of it keeps. The steps that may follow are counted
down by `left`. -/
theorem loops (hInv : Inv a v) : ∃ r, Loops giveUp step (left a v) a v r ∧ Ends Q v r := by
  have hloops : ∀ k a v, Inv a v → left a v = k →
      ∃ r, Loops giveUp step k a v r ∧ Ends Q v r := by
    intro k
    induction k using Nat.strongRecOn with
    | ind k ih =>
      rintro a v hInv rfl
      obtain ⟨r, hrun, ⟨ts, hQ⟩ | ⟨he⟩⟩ := hstep a v hInv
      · next p rest =>
        cases p with
        | more a' =>
          obtain ⟨hInv', hlt⟩ := hQ
          obtain ⟨r, h, hends⟩ := ih _ hlt a' rest hInv' rfl
          exact ⟨r, (h.more hrun).mono hlt, hends.append ts⟩
        | done b => exact ⟨_, .done hrun, .gives ts hQ⟩
      · exact ⟨_, .fail hrun, .fails he⟩
  exact hloops _ a v hInv rfl

/-- The tokens in view allow for all steps of a repetition. -/
theorem iterate (hInv : Inv a v) (hleft : left a v ≤ v.tokens.length) :
    Ensures (iterate giveUp step a) v Q := by
  obtain ⟨r, h, hends⟩ := loops Inv left hstep hInv
  exact ⟨r, h.runs hleft, hends⟩

end Repetition

end Ensures

end Parse

end Lumen
