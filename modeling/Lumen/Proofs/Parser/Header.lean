import Mathlib
import Lumen.Proofs.Parser.Lookahead
import Lumen.Proofs.Parser.Resumption

/-! Looking for the header of a function, and reading it.

Two loops go over the parameters of a function: the one that looks for them counts places in the
queue, and the one that reads them takes tokens and puts up with commas that are missing or do not
belong. They agree. Looking takes nothing, and finds the header of a function if and only if it is
next; by then all of it stands in the queue (`Header.eq_append_of_arrow`), so that it can be read
without the lexer, and nothing in it is put up with (`functionWith_header`). -/
namespace Lumen
open Token (Kind)

/-! ### What comes next -/

namespace Cursor

/-- What is next for a cursor: the tokens looked at and those behind them, and what stops them. -/
def upcoming (c : Cursor) : View :=
  ⟨c.ahead ++ Token.Stream.readable c.stream.pending, c.stream.stop⟩

theorem faces_upcoming (c : Cursor) : c.Faces c.upcoming :=
  ⟨rfl, [], (List.append_nil _).symm, nofun⟩

/-- What a cursor faces is next for it. -/
theorem Faces.look_upcoming {c : Cursor} {v : View} (h : c.Faces v) (n : Nat) :
    c.upcoming.look n = v.look n := by
  obtain ⟨ends, htokens, hends⟩ := h.tokens
  rw [View.look, show c.upcoming.tokens = v.tokens ++ ends from htokens,
    show c.upcoming.stop = v.stop from h.stop, View.look]
  by_cases hlt : n < v.tokens.length
  · rw [List.getElem?_append_left hlt, List.getElem?_eq_getElem hlt]
  · rw [List.getElem?_append_right (by omega), List.getElem?_eq_none (l := v.tokens) (by omega)]
    cases hend : ends[n - v.tokens.length]? with
    | none => rfl
    | some t => exact (hends t (List.mem_of_getElem? hend)).symm

/-- From `c` to `c'` more tokens have been looked at, and none has been taken. -/
structure LooksTo (c c' : Cursor) : Prop where
  ahead : c.ahead <+: c'.ahead
  faces : ∀ v, c.Faces v → c'.Faces v

namespace LooksTo
variable {c c' c'' : Cursor}

theorem refl (c : Cursor) : c.LooksTo c := ⟨List.prefix_rfl, fun _ h => h⟩

theorem trans (h : c.LooksTo c') (h' : c'.LooksTo c'') : c.LooksTo c'' :=
  ⟨h.ahead.trans h'.ahead, fun v hv => h'.faces v (h.faces v hv)⟩

theorem stop (h : c.LooksTo c') : c'.stream.stop = c.stream.stop :=
  (h.faces _ c.faces_upcoming).stop

end LooksTo

end Cursor

namespace Parse
variable {α β : Type} {m : Parse α} {c c' : Cursor} {Q : α → Cursor → Prop}

/-- From `c` a reading takes nothing, and fails only if the lexer does. If it succeeds, `Q` holds
of its result and of the cursor that it leaves. -/
def Looks (m : Parse α) (c : Cursor) (Q : α → Cursor → Prop) : Prop :=
  match m c with
  | .ok a c' => c.LooksTo c' ∧ Q a c'
  | .error e _ => c.stream.stop = .error e

namespace Looks

theorem pure {a : α} (h : Q a c) : Looks (Pure.pure a) c Q := ⟨.refl c, h⟩

theorem bind {f : α → Parse β} {R : β → Cursor → Prop} (h : Looks m c Q)
    (hf : ∀ a c', Q a c' → Looks (f a) c' R) : Looks (m >>= f) c R := by
  unfold Looks at h ⊢
  rw [bind_eq]
  cases hm : m c with
  | error e c' =>
    rw [hm] at h
    exact h
  | ok a c' =>
    rw [hm] at h
    obtain ⟨hto, hq⟩ := h
    have hrest := hf a c' hq
    unfold Looks at hrest
    dsimp only
    cases hr : f a c' with
    | error e c'' =>
      rw [hr] at hrest
      exact hto.stop.symm.trans hrest
    | ok b c'' =>
      rw [hr] at hrest
      exact ⟨hto.trans hrest.1, hrest.2⟩

end Looks

theorem begins_of_lookFurther {count : Nat} (h : lookFurther count c = .ok () c') :
    c.ahead <+: c'.ahead := by
  induction count generalizing c with
  | zero =>
    obtain ⟨-, rfl⟩ := EStateM.Result.ok.inj h
    exact List.prefix_rfl
  | succ count ih =>
    rw [lookFurther_succ, bind_eq, lookOne, pull_eq] at h
    cases hpull : c.stream.pull with
    | mk result stream =>
      rw [hpull] at h
      cases result with
      | error e => cases h
      | ok t => exact (List.prefix_append c.ahead [t]).trans (ih h)

namespace Looks

theorem lookFurther (c : Cursor) (count : Nat) :
    Looks (lookFurther count) c fun _ c' => c'.ahead.length = c.ahead.length + count := by
  unfold Looks
  cases hlook : Parse.lookFurther count c with
  | error e c' =>
    have hfaces := lookFurther_faces count c.faces_upcoming
    rw [hlook] at hfaces
    exact hfaces.1
  | ok _ c' =>
    have hfaces : ∀ v, c.Faces v → c'.Faces v ∧ c'.ahead.length = c.ahead.length + count := by
      intro v hv
      have hfaces := lookFurther_faces count hv
      rw [hlook] at hfaces
      exact hfaces
    exact ⟨⟨begins_of_lookFurther hlook, fun v hv => (hfaces v hv).1⟩,
      (hfaces _ c.faces_upcoming).2⟩

/-- A token that has been looked at is in the queue. -/
theorem peek (c : Cursor) (n : Nat) : Looks (peek n) c fun t c' => c'.ahead[n]? = some t := by
  have hlook := lookFurther c (n + 1 - c.ahead.length)
  unfold Looks at hlook ⊢
  rw [peek_eq]
  cases hfurther : Parse.lookFurther (n + 1 - c.ahead.length) c with
  | error e c' =>
    rw [hfurther] at hlook
    exact hlook
  | ok _ c' =>
    rw [hfurther] at hlook
    obtain ⟨hto, hlength⟩ := hlook
    have hn : n < c'.ahead.length := by omega
    refine ⟨hto, ?_⟩
    rw [List.getD_eq_getElem?_getD, List.getElem?_eq_getElem hn]
    exact List.getElem?_eq_getElem hn

theorem peekKind (c : Cursor) (n : Nat) :
    Looks (peekKind n) c fun kind c' => ∃ t ∈ c'.ahead, t.kind = kind :=
  (peek c n).bind fun t _ ht => .pure ⟨t, List.mem_of_getElem? ht, rfl⟩

/-- A repetition only looks if each of its steps does. -/
theorem iterate {giveUp : α → β} {step : α → Parse (Progress α β)} {Q : β → Cursor → Prop}
    (hgiveUp : ∀ a c, Q (giveUp a) c)
    (hstep : ∀ a c, Looks (step a) c fun next c' => ∀ b, next = .done b → Q b c')
    (a : α) (c : Cursor) : Looks (iterate giveUp step a) c Q := by
  have hrepeat : ∀ limit a c, Looks (repeatUpTo giveUp step limit a) c Q := by
    intro limit
    induction limit with
    | zero => exact fun a c => .pure (hgiveUp a c)
    | succ limit ih =>
      intro a c
      refine (hstep a c).bind fun next c' hnext => ?_
      cases next with
      | done b => exact .pure (hnext b rfl)
      | more a' => exact ih a' c'
  exact hrepeat (c.size + 1) a c

end Looks

/-! ### Tokens in the queue -/

theorem bind_of_ok {a : α} {f : α → Parse β} (h : m c = .ok a c') : (m >>= f) c = f a c' := by
  rw [bind_eq, h]

theorem peekKind_queue {n : Nat} {t : Token} (h : c.ahead[n]? = some t) :
    peekKind n c = .ok t.kind c := by
  have hnone : n + 1 - c.ahead.length = 0 := by
    have := (List.getElem?_eq_some_iff.mp h).1
    omega
  have hpeek : peek n c = .ok t c := by
    rw [peek_eq, hnone]
    exact congrArg (EStateM.Result.ok · c) (by rw [List.getD_eq_getElem?_getD, h]; rfl)
  exact bind_of_ok hpeek

theorem expect_queue {kind : Kind} {t : Token} {queue : List Token} {s : Token.Stream}
    (h : t.kind = kind) (what : Expectation) :
    expect kind what ⟨t :: queue, s⟩ = .ok t ⟨queue, s⟩ := by
  rw [expect, bind_of_ok (peekKind_queue rfl), if_pos h]
  rfl

/-! ### Forgetting a part of a loop -/

theorem iterate_eq (giveUp : α → β) (step : α → Parse (Progress α β)) (a : α) (c : Cursor) :
    iterate giveUp step a c = repeatUpTo giveUp step (c.size + 1) a c := rfl

/-- Forgets a part of what is handed to the next step. -/
def Progress.mapMore {γ : Type} (f : γ → α) : Progress γ β → Progress α β
  | .more a => .more (f a)
  | .done b => .done b

theorem repeatUpTo_mapMore {γ : Type} {f : γ → α} {step : α → Parse (Progress α β)}
    {step' : γ → Parse (Progress γ β)} (h : ∀ a, Progress.mapMore f <$> step' a = step (f a))
    (giveUp : α → β) (limit : Nat) (a : γ) :
    repeatUpTo (fun a => giveUp (f a)) step' limit a = repeatUpTo giveUp step limit (f a) := by
  induction limit generalizing a with
  | zero => rfl
  | succ limit ih =>
    rw [repeatUpTo, repeatUpTo, ← h, bind_map_left]
    refine bind_congr fun next => ?_
    cases next with
    | more a => exact ih a
    | done b => rfl

end Parse

/-! ### The header -/

namespace Phrase

/-- `'(' [name {',' name}] ')' '=>'` -/
inductive Header : Phrase (List String)
  | header {ts : List Token} {t u arrow : Token} {names : List String} (ht : t.kind = .parenOpen)
    (hnames : Listed Name ts names) (hu : u.kind = .parenClose) (harrow : arrow.kind = .arrow) :
    Header (t :: ts ++ [u, arrow]) names

theorem Listed.kind_ne_arrow {ts : List Token} {names : List String} (h : Listed Name ts names) :
    ∀ t ∈ ts, t.kind ≠ .arrow := by
  cases h with
  | none => nofun
  | some hnames =>
    induction hnames with
    | last hname =>
      obtain @⟨t, ht⟩ := hname
      simp [ht]
    | more hname hcomma _ ih =>
      obtain @⟨t, ht⟩ := hname
      simpa [ht, hcomma] using ih

/-- The arrow of a header is its last token, so a queue that begins like the header and holds an
arrow holds all of it. -/
theorem Header.eq_append_of_arrow {header queue : List Token} {names : List String}
    (h : Header header names) {all : List Token} (hheader : header <+: all) (hqueue : queue <+: all)
    (harrow : ∃ t ∈ queue, t.kind = .arrow) : ∃ rest, queue = header ++ rest := by
  obtain hbegins | hbegins := List.prefix_or_prefix_of_prefix hheader hqueue
  · obtain ⟨rest, rfl⟩ := hbegins
    exact ⟨rest, rfl⟩
  · obtain @⟨ts, t, u, arrow, names, ht, hnames, hu, -⟩ := h
    rw [show t :: ts ++ [u, arrow] = (t :: ts ++ [u]) ++ [arrow] by simp] at hbegins
    obtain hall | hshort := List.prefix_concat_iff.mp hbegins
    · exact ⟨[], by simp [hall]⟩
    · have hnone : ∀ v ∈ t :: ts ++ [u], v.kind ≠ .arrow := by
        intro v hv
        simp only [List.cons_append, List.mem_cons, List.mem_append, List.not_mem_nil, or_false] at hv
        obtain rfl | hv | rfl := hv
        · simp [ht]
        · exact hnames.kind_ne_arrow v hv
        · simp [hu]
      obtain ⟨v, hv, hkind⟩ := harrow
      exact absurd hkind (hnone v (hshort.subset hv))

end Phrase

namespace Grammar
open Parse Phrase

/-- Looking ahead takes nothing, and if it finds a header it has looked at an arrow. -/
theorem looks_lambdaAhead (c : Cursor) :
    Looks lambdaAhead c fun found c' => found = true → ∃ t ∈ c'.ahead, t.kind = .arrow := by
  have harrow : ∀ {kind : Kind} {c' : Cursor}, (∃ t ∈ c'.ahead, t.kind = kind) →
      decide (kind = .arrow) = true → ∃ t ∈ c'.ahead, t.kind = .arrow :=
    fun hkind hfound => of_decide_eq_true hfound ▸ hkind
  refine (Looks.peekKind c 1).bind fun kind c _ => ?_
  split
  · exact (Looks.peekKind c 2).bind fun kind c' hkind => .pure (harrow hkind)
  · refine .iterate (fun _ _ => nofun) (fun index c => ?_) 1 c
    refine (Looks.peekKind c index).bind fun kind c _ => ?_
    split
    · refine (Looks.peekKind c (index + 1)).bind fun kind c _ => ?_
      split
      · exact .pure nofun
      · refine (Looks.peekKind c (index + 2)).bind fun kind c' hkind => .pure fun b hb => ?_
        obtain rfl := Progress.done.inj hb
        exact harrow hkind
      · exact .pure fun _ hb hfound => nomatch Progress.done.inj hb ▸ hfound
    · exact .pure fun _ hb hfound => nomatch Progress.done.inj hb ▸ hfound

/-! ### Reading it -/

/-- Where the tokens between the parentheses are not names with a comma between any two of them. -/
inductive Lapse where
  | missingComma
  | trailingComma
  | noName

/-- Turns to `m` unless `p` holds. -/
def otherwise (p : Prop) [Decidable p] (m : Parse Unit) : Parse Unit := if p then pure () else m

/-- Reads a parameter and the comma behind it, if there are any, and turns to `lapse` at every lapse.
It is kept whether a comma has been taken last. -/
def nextParameterOr (lapse : Lapse → Parse Unit) (read : List String × Bool) :
    Parse (Progress (List String × Bool) (List String)) := do
  let kind ← peekKind 0
  if kind = .parenClose then
    otherwise (read.2 = false) (lapse .trailingComma)
    return .done read.1
  else
    otherwise (kind = .identifier) (lapse .noName)
    let name ← expect .identifier .parameterName
    let behind ← peekKind 0
    if behind = .comma then
      let _ ← advance
      return .more (read.1 ++ [name.words], true)
    else
      otherwise (behind = .parenClose) (lapse .missingComma)
      return .more (read.1 ++ [name.words], false)

/-- Reads parameters, and turns to `lapse` at every lapse. -/
def parametersOr (lapse : Lapse → Parse Unit) : Parse (List String) :=
  iterate (·.1) (nextParameterOr lapse) ([], false)

/-- Reads a function whose parameters are read by `parameters`. -/
def functionWith (parameters : Parse (List String)) (sub : Layers) : Parse Expression := do
  let paren ← expect .parenOpen (.token .parenOpen)
  let names ← parameters
  let _ ← expect .parenClose (.token .parenClose)
  let _ ← expect .arrow (.token .arrow)
  let body ← sub.statement
  return .lambda ⟨names, body, paren.position⟩

theorem lambda_eq (sub : Layers) : lambda sub = functionWith parameters sub := rfl

/-- Reading parameters is turning to nothing at a lapse. -/
theorem parametersOr_pure : parametersOr (fun _ => pure ()) = parameters := by
  have hstep : ∀ read, Progress.mapMore (·.1) <$> nextParameterOr (fun _ => pure ()) read =
      nextParameter read.1 := by
    intro read
    simp only [nextParameterOr, nextParameter, otherwise, ite_self, map_bind, pure_bind]
    refine bind_congr fun kind => ?_
    split
    · simp [Progress.mapMore]
    · simp only [map_bind, skip, bind_assoc]
      refine bind_congr fun name => bind_congr fun behind => ?_
      split <;> simp [Progress.mapMore]
  funext c
  rw [parametersOr, parameters_eq, iterate_eq, iterate_eq]
  exact congrFun (repeatUpTo_mapMore hstep id _ _) c

section Queue
variable {ts queue : List Token} {names : List String} {t u : Token} {s : Token.Stream}
  (lapse : Lapse → Parse Unit)

/-- A parameter with another one behind it. -/
theorem nextParameterOr_comma (ht : t.kind = .identifier) (hu : u.kind = .comma)
    (read : List String × Bool) :
    nextParameterOr lapse read ⟨t :: u :: queue, s⟩ =
      .ok (.more (read.1 ++ [t.words], true)) ⟨queue, s⟩ := by
  rw [nextParameterOr, bind_of_ok (peekKind_queue rfl), if_neg (by rw [ht]; decide), otherwise,
    if_pos ht, pure_bind, bind_of_ok (expect_queue ht _), bind_of_ok (peekKind_queue rfl), if_pos hu]
  rfl

/-- The last parameter. -/
theorem nextParameterOr_last (ht : t.kind = .identifier) (hu : u.kind = .parenClose)
    (read : List String × Bool) :
    nextParameterOr lapse read ⟨t :: u :: queue, s⟩ =
      .ok (.more (read.1 ++ [t.words], false)) ⟨u :: queue, s⟩ := by
  rw [nextParameterOr, bind_of_ok (peekKind_queue rfl), if_neg (by rw [ht]; decide), otherwise,
    if_pos ht, pure_bind, bind_of_ok (expect_queue ht _), bind_of_ok (peekKind_queue rfl),
    if_neg (by rw [hu]; decide), otherwise, if_pos hu]
  rfl

theorem nextParameterOr_end (hu : u.kind = .parenClose) (read : List String) :
    nextParameterOr lapse (read, false) ⟨u :: queue, s⟩ = .ok (.done read) ⟨u :: queue, s⟩ := by
  rw [nextParameterOr, bind_of_ok (peekKind_queue rfl), if_pos hu, otherwise, if_pos rfl]
  rfl

/-- Parameters in the queue are read one by one, without a lapse. -/
theorem repeatUpTo_parameters (h : Series Name ts names) (hu : u.kind = .parenClose)
    {giveUp : List String × Bool → List String} {limit : Nat} (hlimit : ts.length < limit)
    (read : List String × Bool) :
    repeatUpTo giveUp (nextParameterOr lapse) limit read ⟨ts ++ u :: queue, s⟩ =
      .ok (read.1 ++ names) ⟨u :: queue, s⟩ := by
  induction h generalizing read limit with
  | last hname =>
    obtain @⟨t, ht⟩ := hname
    obtain ⟨limit, rfl⟩ : ∃ l, limit = l + 2 := ⟨limit - 2, by simp at hlimit; omega⟩
    rw [repeatUpTo, List.singleton_append, bind_of_ok (nextParameterOr_last lapse ht hu read)]
    dsimp only
    rw [repeatUpTo, bind_of_ok (nextParameterOr_end lapse hu _)]
    rfl
  | more hname hcomma _ ih =>
    obtain @⟨t, ht⟩ := hname
    obtain ⟨limit, rfl⟩ : ∃ l, limit = l + 1 := ⟨limit - 1, by omega⟩
    rw [repeatUpTo, List.singleton_append, List.cons_append, List.cons_append,
      bind_of_ok (nextParameterOr_comma lapse ht hcomma read)]
    dsimp only
    rw [ih (by simp at hlimit; omega), List.append_assoc]
    rfl

theorem parametersOr_queue (h : Listed Name ts names) (hu : u.kind = .parenClose) :
    parametersOr lapse ⟨ts ++ u :: queue, s⟩ = .ok names ⟨u :: queue, s⟩ := by
  have hlimit : ts.length < Cursor.size ⟨ts ++ u :: queue, s⟩ + 1 := by
    simp [Cursor.size]
    omega
  rw [parametersOr, iterate_eq]
  cases h with
  | none =>
    rw [repeatUpTo, List.nil_append, bind_of_ok (nextParameterOr_end lapse hu [])]
    rfl
  | some hnames => exact repeatUpTo_parameters lapse hnames hu hlimit ([], false)

/-- A header in the queue is read as it stands, without a lapse, and the body is read behind it. -/
theorem functionWith_header {header : List Token} (h : Header header names)
    (ht : header.head? = some t) (sub : Layers) :
    functionWith (parametersOr lapse) sub ⟨header ++ queue, s⟩ =
      (do return .lambda ⟨names, ← sub.statement, t.position⟩ : Parse Expression) ⟨queue, s⟩ := by
  obtain @⟨ts, first, u, arrow, _, hfirst, hnames, hu, harrow⟩ := h
  obtain rfl := Option.some.inj ht
  have hqueue : first :: ts ++ [u, arrow] ++ queue = first :: (ts ++ u :: arrow :: queue) := by simp
  rw [functionWith, hqueue, bind_of_ok (expect_queue hfirst _),
    bind_of_ok (parametersOr_queue lapse hnames hu), bind_of_ok (expect_queue hu _),
    bind_of_ok (expect_queue harrow _)]

theorem lambda_header {header : List Token} (h : Header header names) (ht : header.head? = some t)
    (sub : Layers) :
    lambda sub ⟨header ++ queue, s⟩ =
      (do return .lambda ⟨names, ← sub.statement, t.position⟩ : Parse Expression) ⟨queue, s⟩ := by
  rw [lambda_eq, ← parametersOr_pure, functionWith_header _ h ht]

end Queue

/-! ### Both together -/

/-- A header that is next is found. -/
theorem lambdaAhead_of_header {c : Cursor} {header : List Token} {names : List String}
    (h : Header header names) (hnext : header <+: c.upcoming.tokens) :
    outcome (lambdaAhead c) = .ok true := by
  obtain @⟨ts, t, u, arrow, _, -, hnames, hu, harrow⟩ := h
  obtain ⟨rest, hrest⟩ := hnext
  have hview : c.upcoming = (t :: ts ++ [u, arrow]) ++ (⟨rest, c.upcoming.stop⟩ : View) :=
    congrArg (View.mk · c.upcoming.stop) hrest.symm
  exact (runs_lambdaAhead hnames hu harrow _ _).outcome_eq (hview ▸ c.faces_upcoming)

/-- Behind a parenthesis nothing but a header is found. -/
theorem header_of_lambdaAhead {c : Cursor} {t : Token} {rest : List Token}
    (hnext : c.upcoming.tokens = t :: rest) (ht : t.kind = .parenOpen)
    (hfound : outcome (lambdaAhead c) = .ok true) :
    ∃ header names, Header header names ∧ header <+: c.upcoming.tokens := by
  have hview : c.upcoming = [t] ++ (⟨rest, c.upcoming.stop⟩ : View) :=
    congrArg (View.mk · c.upcoming.stop) hnext
  have honly := (ensures_lambdaAhead t _).on_cursor (hview ▸ c.faces_upcoming)
  rw [hfound] at honly
  obtain ⟨-, -, himp⟩ := honly
  obtain ⟨ts, names, u, arrow, v, hv, hnames, hu, harrow⟩ := himp rfl
  refine ⟨t :: ts ++ [u, arrow], names, .header ht hnames hu harrow, v.tokens, ?_⟩
  have htokens : rest = ts ++ [u, arrow] ++ v.tokens := congrArg View.tokens hv
  rw [hnext, htokens]
  rfl

/-- **Looking for a function agrees with reading it**, wherever a parenthesis is next. Looking ahead
ends, with or without a bound on its loop: the lexer fails, or no token has been taken and the
answer is whether the header of a function is next. If one is, then the reading of the function takes
just this header, all of which stands in the queue, without a failure, its parameters are the
names of the header in their order, and whatever would be done at a lapse is not done. -/
theorem lambda_lookahead {c : Cursor} {t : Token} (hnext : c.upcoming.look 0 = .ok t)
    (ht : t.kind = .parenOpen) :
    (∀ turns h, h.cursor = c → c.load 0 < turns →
      Recorded.Mirrors turns Recorded.lambdaAhead lambdaAhead h fun _ _ => True) ∧
    match lambdaAhead c with
    | .error e _ => c.upcoming.stop = .error e
    | .ok found c' =>
      c.ahead <+: c'.ahead ∧ (∀ n, c'.upcoming.look n = c.upcoming.look n) ∧
      (found = true ↔ ∃ header names, Header header names ∧ header <+: c.upcoming.tokens) ∧
      ∀ header names, Header header names → header <+: c.upcoming.tokens →
        ∃ queue, c'.ahead = header ++ queue ∧ ∀ sub,
          lambda sub c' = (do return .lambda ⟨names, ← sub.statement, t.position⟩ :
            Parse Expression) ⟨queue, c'.stream⟩ ∧
          ∀ lapse, functionWith (parametersOr lapse) sub c' = lambda sub c' := by
  refine ⟨fun turns h hc hload => ?_, ?_⟩
  · subst hc
    exact Recorded.tracks_lambdaAhead h ⟨hload, rfl⟩
  obtain ⟨v, hv⟩ := View.eq_cons_of_look hnext (by rw [ht]; decide)
  have htokens : c.upcoming.tokens = t :: v.tokens := congrArg View.tokens hv
  have hlooks := looks_lambdaAhead c
  have honly := header_of_lambdaAhead htokens ht
  have hfinds := @lambdaAhead_of_header c
  unfold Looks at hlooks
  cases hresult : lambdaAhead c with
  | error e c' =>
    rw [hresult] at hlooks
    exact hlooks
  | ok found c' =>
    rw [hresult] at hlooks honly hfinds
    obtain ⟨hto, harrow⟩ := hlooks
    have hfaces := hto.faces _ c.faces_upcoming
    refine ⟨hto.ahead, hfaces.look_upcoming, ⟨fun h => ?_, ?_⟩, fun header names hheader hbegins => ?_⟩
    · exact honly (congrArg Except.ok h)
    · rintro ⟨header, names, hheader, hbegins⟩
      exact Except.ok.inj (hfinds hheader hbegins)
    · -- The arrow has been looked at, and with it the whole header.
      obtain ⟨ends, hall, -⟩ := hfaces.tokens
      obtain ⟨queue, hqueue⟩ := hheader.eq_append_of_arrow (hbegins.trans (List.prefix_append _ ends))
        ⟨_, hall⟩ (harrow (Except.ok.inj (hfinds hheader hbegins)))
      have hfirst : header.head? = some t := by
        obtain ⟨rest, hrest⟩ := hbegins
        rw [htokens] at hrest
        obtain ⟨-⟩ := hheader
        exact congrArg some (List.cons.inj hrest).1
      have hcursor : c' = ⟨header ++ queue, c'.stream⟩ := by rw [← hqueue]
      refine ⟨queue, hqueue, fun sub => ⟨?_, fun lapse => ?_⟩⟩
      · rw [hcursor, lambda_header hheader hfirst]
      · rw [hcursor, lambda_header hheader hfirst, functionWith_header lapse hheader hfirst]

/-- The tokens of `(a, b) =>`. -/
def pairHeader : List Token :=
  [⟨.parenOpen, .none, ⟨1, 1⟩, 1⟩, ⟨.identifier, .text "a", ⟨1, 2⟩, 1⟩, ⟨.comma, .none, ⟨1, 3⟩, 1⟩,
    ⟨.identifier, .text "b", ⟨1, 5⟩, 1⟩, ⟨.parenClose, .none, ⟨1, 6⟩, 1⟩,
    ⟨.arrow, .none, ⟨1, 8⟩, 2⟩]

theorem lambda_lookahead_pair :
    (∀ turns, (Cursor.ofSource "(a, b) => c").load 0 < turns →
      Recorded.Mirrors turns Recorded.lambdaAhead lambdaAhead (.ofSource "(a, b) => c")
        fun _ _ => True) ∧
    ∃ c', lambdaAhead (.ofSource "(a, b) => c") = .ok true c' ∧
      ∃ queue, c'.ahead = pairHeader ++ queue ∧ ∀ sub,
        lambda sub c' = (do return .lambda ⟨["a", "b"], ← sub.statement, ⟨1, 1⟩⟩ :
          Parse Expression) ⟨queue, c'.stream⟩ ∧
        ∀ lapse, functionWith (parametersOr lapse) sub c' = lambda sub c' := by
  generalize hc : Cursor.ofSource "(a, b) => c" = c
  have hview : c.upcoming =
      pairHeader ++ (⟨[⟨.identifier, .text "c", ⟨1, 11⟩, 1⟩], .ok ⟨1, 12⟩⟩ : View) := by
    rw [← hc]
    cbv
  have hheader : Header pairHeader ["a", "b"] :=
    .header rfl (.some (.more (.name rfl) rfl (.last (.name rfl)))) rfl rfl
  have hbegins : pairHeader <+: c.upcoming.tokens := by
    rw [hview]
    exact List.prefix_append _ _
  obtain ⟨hends, hlaws⟩ := lambda_lookahead (c := c) (by rw [hview]; rfl) rfl
  refine ⟨fun turns hload => hends turns _ hc hload, ?_⟩
  cases hresult : lambdaAhead c with
  | error e c' =>
    rw [hresult, hview] at hlaws
    cases hlaws
  | ok found c' =>
    rw [hresult] at hlaws
    obtain ⟨-, -, hfound, hread⟩ := hlaws
    obtain rfl := hfound.mpr ⟨_, _, hheader, hbegins⟩
    exact ⟨c', rfl, hread _ _ hheader hbegins⟩

end Grammar

end Lumen
