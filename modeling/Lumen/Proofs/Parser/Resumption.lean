import Lumen.Proofs.Parser.Mirrors

/-! Calling a parser again and again.

Production by production, the recorded parser does what the parser does (`Tracks`), with as many
turns for each loop as there are tokens left before the end of text. A loop that goes on has taken
a token, or has gone past one that was looked at: where only ends of text are left some production
fails, and that ends the loop. Recursion ends because every call of a part by itself goes one
level deeper, and there are `maxNesting` levels.

So calls of one parser that follow one another, also after failures, all end, each back at the level
where it began, and lose no token and read none twice (`Parser.resumption`). -/
namespace Lumen
open Parse (Progress)
open Token (Kind)

namespace Recorded
variable {α β : Type} {turns depth : Nat} {w : Recorded α} {m : Parse α} {h h' : History}

/-- There are more turns than tokens left before the end of text, and so many nested parts are
being read. -/
structure Ready (turns depth : Nat) (h : History) : Prop where
  load : h.cursor.load 0 < turns
  depth : h.now.depth = depth

theorem Ready.leads (hr : Ready turns depth h) (hleads : h.LeadsTo h') : Ready turns depth h' :=
  ⟨Nat.lt_of_le_of_lt hleads.load hr.load, hleads.depth.trans hr.depth⟩

/-- Wherever a recorded reading is ready, it does what a reading does. -/
def Tracks (turns depth : Nat) (w : Recorded α) (m : Parse α) : Prop :=
  ∀ h, Ready turns depth h → Mirrors turns w m h fun _ _ => True

namespace Tracks

theorem pure (a : α) : Tracks turns depth (Pure.pure a) (Pure.pure a) := fun _ _ => .pure trivial

theorem fail (e : Error) : Tracks turns depth (fail e : Recorded α) (throw e) := fun _ _ => .fail e

theorem bind {f : α → Recorded β} {g : α → Parse β} (hw : Tracks turns depth w m)
    (hf : ∀ a, Tracks turns depth (f a) (g a)) : Tracks turns depth (w >>= f) (m >>= g) :=
  fun h hr => .bind (hw h hr) fun a h' hleads _ => hf a h' (hr.leads hleads)

theorem peek (n : Nat) : Tracks turns depth (peek n) (Parse.peek n) :=
  fun _ hr => (mirrors_peek hr.load n).mono fun _ _ _ _ => trivial

theorem peekKind (n : Nat) : Tracks turns depth (peekKind n) (Parse.peekKind n) :=
  fun _ hr => (mirrors_peekKind hr.load n).mono fun _ _ _ _ => trivial

theorem advance : Tracks turns depth advance Parse.advance :=
  fun _ hr => (mirrors_advance hr.load).mono fun _ _ _ _ => trivial

theorem unexpected (what : Expectation) :
    Tracks turns depth (unexpected what : Recorded α) (Parse.unexpected what) :=
  fun _ hr => mirrors_unexpected hr.load what

theorem expect (kind : Kind) (what : Expectation) :
    Tracks turns depth (expect kind what) (Parse.expect kind what) := by
  refine .bind (.peekKind 0) fun kind => ?_
  split
  · exact .advance
  · exact .unexpected what

theorem skip (kind : Kind) : Tracks turns depth (skip kind) (Parse.skip kind) := by
  refine .bind (.peekKind 0) fun kind => ?_
  split
  · exact .bind .advance fun _ => .pure _
  · exact .pure _

end Tracks

/-! ### Repetition -/

/-- A step of a loop leaves less to do if it leads to another one. -/
def Shrinks (size : α → Cursor → Nat) (a : α) (h : History) (next : Progress α β) (h' : History) :
    Prop := ∀ a', next = .more a' → size a' h'.cursor < size a h.cursor

section Loops
variable {giveUp : α → β} {step : α → Recorded (Progress α β)} {step' : α → Parse (Progress α β)}

/-- Two loops that have more turns left than there is to do. -/
theorem mirrors_repeatUpTo {size : α → Cursor → Nat}
    (hstep : ∀ a h, Ready turns depth h → Mirrors turns (step a) (step' a) h (Shrinks size a h))
    {left limit : Nat} {a : α} (hr : Ready turns depth h) (hleft : size a h.cursor < left)
    (hlimit : size a h.cursor < limit) :
    Mirrors turns (repeatUpTo step left a) (Parse.repeatUpTo giveUp step' limit a) h
      fun _ _ => True := by
  induction left generalizing limit a h with
  | zero => cases hleft
  | succ left ih =>
    obtain ⟨limit, rfl⟩ := Nat.exists_eq_succ_of_ne_zero (Nat.ne_zero_of_lt hlimit)
    refine .bind (hstep a h hr) fun next h' hleads hshrinks => ?_
    cases next with
    | done b => exact .pure trivial
    | more a' =>
      have hlt := hshrinks a' rfl
      exact ih (hr.leads hleads) (by omega) (by omega)

/-- A loop has as many turns as it needs if every one of them leaves less to do. -/
theorem Tracks.iterate (size : α → Cursor → Nat) (hsize : ∀ a c, size a c ≤ c.load 0)
    (hstep : ∀ a h, Ready turns depth h → Mirrors turns (step a) (step' a) h (Shrinks size a h))
    (a : α) : Tracks turns depth (iterate step a) (Parse.iterate giveUp step' a) := by
  intro h hr
  have hle := hsize a h.cursor
  have hlimit : size a h.cursor < h.cursor.size + 1 :=
    Nat.lt_succ_of_le (Nat.le_trans hle h.cursor.load_le_size)
  exact (mirrors_repeatUpTo hstep hr (Nat.lt_of_le_of_lt hle hr.load) hlimit).of_eq rfl rfl

/-- A loop has as many turns as it needs if every one of them takes a token. -/
theorem Tracks.iterate_taking
    (hstep : ∀ a h, Ready turns depth h →
      Mirrors turns (step a) (step' a) h (Shrinks (fun _ c => c.load 0) a h)) (a : α) :
    Tracks turns depth (Recorded.iterate step a) (Parse.iterate giveUp step' a) :=
  .iterate _ (fun _ _ => Nat.le_refl _) hstep a

end Loops

theorem mirrors_done {size : α → Cursor → Nat} {a : α} {h₀ : History} (b : β) :
    Mirrors turns (Pure.pure (.done b)) (Pure.pure (.done b)) h (Shrinks size a h₀) := .pure nofun

theorem mirrors_more {a : α} {h₀ : History} (hlt : h.cursor.load 0 < h₀.cursor.load 0) (a' : α) :
    Mirrors turns (Pure.pure (.more a' : Progress α β)) (Pure.pure (.more a')) h
      (Shrinks (fun _ c => c.load 0) a h₀) := .pure fun _ _ => hlt

/-- Takes the token that has just been looked at. -/
theorem mirrors_taking {kind : Kind} {h₀ : History} (hr : Ready turns depth h)
    (hle : h.cursor.load 0 ≤ h₀.cursor.load 0)
    (hkind : ∃ t, h.now.ahead[0]? = some t ∧ t.kind = kind) (hproper : kind ≠ .endOfText) :
    Mirrors turns advance Parse.advance h fun _ h' => h'.cursor.load 0 < h₀.cursor.load 0 := by
  obtain ⟨t, ht, rfl⟩ := hkind
  exact (mirrors_advance hr.load).mono fun _ _ _ hlt => Nat.lt_of_lt_of_le (hlt t ht hproper) hle

theorem mirrors_expect {kind : Kind} (hr : Ready turns depth h) (hproper : kind ≠ .endOfText)
    (what : Expectation) :
    Mirrors turns (expect kind what) (Parse.expect kind what) h fun _ h' =>
      h'.cursor.load 0 < h.cursor.load 0 := by
  refine .bind (mirrors_peekKind hr.load 0) fun found h₁ hleads hfound => ?_
  split
  next hkind => exact mirrors_taking (hr.leads hleads) hleads.load hfound.1 (hkind ▸ hproper)
  next => exact mirrors_unexpected (hr.leads hleads).load what

/-! ### Productions -/

/-- The nested parts of a recorded production track those of a production. -/
structure Layers.Track (turns depth : Nat) (sub : Layers) (sub' : Grammar.Layers) : Prop where
  statement : Tracks turns depth sub.statement sub'.statement
  expression : Tracks turns depth sub.expression sub'.expression
  unary : Tracks turns depth sub.unary sub'.unary

section Productions
variable {sub : Layers} {sub' : Grammar.Layers} (hsub : sub.Track turns depth sub')
include hsub

theorem tracks_sequence (closer : Kind) (lastNeedsSeparator : Bool) :
    Tracks turns depth (sequence sub closer lastNeedsSeparator)
      (Grammar.sequence sub' closer lastNeedsSeparator) := by
  refine .iterate_taking (fun statements h hr => ?_) []
  refine .bind (mirrors_peekKind hr.load 0) fun kind h₁ hleads₁ _ => ?_
  have hr₁ := hr.leads hleads₁
  split
  · exact mirrors_done _
  · refine .bind (hsub.statement h₁ hr₁) fun s h₂ hleads₂ _ => ?_
    have hr₂ := hr₁.leads hleads₂
    refine .bind (mirrors_peekKind hr₂.load 0) fun kind h₃ hleads₃ hkind => ?_
    have hr₃ := hr₂.leads hleads₃
    have hle := ((hleads₁.trans hleads₂).trans hleads₃).load
    split
    next hseparator =>
      refine .bind (mirrors_taking hr₃ hle hkind.1 (hseparator ▸ nofun)) fun _ h₄ _ hlt => ?_
      exact mirrors_more hlt _
    next =>
      split
      · exact mirrors_done _
      · exact .bind (Tracks.peek 0 h₃ hr₃) fun _ _ _ _ => .fail _

theorem tracks_bindStatement (binding : Binding) :
    Tracks turns depth (bindStatement sub binding) (Grammar.bindStatement sub' binding) :=
  .bind .advance fun _ => .bind .advance fun _ => .bind hsub.statement fun _ => .pure _

theorem tracks_branch : Tracks turns depth (branch sub) (Grammar.branch sub') :=
  .bind hsub.statement fun _ => .bind hsub.statement fun _ => .pure _

theorem tracks_furtherBranches (first : Branch) :
    Tracks turns depth (furtherBranches sub first) (Grammar.furtherBranches sub' first) := by
  refine .iterate_taking (fun branches h hr => ?_) [first]
  refine .bind (mirrors_peekKind hr.load 0) fun kind h₁ hleads₁ hkind => ?_
  have hr₁ := hr.leads hleads₁
  split
  next helse =>
    refine .bind (mirrors_taking hr₁ hleads₁.load hkind.1 (helse ▸ nofun))
      fun _ h₂ hleads₂ hlt => ?_
    have hr₂ := hr₁.leads hleads₂
    refine .bind (Tracks.peekKind 0 h₂ hr₂) fun kind h₃ hleads₃ _ => ?_
    have hr₃ := hr₂.leads hleads₃
    split
    · refine .bind (Tracks.advance h₃ hr₃) fun _ h₄ hleads₄ _ => ?_
      refine .bind (tracks_branch hsub h₄ (hr₃.leads hleads₄)) fun _ h₅ hleads₅ _ => ?_
      have hle := ((hleads₃.trans hleads₄).trans hleads₅).load
      exact mirrors_more (Nat.lt_of_le_of_lt hle hlt) _
    · exact .bind (hsub.statement h₃ hr₃) fun _ _ _ _ => mirrors_done _
  next => exact mirrors_done _

theorem tracks_condition : Tracks turns depth (condition sub) (Grammar.condition sub') :=
  .bind (.expect _ _) fun _ => .bind (tracks_branch hsub) fun first =>
    .bind (tracks_furtherBranches hsub first) fun _ => .pure _

theorem tracks_loop : Tracks turns depth (loop sub) (Grammar.loop sub') :=
  .bind (.expect _ _) fun _ => .bind hsub.statement fun _ => .bind hsub.statement fun _ => .pure _

theorem tracks_breakOut : Tracks turns depth (breakOut sub) (Grammar.breakOut sub') := by
  refine .bind (.expect _ _) fun word => .bind (.peekKind 0) fun kind => ?_
  split
  · exact .pure _
  · exact .bind hsub.statement fun _ => .pure _

theorem tracks_statement : Tracks turns depth (statement sub) (Grammar.statement sub') := by
  refine .bind (.peekKind 0) fun kind => ?_
  cases kind with
  | ifWord => exact tracks_condition hsub
  | loopWord => exact tracks_loop hsub
  | breakWord => exact tracks_breakOut hsub
  | identifier =>
    refine .bind (.peekKind 1) fun kind => ?_
    cases Grammar.binding? kind with
    | some binding => exact tracks_bindStatement hsub binding
    | none => exact .bind hsub.expression fun _ => .pure _
  | _ => exact .bind hsub.expression fun _ => .pure _

theorem tracks_block : Tracks turns depth (block sub) (Grammar.block sub') :=
  .bind (.expect _ _) fun _ => .bind (tracks_sequence hsub _ _) fun _ =>
    .bind (.expect _ _) fun _ => .pure _

omit hsub in
/-- Every turn passes two tokens that have been looked at, so that less stands behind them. -/
theorem tracks_parametersAhead :
    Tracks turns depth parametersAhead Grammar.parametersAhead := by
  refine .iterate (fun index c => c.load index) Cursor.load_le (fun index h hr => ?_) 1
  refine .bind (mirrors_peekKind hr.load index) fun kind h₁ hleads₁ hfirst => ?_
  have hr₁ := hr.leads hleads₁
  split
  · refine .bind (mirrors_peekKind hr₁.load (index + 1)) fun kind h₂ hleads₂ hsecond => ?_
    obtain ⟨⟨t, ht, hkind⟩, hloads⟩ := hsecond
    cases kind with
    | comma =>
      refine .pure fun _ hmore => ?_
      obtain rfl := Progress.more.inj hmore
      calc h₂.cursor.load (index + 2)
        _ < h₂.cursor.load (index + 1) := Cursor.load_of_getElem? ht (hkind ▸ nofun)
        _ ≤ h₂.cursor.load index := Cursor.load_succ_le ..
        _ ≤ h₁.cursor.load index := hloads index
        _ ≤ h.cursor.load index := hfirst.2 index
    | parenClose =>
      exact .bind (Tracks.peekKind _ h₂ (hr₁.leads hleads₂)) fun _ _ _ _ => mirrors_done _
    | _ => exact mirrors_done _
  · exact mirrors_done _

omit hsub in
theorem tracks_lambdaAhead : Tracks turns depth lambdaAhead Grammar.lambdaAhead := by
  refine .bind (.peekKind 1) fun kind => ?_
  split
  · exact .bind (.peekKind 2) fun _ => .pure _
  · exact tracks_parametersAhead

omit hsub in
theorem tracks_parameters : Tracks turns depth parameters Grammar.parameters := by
  refine .iterate_taking (fun names h hr => ?_) []
  refine .bind (mirrors_peekKind hr.load 0) fun kind h₁ hleads₁ _ => ?_
  have hr₁ := hr.leads hleads₁
  split
  · exact mirrors_done _
  · have hproper : Kind.identifier ≠ .endOfText := nofun
    refine .bind (mirrors_expect hr₁ hproper _) fun name h₂ hleads₂ hlt => ?_
    refine .bind (Tracks.skip _ h₂ (hr₁.leads hleads₂)) fun _ h₃ hleads₃ _ => ?_
    exact mirrors_more (Nat.lt_of_le_of_lt hleads₃.load (Nat.lt_of_lt_of_le hlt hleads₁.load)) _

theorem tracks_lambda : Tracks turns depth (lambda sub) (Grammar.lambda sub') :=
  .bind (.expect _ _) fun _ => .bind tracks_parameters fun _ => .bind (.expect _ _) fun _ =>
    .bind (.expect _ _) fun _ => .bind hsub.statement fun _ => .pure _

theorem tracks_group : Tracks turns depth (group sub) (Grammar.group sub') :=
  .bind .advance fun _ => .bind hsub.expression fun _ => .bind (.expect _ _) fun _ => .pure _

omit hsub in
theorem tracks_constant : Tracks turns depth constant Grammar.constant :=
  .bind .advance fun _ => .pure _

theorem tracks_factor : Tracks turns depth (factor sub) (Grammar.factor sub') := by
  refine .bind (.peekKind 0) fun kind => ?_
  cases kind with
  | integer => exact tracks_constant
  | text => exact tracks_constant
  | boolean => exact tracks_constant
  | null => exact tracks_constant
  | identifier => exact .bind .advance fun _ => .pure _
  | braceOpen => exact .bind (tracks_block hsub) fun _ => .pure _
  | parenOpen =>
    refine .bind tracks_lambdaAhead fun found => ?_
    split
    · exact tracks_lambda hsub
    · exact tracks_group hsub
  | _ => exact .unexpected _

theorem tracks_arguments : Tracks turns depth (arguments sub) (Grammar.arguments sub') := by
  refine .bind (.peekKind 0) fun kind => ?_
  split
  · exact .pure _
  · refine .iterate_taking (fun given h hr => ?_) []
    refine .bind (hsub.expression h hr) fun e h₁ hleads₁ _ => ?_
    have hr₁ := hr.leads hleads₁
    refine .bind (mirrors_peekKind hr₁.load 0) fun kind h₂ hleads₂ hkind => ?_
    split
    next hcomma =>
      have hle := (hleads₁.trans hleads₂).load
      refine .bind (mirrors_taking (hr₁.leads hleads₂) hle hkind.1 (hcomma ▸ nofun))
        fun _ h₃ _ hlt => mirrors_more hlt _
    next => exact mirrors_done _

theorem tracks_call : Tracks turns depth (call sub) (Grammar.call sub') := by
  refine .bind (tracks_factor hsub) fun first => .iterate_taking (fun callee h hr => ?_) first
  refine .bind (mirrors_peekKind hr.load 0) fun kind h₁ hleads₁ hkind => ?_
  have hr₁ := hr.leads hleads₁
  split
  next hparen =>
    refine .bind (mirrors_taking hr₁ hleads₁.load hkind.1 (hparen ▸ nofun))
      fun _ h₂ hleads₂ hlt => ?_
    have hr₂ := hr₁.leads hleads₂
    refine .bind (tracks_arguments hsub h₂ hr₂) fun _ h₃ hleads₃ _ => ?_
    refine .bind (Tracks.expect _ _ h₃ (hr₂.leads hleads₃)) fun _ h₄ hleads₄ _ => ?_
    exact mirrors_more (Nat.lt_of_le_of_lt (hleads₃.trans hleads₄).load hlt) _
  next => exact mirrors_done _

theorem tracks_unary : Tracks turns depth (unary sub) (Grammar.unary sub') := by
  refine .bind (.peekKind 0) fun kind => ?_
  split
  · exact .bind .advance fun _ => .bind hsub.unary fun _ => .pure _
  · exact tracks_call hsub

omit hsub in
theorem tracks_leftChain {operand : Recorded Expression} {operand' : Parse Expression}
    (hoperand : Tracks turns depth operand operand') {operator? : Kind → Option Operator}
    (hproper : operator? .endOfText = none) :
    Tracks turns depth (leftChain operator? operand) (Grammar.leftChain operator? operand') := by
  refine .bind hoperand fun first => .iterate_taking (fun left h hr => ?_) first
  refine .bind (mirrors_peekKind hr.load 0) fun kind h₁ hleads₁ hkind => ?_
  have hr₁ := hr.leads hleads₁
  cases hoperator : operator? kind with
  | none => exact mirrors_done _
  | some operator =>
    have hkindProper : kind ≠ .endOfText := by
      rintro rfl
      cases hproper.symm.trans hoperator
    refine .bind (mirrors_taking hr₁ hleads₁.load hkind.1 hkindProper) fun _ h₂ hleads₂ hlt => ?_
    refine .bind (hoperand h₂ (hr₁.leads hleads₂)) fun _ h₃ hleads₃ _ => ?_
    exact mirrors_more (Nat.lt_of_le_of_lt hleads₃.load hlt) _

theorem tracks_coalescing : Tracks turns depth (coalescing sub) (Grammar.coalescing sub') :=
  tracks_leftChain (tracks_leftChain (tracks_leftChain (tracks_unary hsub) rfl) rfl) rfl

theorem tracks_comparison : Tracks turns depth (comparison sub) (Grammar.comparison sub') := by
  refine .bind (tracks_coalescing hsub) fun left => .bind (.peekKind 0) fun kind => ?_
  cases Kind.comparison? kind with
  | none => exact .pure _
  | some operator => exact .bind .advance fun _ => .bind (tracks_coalescing hsub) fun _ => .pure _

theorem tracks_disjunction : Tracks turns depth (disjunction sub) (Grammar.disjunction sub') :=
  tracks_leftChain (tracks_leftChain (tracks_comparison hsub) rfl) rfl

theorem tracks_program : Tracks turns depth (program sub) (Grammar.program sub') :=
  .bind (.peek 0) fun _ => .bind (tracks_sequence hsub _ _) fun _ => .pure _

end Productions

/-! ### Nesting -/

theorem tracks_tooDeep : Tracks turns depth (tooDeep : Recorded α) Grammar.tooDeep :=
  .bind (.peek 0) fun _ => .fail _

/-- With no level left, a nested part is not begun. -/
theorem tracks_full {limit : Nat} {part : Recorded α} (hfull : limit ≤ depth) :
    Tracks turns depth (nested limit part) Grammar.tooDeep := by
  intro h hr
  refine (tracks_tooDeep h hr).of_eq ?_ rfl
  rw [nested, if_pos (hr.depth ▸ hfull)]

theorem leadsTo_leave (hleads : h.enter.LeadsTo h') : h.LeadsTo h'.leave := by
  refine ⟨?_, hleads.load, fun source hb => (hleads.balanced source hb.enter).leave⟩
  show h'.now.depth - 1 = h.now.depth
  rw [hleads.depth]
  rfl

theorem nested_of_room {limit : Nat} (hroom : h.now.depth < limit) (part : Recorded α)
    (turns : Nat) : nested limit part turns h = match part turns h.enter with
      | .ok a h => .ok a h.leave
      | .error halt h => .error halt h.leave := if_neg (Nat.not_le.mpr hroom)

/-- A nested part is read one level deeper, and left again however it ends. -/
theorem tracks_nested {limit : Nat} {part : Recorded α} (hroom : depth < limit)
    (hpart : Tracks turns (depth + 1) part m) : Tracks turns depth (nested limit part) m := by
  intro h hr
  have hready : Ready turns (depth + 1) h.enter := ⟨hr.load, congrArg (· + 1) hr.depth⟩
  have hnested := nested_of_room (show h.now.depth < limit from hr.depth ▸ hroom) part turns
  cases hpart h.enter hready with
  | ok hw hm hleads =>
    rw [hw] at hnested
    exact .ok hnested hm (leadsTo_leave hleads) trivial
  | failed hw hm hleads =>
    rw [hw] at hnested
    exact .failed hnested hm (leadsTo_leave hleads)

/-- The recursion has as many turns as it needs if there are more of them than levels left. -/
theorem track_layers {limit levels left : Nat} (hlevels : limit - depth = levels)
    (hleft : levels < left) : (layers limit left).Track turns depth (Grammar.layers levels) := by
  induction left generalizing depth levels with
  | zero => cases hleft
  | succ left ih =>
    cases levels with
    | zero =>
      have hfull : limit ≤ depth := Nat.le_of_sub_eq_zero hlevels
      exact ⟨tracks_full hfull, tracks_full hfull, tracks_full hfull⟩
    | succ levels =>
      have hroom : depth < limit := by omega
      have hbelow : limit - (depth + 1) = levels := by omega
      have hsub := ih hbelow (Nat.lt_of_succ_lt_succ hleft)
      exact ⟨tracks_nested hroom (tracks_statement hsub),
        tracks_nested hroom (tracks_disjunction hsub), tracks_nested hroom (tracks_unary hsub)⟩

end Recorded

/-! ### Calls -/

namespace Parser
open Recorded

theorem tracks_record {turns : Nat} (hturns : maxNesting < turns) (call : Call) :
    Tracks turns 0 call.record call.answer := by
  intro h hr
  have hsub : (layers maxNesting turns).Track turns 0 (Grammar.layers maxNesting) :=
    track_layers (Nat.sub_zero _) hturns
  -- The record reads the number of its turns before it begins.
  cases call with
  | program =>
    exact (Tracks.bind (tracks_program hsub) (fun b => .pure (.block b)) h hr).of_eq rfl rfl
  | expression =>
    exact (Tracks.bind hsub.expression (fun e => .pure (.expression e)) h hr).of_eq rfl rfl
  | block => exact (Tracks.bind (tracks_block hsub) (fun b => .pure (.block b)) h hr).of_eq rfl rfl

/-- One call after the other, the recorded parser does what the parser does. -/
theorem inTurn_record {turns : Nat} (hturns : maxNesting < turns) (calls : List Call) {h : History}
    (hr : Ready turns 0 h) :
    (inTurn (·.record turns) calls h).map (fun (r, h') => (r, h'.cursor)) =
        (inTurn (·.answer) calls h.cursor).map (fun (r, c) => (r.mapError .failed, c)) ∧
      ∀ r ∈ inTurn (·.record turns) calls h, h.LeadsTo r.2 := by
  induction calls generalizing h with
  | nil => exact ⟨rfl, fun _ hmem => absurd hmem List.not_mem_nil⟩
  | cons call calls ih =>
    have hothers : ∀ (r : Except Error Answer) {h' : History}, h.LeadsTo h' →
        ((r.mapError .failed, h') :: inTurn (·.record turns) calls h').map
              (fun (r, h') => (r, h'.cursor)) =
            ((r, h'.cursor) :: inTurn (·.answer) calls h'.cursor).map
              (fun (r, c) => (r.mapError .failed, c)) ∧
          ∀ x ∈ (r.mapError .failed, h') :: inTurn (·.record turns) calls h', h.LeadsTo x.2 := by
      intro r h' hleads
      obtain ⟨hsame, hall⟩ := ih (hr.leads hleads)
      refine ⟨congrArg (List.cons _) hsame, List.forall_mem_cons.mpr ⟨hleads, fun x hx => ?_⟩⟩
      exact hleads.trans (hall x hx)
    rw [inTurn, inTurn]
    cases tracks_record hturns call h hr with
    | @ok a h' hw hm hleads =>
      rw [hw, hm]
      exact hothers (.ok a) hleads
    | @failed e h' hw hm hleads =>
      rw [hw, hm]
      exact hothers (.error e) hleads

theorem ready_ofSource {source : String} {turns : Nat} (h : (scan source).length < turns) :
    Ready turns 0 (.ofSource source) := by
  refine ⟨?_, rfl⟩
  show 0 + ((Lexer.ofSource source).drain (scan source).length).length < turns
  rw [Nat.zero_add]
  exact Nat.lt_of_le_of_lt (Lexer.length_drain_le _ _) h

/-- **A parser can be called again and again**, whatever the calls before came to. With more turns
than items and levels no call gets stuck: each of them comes to what it comes to without a record,
and leaves the cursor that it leaves there. It comes back from all nested parts. And at every
moment of its work, the tokens taken so far and those in the queue are what the lexer has returned
so far, the comments left out. -/
theorem resumption {source : String} {turns : Nat}
    (hturns : (scan source).length + maxNesting < turns) (calls : List Call) :
    (inTurn (·.record turns) calls (.ofSource source)).map (fun (r, h) => (r, h.cursor)) =
        (inTurn (·.answer) calls (.ofSource source)).map (fun (r, c) => (r.mapError .failed, c)) ∧
      ∀ r ∈ inTurn (·.record turns) calls (.ofSource source), r.2.now.depth = 0 ∧
        ∀ m ∈ r.2.moments, m.Balanced source := by
  have hready : Ready turns 0 (.ofSource source) := ready_ofSource (by omega)
  obtain ⟨hsame, hall⟩ := inTurn_record (show maxNesting < turns by omega) calls hready
  refine ⟨hsame, fun r hr => ⟨(hall r hr).depth, (hall r hr).balanced source ?_⟩⟩
  exact List.forall_mem_singleton.mpr (Moment.balanced_ofSource source)

/-- A failure of the lexer is met while a name is looked at, which the next call finds again. -/
theorem resumption_sameName :
    (inTurn (·.answer) [.program, .program] (.ofSource "x ?y;")).map (·.1) =
        [.error (.lex ⟨1, 3⟩ (.unexpected '?')),
          .ok (.block ⟨[.expression (.reference "x" ⟨1, 1⟩)], ⟨1, 1⟩⟩)] ∧
      ∀ r ∈ inTurn (·.record 70) [.program, .program] (.ofSource "x ?y;"), r.2.now.depth = 0 ∧
        ∀ m ∈ r.2.moments, m.Balanced "x ?y;" := by
  have hturns : (scan "x ?y;").length + maxNesting < 70 := by decide
  exact ⟨by rfl, (resumption hturns [.program, .program]).2⟩

end Parser

end Lumen
