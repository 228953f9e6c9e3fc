import Lumen.Proofs.Eval.Pairing

/-! What code is made of, and what it may do.

A break leaves the loop around it, and which loop that is shows in the tree: the breaks that stand
in no loop of their function can be listed (`Statement.strayBreaks`). Where errors are raised shows
in the tree too, for an error has the place of a node, and one that a native raises without a place
has that of the call that ran into it.

A `Policy` says where the nodes and the stray breaks of some code may stand, and which errors the
code and the natives may then raise. A machine fits the policy if it reaches no closures but those
of such code, and what is done to names and scopes keeps it so. -/
namespace Lumen

/-! ### Breaks outside of loops -/

mutual

/-- The places of the breaks that stand in no loop of their function: neither in the guard nor in
the body of one. `looped` says whether the statement itself stands in a loop. -/
def Statement.strayBreaks (looped : Bool) : Statement → List Position
  | .bind _ _ value _ => value.strayBreaks looped
  | .condition branches none _ => strayBreaksOfBranches looped branches
  | .condition branches (some otherwise) _ =>
    strayBreaksOfBranches looped branches ++ otherwise.strayBreaks looped
  | .loop guard body _ => guard.strayBreaks true ++ body.strayBreaks true
  | .breakOut none position => if looped then [] else [position]
  | .breakOut (some value) position =>
    value.strayBreaks looped ++ if looped then [] else [position]
  | .expression e => e.strayBreaks looped

def Expression.strayBreaks (looped : Bool) : Expression → List Position
  | .binary _ left right _ => left.strayBreaks looped ++ right.strayBreaks looped
  | .negate operand _ => operand.strayBreaks looped
  | .constant _ _ => []
  | .reference _ _ => []
  | .block b => b.strayBreaks looped
  | .lambda f => f.strayBreaks
  | .call callee arguments _ =>
    callee.strayBreaks looped ++ strayBreaksOfArguments looped arguments

def Block.strayBreaks (looped : Bool) : Block → List Position
  | ⟨statements, _⟩ => strayBreaksOfStatements looped statements

/-- The body of a function stands in no loop, wherever the function does. -/
def Lambda.strayBreaks : Lambda → List Position
  | ⟨_, body, _⟩ => body.strayBreaks false

def strayBreaksOfStatements (looped : Bool) : List Statement → List Position
  | [] => []
  | s :: rest => s.strayBreaks looped ++ strayBreaksOfStatements looped rest

def strayBreaksOfBranches (looped : Bool) : List Branch → List Position
  | [] => []
  | ⟨guard, body⟩ :: rest =>
    guard.strayBreaks looped ++ body.strayBreaks looped ++ strayBreaksOfBranches looped rest

def strayBreaksOfArguments (looped : Bool) : List Expression → List Position
  | [] => []
  | e :: rest => e.strayBreaks looped ++ strayBreaksOfArguments looped rest

end

def Function.strayBreaks : Function → List Position
  | .lambda f => f.strayBreaks
  | .native _ => []

/-! ### Errors -/

/-- A cause that a node of a tree or a call raises by itself, at its own place. -/
def RuntimeCause.IsOrdinary : RuntimeCause → Prop
  | strayBreak => False
  | other _ => False
  | _ => True

/-- The error of an ordinary cause at `p`. -/
def Error.IsOrdinaryAt (p : Position) : Error → Prop
  | .runtime q cause => q = p ∧ cause.IsOrdinary
  | _ => False

/-- If it fails, then for an ordinary cause at `p`. -/
def FailsAt {α : Type} (p : Position) (Q : α → Prop) : Except Error α → Prop
  | .ok a => Q a
  | .error e => e.IsOrdinaryAt p

/-- No closure, or one that is `Known`. -/
def Value.Over (Known : Closure → Prop) : Value → Prop
  | .closure c => Known c
  | _ => True

theorem Literal.over {Known : Closure → Prop} (l : Literal) : l.value.Over Known := by
  cases l <;> trivial

namespace FailsAt
variable {α β : Type} {p : Position} {Q : α → Prop} {R : β → Prop}

theorem bind {r : Except Error α} {f : α → Except Error β} (h : FailsAt p Q r)
    (hf : ∀ a, Q a → FailsAt p R (f a)) : FailsAt p R (r >>= f) := by
  cases r with
  | ok a => exact hf a h
  | error e => exact h

theorem toBoolean (v : Value) : FailsAt p (fun _ => True) (v.toBoolean p) := by
  cases v with
  | closure c => exact ⟨rfl, trivial⟩
  | _ => trivial

theorem toInteger (v : Value) : FailsAt p (fun _ => True) (v.toInteger p) := by
  cases v with
  | closure c => exact ⟨rfl, trivial⟩
  | text s => exact ⟨rfl, trivial⟩
  | _ => trivial

theorem toText (v : Value) : FailsAt p (fun _ => True) (v.toText p) := by
  cases v with
  | closure c => exact ⟨rfl, trivial⟩
  | _ => trivial

/-- A result of two operands as texts. -/
theorem texts (l r : Value) {f : String → String → Except Error β}
    (hf : ∀ s t, FailsAt p R (f s t)) :
    FailsAt p R (do f (← l.toText p) (← r.toText p)) :=
  (toText l).bind fun s _ => (toText r).bind fun t _ => hf s t

/-- A result of two operands as integers. -/
theorem integers (l r : Value) {f : Int32 → Int32 → Except Error β}
    (hf : ∀ m n, FailsAt p R (f m n)) :
    FailsAt p R (do f (← l.toInteger p) (← r.toInteger p)) :=
  (toInteger l).bind fun m _ => (toInteger r).bind fun n _ => hf m n

theorem equals (l r : Value) : FailsAt p (fun _ => True) (l.equals p r) := by
  unfold Value.equals
  split
  · trivial
  · trivial
  · trivial
  · split
    · exact texts l r fun _ _ => trivial
    · exact integers l r fun _ _ => trivial

theorem less (l r : Value) : FailsAt p (fun _ => True) (l.less p r) := by
  unfold Value.less
  split
  · exact texts l r fun _ _ => trivial
  · exact integers l r fun _ _ => trivial

variable {Known : Closure → Prop}

theorem arithmetic (l r : Value) {f : Int32 × Int32 → Except Error Value}
    (hf : ∀ m n, FailsAt p (Value.Over Known) (f (m, n))) :
    FailsAt p (Value.Over Known) (Value.integers p l r >>= f) :=
  (integers (f := fun m n => .ok (m, n)) (R := fun _ => True) l r fun _ _ => trivial).bind
    fun mn _ => hf mn.1 mn.2

theorem plus (l r : Value) : FailsAt p (Value.Over Known) (l.plus p r) := by
  unfold Value.plus
  split
  · exact texts l r fun _ _ => trivial
  · exact arithmetic l r fun _ _ => trivial

theorem truth {r : Except Error Bool} (h : FailsAt p (fun _ => True) r) (f : Bool → Bool) :
    FailsAt p (Value.Over Known) ((fun b => .boolean (f b)) <$> r) := by
  cases r with
  | ok b => trivial
  | error e => exact h

theorem binary (operator : Operator) (l r : Value) :
    FailsAt p (Value.Over Known) (Value.binary operator l r p) := by
  cases operator with
  | equal => exact (equals l r).truth id
  | notEqual => exact (equals l r).truth not
  | less => exact (less l r).truth id
  | greater => exact (less r l).truth id
  | lessEqual => exact (less r l).truth not
  | greaterEqual => exact (less l r).truth not
  | add => exact plus l r
  | subtract => exact arithmetic l r fun _ _ => trivial
  | multiply => exact arithmetic l r fun _ _ => trivial
  | divide =>
    refine arithmetic l r fun m n => ?_
    dsimp only
    split
    · exact ⟨rfl, trivial⟩
    · trivial
  | or => exact ⟨rfl, trivial⟩
  | and => exact ⟨rfl, trivial⟩
  | nullCoalescing => exact ⟨rfl, trivial⟩

theorem negate (v : Value) : FailsAt p (Value.Over Known) (v.negate p) := by
  cases v with
  | integer n => trivial
  | boolean b => trivial
  | _ => exact ⟨rfl, trivial⟩

end FailsAt

/-! ### Policies -/

/-- Errors in `err` may come from a call at `p`: the call may fail by itself, or pass on an error of
the code that it runs, or one of a native that it gives the place `p` unless it has one. -/
structure Blames (raised passed err : Error → Prop) (p : Position) : Prop where
  ordinary : ∀ e, e.IsOrdinaryAt p → err e
  raised : ∀ e, raised e → err e
  passed : ∀ e, passed e → err (e.locatedAt p)

/-- What code may be made of, and what it may do then. -/
structure Policy where
  /-- The scopes that it may reach are those from here on. -/
  base : ScopeId
  /-- Where its nodes may stand. -/
  place : Position → Prop
  /-- Where its breaks may stand that are in no loop. -/
  stray : Position → Prop
  /-- Where natives may say that they call from. -/
  asked : Position → Prop
  /-- What natives may keep. -/
  kept : Value → Prop
  /-- The errors that code may raise. -/
  raised : Error → Prop
  /-- The errors that natives may raise, and that they may get to see. -/
  passed : Error → Prop
  /-- A stray break ends its function with an error. -/
  strayed {p : Position} : place p → stray p → raised (.runtime p .strayBreak)
  /-- Code calls from where its nodes stand. -/
  code {p : Position} : place p → Blames raised passed raised p
  /-- Natives get to see the errors of what they call. -/
  native {p : Position} : asked p → Blames raised passed passed p

namespace Policy
variable {P : Policy}

/-- A function with its nodes and its stray breaks where they may stand. -/
structure Code (P : Policy) (f : Function) : Prop where
  places : f.Alike (fun p _ => P.place p) f
  strays : ∀ p ∈ f.strayBreaks, P.stray p

theorem code_native (n : NativeRef) : P.Code (.native n) := ⟨.native n, List.forall_mem_nil _⟩

/-- A closure of such a function over a scope that may be reached. -/
structure Known (P : Policy) (c : Closure) : Prop where
  function : P.Code c.function
  captured : P.base ≤ c.captured

abbrev Knows (P : Policy) : Value → Prop := Value.Over P.Known

/-- Bindings of values that are known. -/
def Bound (P : Policy) (bs : Bindings) : Prop := ∀ b ∈ bs, P.Knows b.2

/-- The scopes from `base` on lead to each other only, and to code that is known. -/
structure Stored (P : Policy) (s : Store) : Prop where
  size : P.base ≤ s.scopes.size
  parent : ∀ i scope, P.base ≤ i → s.scopes[i]? = some scope → ∀ p ∈ scope.parent, P.base ≤ p
  bound : ∀ i scope, P.base ≤ i → s.scopes[i]? = some scope → P.Bound scope.bindings

/-- A machine on which only scopes that may be reached are active, and only values are kept that
may be. -/
structure Fits (P : Policy) (m : Machine) : Prop where
  store : P.Stored m.store
  stack : ∀ id ∈ m.stack, P.base ≤ id
  kept : ∀ v ∈ m.kept, P.kept v

/-! ### Scopes -/

section Bound
variable {bs : Bindings} (h : P.Bound bs) (name : String)
include h

theorem Bound.find? {v : Value} (hv : bs.find? name = some v) : P.Knows v := by
  induction bs with
  | nil => cases hv
  | cons b bs ih =>
    obtain ⟨hb, hbs⟩ := List.forall_mem_cons.mp h
    obtain ⟨n, w⟩ := b
    by_cases hn : n = name
    · simp only [Bindings.find?, hn, if_true, Option.some.injEq] at hv
      exact hv ▸ hb
    · simp only [Bindings.find?, hn, if_false] at hv
      exact ih hbs hv

theorem Bound.insert {v : Value} (hv : P.Knows v) : P.Bound (bs.insert name v) := by
  induction bs with
  | nil => exact List.forall_mem_singleton.mpr hv
  | cons b bs ih =>
    obtain ⟨hb, hbs⟩ := List.forall_mem_cons.mp h
    obtain ⟨n, w⟩ := b
    by_cases hn : n = name
    · simp only [Bindings.insert, hn, if_true]
      exact List.forall_mem_cons.mpr ⟨hv, hbs⟩
    · simp only [Bindings.insert, hn, if_false]
      exact List.forall_mem_cons.mpr ⟨hb, ih hbs⟩

end Bound

theorem Bound.ofArguments (parameters : List String) {vs : List Value}
    (h : ∀ v ∈ vs, P.Knows v) : P.Bound (.ofArguments parameters vs) := by
  have hfold : ∀ bs : Bindings, P.Bound bs →
      P.Bound ((parameters.zip vs).foldl (fun bs b => bs.insert b.1 b.2) bs) := by
    induction vs generalizing parameters with
    | nil => simp
    | cons v vs ih =>
      intro bs hbs
      obtain ⟨hv, hvs⟩ := List.forall_mem_cons.mp h
      cases parameters with
      | nil => exact hbs
      | cons name parameters => exact ih parameters hvs _ (hbs.insert name hv)
  exact hfold [] (List.forall_mem_nil _)

namespace Stored
variable {s : Store} (h : P.Stored s)
include h

theorem add {scope : Scope} (hparent : ∀ p ∈ scope.parent, P.base ≤ p)
    (hbound : P.Bound scope.bindings) : P.Stored (s.add scope).2 := by
  have hold : ∀ (i : ScopeId) (scope' : Scope), (s.add scope).2.scopes[i]? = some scope' →
      scope' = scope ∨ s.scopes[i]? = some scope' := by
    intro i scope' hscope
    simp only [Store.add, Array.getElem?_push] at hscope
    split at hscope
    · exact .inl (Option.some.inj hscope).symm
    · exact .inr hscope
  refine ⟨Nat.le_trans h.size (by simp [Store.add]), fun i scope' hi hscope => ?_,
    fun i scope' hi hscope => ?_⟩
  · obtain rfl | hscope := hold i scope' hscope
    · exact hparent
    · exact h.parent i scope' hi hscope
  · obtain rfl | hscope := hold i scope' hscope
    · exact hbound
    · exact h.bound i scope' hi hscope

theorem root : P.Stored s.root.2 := h.add nofun (List.forall_mem_nil _)

theorem declare (id : ScopeId) (name : String) {v : Value} (hv : P.Knows v) :
    P.Stored (s.declare id name v) := by
  have hold : ∀ (i : ScopeId) (scope : Scope), (s.declare id name v).scopes[i]? = some scope →
      ∃ old : Scope, s.scopes[i]? = some old ∧ scope.parent = old.parent ∧
        (scope.bindings = old.bindings ∨ scope.bindings = old.bindings.insert name v) := by
    intro i scope hscope
    simp only [Store.declare, Array.getElem?_modify] at hscope
    split at hscope
    · obtain ⟨old, hold, rfl⟩ := Option.map_eq_some_iff.mp hscope
      exact ⟨old, hold, rfl, .inr rfl⟩
    · exact ⟨scope, hscope, rfl, .inl rfl⟩
  refine ⟨by simpa [Store.declare] using h.size, fun i scope hi hscope => ?_,
    fun i scope hi hscope => ?_⟩
  · obtain ⟨old, hscope, hparent, _⟩ := hold i scope hscope
    rw [hparent]
    exact h.parent i old hi hscope
  · obtain ⟨old, hscope, _, hbindings⟩ := hold i scope hscope
    have hbound := h.bound i old hi hscope
    obtain heq | heq := hbindings
    · exact heq ▸ hbound
    · exact heq ▸ hbound.insert name hv

theorem lookup {id : ScopeId} (hid : P.base ≤ id) {name : String} {v : Value}
    (hv : s.lookup id name = some v) : P.Knows v := by
  induction id using Nat.strongRecOn with
  | ind id ih =>
    rw [Store.lookup] at hv
    split at hv
    · cases hv
    · next scope hscope =>
      split at hv
      · next w hw =>
        obtain rfl := Option.some.inj hv
        exact (h.bound id scope hid hscope).find? name hw
      · split at hv
        · cases hv
        · next parent hparent =>
          split at hv
          · next hlt => exact ih parent hlt (h.parent id scope hid hscope parent hparent) hv
          · cases hv

theorem update {id : ScopeId} (hid : P.base ≤ id) (name : String) {change : Value → Value}
    (hchange : ∀ v, P.Knows v → P.Knows (change v)) :
    (∀ v, (Store.update id name change s).1 = some v → P.Knows v) ∧
      P.Stored (Store.update id name change s).2 := by
  have hnone : ∀ v, (none : Option Value) = some v → P.Knows v := by
    intro v hv
    cases hv
  induction id using Nat.strongRecOn with
  | ind id ih =>
    rw [Store.update]
    split
    · exact ⟨hnone, h⟩
    · next scope hscope =>
      split
      · next w hw =>
        have hnew := hchange w ((h.bound id scope hid hscope).find? name hw)
        exact ⟨fun v hv => Option.some.inj hv ▸ hnew, h.declare id name hnew⟩
      · split
        · exact ⟨hnone, h⟩
        · next parent hparent =>
          split
          · next hlt => exact ih parent hlt (h.parent id scope hid hscope parent hparent)
          · exact ⟨hnone, h⟩

end Stored

end Policy

end Lumen
