import Lumen.Eval.Machine
import Lumen.Proofs.SideBySide
import Lumen.Proofs.Syntax.Alike

/-! Machines of two evaluations.

Two evaluations that correspond may differ in places, in the scopes that were active when they
began, in scopes that neither of them can reach, in what the natives keep, and in what had been made
and written before, so that the numbers of scopes and closures are larger on one side. A `Pairing`
says how: which places may stand for each other, which scopes both share and how their numbers are
shifted, how what is kept corresponds, and what the two began with. It relates values (closures by
number, and their functions up to places), scopes, stores and machines. The operations on values,
names and scopes keep these relations, so that what is left for evaluation is to put them
together. -/
namespace Lumen

/-- The same native, or functions that a program defines alike. -/
inductive Function.Alike (P : Position → Position → Prop) : Function → Function → Prop
  | lambda {f f' : Lambda} : f.Alike P f' → Alike P (.lambda f) (.lambda f')
  | native (n : NativeRef) : Alike P (.native n) (.native n)

namespace Function.Alike
variable {P : Position → Position → Prop} {f f' : Function}

theorem parameters (h : f.Alike P f') : f.parameters = f'.parameters := by
  cases h with
  | lambda hf => exact hf.parameters
  | native n => rfl

theorem display (h : f.Alike P f') : f.display = f'.display := by
  cases h with
  | lambda hf => rw [Function.display, Function.display, hf.parameters]
  | native n => rfl

theorem self (hP : ∀ p, P p p) (f : Function) : f.Alike P f := by
  cases f with
  | lambda f =>
    obtain ⟨parameters, body, p⟩ := f
    exact .lambda (.mk parameters (Statement.alike_self hP body) (hP p))
  | native n => exact .native n

theorem eq (h : f.Alike Eq f') : f = f' := by
  cases h with
  | lambda hf =>
    cases hf with
    | mk parameters hbody hp => rw [Statement.eq_of_alike _ hbody, hp]
  | native n => rfl

end Function.Alike

/-- A value that leads to none but scopes inside. -/
def Value.Within (Inside : ScopeId → Prop) : Value → Prop
  | .closure c => Inside c.captured
  | _ => True

/-- No scope inside leads to one outside: neither its parent nor a closure that it binds. -/
def Store.Closed (store : Store) (Inside : ScopeId → Prop) : Prop :=
  ∀ i scope, Inside i → store.scopes[i]? = some scope →
    (∀ p ∈ scope.parent, Inside p) ∧ ∀ b ∈ scope.bindings, b.2.Within Inside

theorem Value.Within.mono {Inside Inside' : ScopeId → Prop} {v : Value} (hv : v.Within Inside)
    (h : ∀ i, Inside i → Inside' i) : v.Within Inside' := by
  cases v with
  | closure c => exact h _ hv
  | _ => trivial

section All
variable {Inside : ScopeId → Prop} (hall : ∀ i, Inside i)
include hall

theorem Value.within_all (v : Value) : v.Within Inside := by
  cases v with
  | closure c => exact hall c.captured
  | _ => trivial

theorem Store.closed_all (store : Store) : store.Closed Inside :=
  fun _ _ _ _ => ⟨fun p _ => hall p, fun b _ => b.2.within_all hall⟩

end All

/-- The machine with no scope active. -/
def Machine.idle (m : Machine) : Machine := { m with stack := [] }

/-- How two evaluations correspond. -/
structure Pairing where
  /-- Places that may stand for each other. -/
  place : Position → Position → Prop
  /-- Scopes that both evaluations may reach, by their numbers on the left. -/
  shared : ScopeId → Prop
  /-- How much larger the number of a shared scope is on the right, and that of a closure. -/
  scopeShift : Nat
  closureShift : Nat
  /-- The machines that they begin on. -/
  left : Machine
  right : Machine
  /-- What the natives keep on the left and on the right. -/
  kept : List Value → List Value → Prop
  /-- An error without a place may be given one on both sides. -/
  located {p p' q q' : Position} : place p p' → place q q' →
    place (if p.isUnknown then q else p) (if p'.isUnknown then q' else p')
  /-- Both reach the scopes that they make. -/
  fresh : ∀ i, left.store.scopes.size ≤ i → shared i
  /-- No shared scope has a number on the right that is not shared on the left. -/
  shifted : ∀ i, shared i → shared (i + scopeShift)
  /-- Equally many scopes are active at the beginning. -/
  depth : left.stack.length = right.stack.length

namespace Pairing

/-- Places that only stand for themselves. -/
theorem located_eq {p p' q q' : Position} (hp : p = p') (hq : q = q') :
    (if p.isUnknown then q else p) = if p'.isUnknown then q' else p' := by
  rw [hp, hq]

/-! ### Values -/

structure Closures (L : Pairing) (c c' : Closure) : Prop where
  id : c'.id = c.id + L.closureShift
  function : c.function.Alike L.place c'.function
  captured : c'.captured = c.captured + L.scopeShift
  shared : L.shared c.captured

/-- The same value, or closures that correspond. -/
inductive Values (L : Pairing) : Value → Value → Prop
  | integer (n : Int32) : Values L (.integer n) (.integer n)
  | boolean (b : Bool) : Values L (.boolean b) (.boolean b)
  | text (s : String) : Values L (.text s) (.text s)
  | null : Values L .null .null
  | closure {c c' : Closure} : L.Closures c c' → Values L (.closure c) (.closure c')

/-- Errors with the same cause, at places that may stand for each other. -/
abbrev Errors (L : Pairing) : Error → Error → Prop := Error.Alike L.place

variable {L : Pairing}

theorem Values.literal (l : Literal) : L.Values l.value l.value := by
  cases l with
  | integer n => exact .integer n
  | text s => exact .text s
  | boolean b => exact .boolean b
  | null => exact .null

namespace Values
variable {v v' : Value} (h : L.Values v v')
include h

theorem tag : v.tag = v'.tag := by
  cases h <;> rfl

theorem isNull : v.isNull = v'.isNull := by
  cases h <;> rfl

theorem isText : v.isText = v'.isText := by
  cases h <;> rfl

theorem display : v.display = v'.display := by
  cases h with
  | closure hc => exact hc.function.display
  | _ => rfl

theorem debug : v.debug = v'.debug := by
  cases h with
  | closure hc =>
    have hdisplay : _ = _ := hc.function.display
    simp only [Value.debug, Closure.display, hdisplay]
  | _ => rfl

/-! ### Operators -/

variable {p p' : Position} (hp : L.place p p')
include hp

theorem toBoolean : (v.toBoolean p).Alike L.Errors Eq (v'.toBoolean p') := by
  cases h with
  | closure _ => exact .error (.runtime _ hp)
  | _ => exact .ok rfl

theorem toInteger : (v.toInteger p).Alike L.Errors Eq (v'.toInteger p') := by
  cases h with
  | closure _ => exact .error (.runtime _ hp)
  | text _ => exact .error (.runtime _ hp)
  | _ => exact .ok rfl

theorem toText : (v.toText p).Alike L.Errors Eq (v'.toText p') := by
  cases h with
  | closure _ => exact .error (.runtime _ hp)
  | _ => exact .ok rfl

theorem negate : (v.negate p).Alike L.Errors L.Values (v'.negate p') := by
  cases h with
  | integer n => exact .ok (.integer (-n))
  | boolean b => exact .ok (.boolean !b)
  | _ => exact .error (.runtime _ hp)

end Values

section Operators
variable {l l' r r' : Value} {p p' : Position} (hl : L.Values l l') (hr : L.Values r r')
  (hp : L.place p p')
include hl hr hp

/-- A result of two operands as texts. -/
theorem alike_texts {α : Type} {Q : α → α → Prop} {f : String → String → α}
    (hf : ∀ s t, Q (f s t) (f s t)) :
    (do return f (← l.toText p) (← r.toText p) : Except Error α).Alike L.Errors Q
      (do return f (← l'.toText p') (← r'.toText p')) :=
  (hl.toText hp).bind fun s _ hs => (hr.toText hp).bind fun t _ ht => .ok (hs ▸ ht ▸ hf s t)

/-- A result of two operands as integers. -/
theorem alike_integers {α : Type} {Q : α → α → Prop} {f : Int32 → Int32 → α}
    (hf : ∀ m n, Q (f m n) (f m n)) :
    (do return f (← l.toInteger p) (← r.toInteger p) : Except Error α).Alike L.Errors Q
      (do return f (← l'.toInteger p') (← r'.toInteger p')) :=
  (hl.toInteger hp).bind fun m _ hm =>
    (hr.toInteger hp).bind fun n _ hn => .ok (hm ▸ hn ▸ hf m n)

theorem alike_equals : (l.equals p r).Alike L.Errors Eq (l'.equals p' r') := by
  have htexts := alike_texts (Q := Eq) (f := (· == ·)) hl hr hp fun _ _ => rfl
  have hintegers := alike_integers (Q := Eq) (f := (· == ·)) hl hr hp fun _ _ => rfl
  cases hl with
  | closure hc =>
    cases hr with
    | closure hd => exact .ok (by rw [hc.id, hd.id, Bool.eq_iff_iff]; simp)
    | _ => exact .ok rfl
  | text s =>
    cases hr with
    | closure _ => exact .ok rfl
    | _ => exact htexts
  | _ =>
    cases hr with
    | closure _ => exact .ok rfl
    | text t => exact htexts
    | _ => exact hintegers

theorem alike_less : (l.less p r).Alike L.Errors Eq (l'.less p' r') := by
  unfold Value.less
  rw [hl.isText, hr.isText]
  split
  · exact alike_texts hl hr hp fun _ _ => rfl
  · exact alike_integers hl hr hp fun _ _ => rfl

theorem alike_arithmetic {f f' : Int32 × Int32 → Except Error Value}
    (hf : ∀ m n, (f (m, n)).Alike L.Errors L.Values (f' (m, n))) :
    (Value.integers p l r >>= f).Alike L.Errors L.Values (Value.integers p' l' r' >>= f') :=
  (alike_integers (Q := Eq) (f := Prod.mk) hl hr hp fun _ _ => rfl).bind fun mn _ h =>
    h ▸ hf mn.1 mn.2

theorem alike_plus : (l.plus p r).Alike L.Errors L.Values (l'.plus p' r') := by
  unfold Value.plus
  rw [hl.isText, hr.isText]
  split
  · exact alike_texts hl hr hp fun s t => .text (s ++ t)
  · exact alike_arithmetic hl hr hp fun m n => .ok (.integer (m + n))

theorem alike_binary (operator : Operator) :
    (Value.binary operator l r p).Alike L.Errors L.Values (Value.binary operator l' r' p') := by
  have htrue : ∀ b b' : Bool, b = b' → L.Values (.boolean b) (.boolean b') := by
    intro b b' h
    exact h ▸ .boolean b
  have hfalse : ∀ b b' : Bool, b = b' → L.Values (.boolean !b) (.boolean !b') := by
    intro b b' h
    exact h ▸ .boolean !b
  cases operator with
  | equal => exact (alike_equals hl hr hp).map htrue
  | notEqual => exact (alike_equals hl hr hp).map hfalse
  | less => exact (alike_less hl hr hp).map htrue
  | greater => exact (alike_less hr hl hp).map htrue
  | lessEqual => exact (alike_less hr hl hp).map hfalse
  | greaterEqual => exact (alike_less hl hr hp).map hfalse
  | add => exact alike_plus hl hr hp
  | subtract => exact alike_arithmetic hl hr hp fun m n => .ok (.integer (m - n))
  | multiply => exact alike_arithmetic hl hr hp fun m n => .ok (.integer (m * n))
  | divide =>
    refine alike_arithmetic hl hr hp fun m n => ?_
    dsimp only
    split
    · exact .error (.runtime _ hp)
    · exact .ok (.integer (m / n))
  | or => exact .error (.runtime _ hp)
  | and => exact .error (.runtime _ hp)
  | nullCoalescing => exact .error (.runtime _ hp)

end Operators

/-! ### Scopes -/

/-- The same names in the same order, with values that correspond. -/
abbrev Bound (L : Pairing) : Bindings → Bindings → Prop :=
  List.Forall₂ fun b b' => b.1 = b'.1 ∧ L.Values b.2 b'.2

structure Scopes (L : Pairing) (s s' : Scope) : Prop where
  bindings : L.Bound s.bindings s'.bindings
  parent : s'.parent = s.parent.map (· + L.scopeShift)
  shared : ∀ p ∈ s.parent, L.shared p

section Bound
variable {bs bs' : Bindings} (h : L.Bound bs bs')
include h

theorem Bound.find? (name : String) : Option.Rel L.Values (bs.find? name) (bs'.find? name) := by
  induction h with
  | nil => exact .none
  | @cons b b' bs bs' hb _ ih =>
    obtain ⟨n, v⟩ := b
    obtain ⟨n', v'⟩ := b'
    obtain ⟨rfl, hv⟩ : n = n' ∧ _ := hb
    by_cases hn : n = name
    · simpa [Bindings.find?, hn] using hv
    · simpa [Bindings.find?, hn] using ih

theorem Bound.insert (name : String) {v v' : Value} (hv : L.Values v v') :
    L.Bound (bs.insert name v) (bs'.insert name v') := by
  induction h with
  | nil => exact .cons ⟨rfl, hv⟩ .nil
  | @cons b b' bs bs' hb hbs ih =>
    obtain ⟨n, w⟩ := b
    obtain ⟨n', w'⟩ := b'
    obtain ⟨rfl, hw⟩ : n = n' ∧ _ := hb
    by_cases hn : n = name
    · simpa [Bindings.insert, hn] using ⟨hv, hbs⟩
    · simpa [Bindings.insert, hn] using ⟨hw, ih⟩

end Bound

theorem Bound.ofArguments (parameters : List String) {vs vs' : List Value}
    (h : List.Forall₂ L.Values vs vs') :
    L.Bound (.ofArguments parameters vs) (.ofArguments parameters vs') := by
  have hfold : ∀ bs bs' : Bindings, L.Bound bs bs' →
      L.Bound ((parameters.zip vs).foldl (fun bs b => bs.insert b.1 b.2) bs)
        ((parameters.zip vs').foldl (fun bs b => bs.insert b.1 b.2) bs') := by
    induction h generalizing parameters with
    | nil => simp
    | cons hv _ ih =>
      intro bs bs' hbs
      cases parameters with
      | nil => exact hbs
      | cons name parameters => exact ih parameters _ _ (hbs.insert name hv)
  exact hfold [] [] .nil

/-! ### Stores -/

theorem Values.within {v v' : Value} (h : L.Values v v') : v.Within L.shared := by
  cases h with
  | closure hc => exact hc.shared
  | _ => trivial

theorem Bound.within {bs bs' : Bindings} (h : L.Bound bs bs') : ∀ b ∈ bs, b.2.Within L.shared := by
  induction h with
  | nil => exact List.forall_mem_nil _
  | cons hb _ ih => exact List.forall_mem_cons.mpr ⟨hb.2.within, ih⟩

/-- Stores that have grown by the same number of scopes. Shared scopes correspond, and the others
are as they were. -/
structure Stores (L : Pairing) (s s' : Store) : Prop where
  size : s'.scopes.size = s.scopes.size + L.scopeShift
  grown : L.left.store.scopes.size ≤ s.scopes.size
  scopes : ∀ i, L.shared i → Option.Rel L.Scopes s.scopes[i]? s'.scopes[i + L.scopeShift]?
  others : ∀ i, ¬L.shared i →
    s.scopes[i]? = L.left.store.scopes[i]? ∧ s'.scopes[i]? = L.right.store.scopes[i]?

namespace Stores
variable {s s' : Store} (h : L.Stores s s')
include h

theorem add {scope scope' : Scope} (hscope : L.Scopes scope scope') :
    (s'.add scope').1 = (s.add scope).1 + L.scopeShift ∧ L.shared (s.add scope).1 ∧
      L.Stores (s.add scope).2 (s'.add scope').2 := by
  have hshared : L.shared s.scopes.size := L.fresh _ h.grown
  refine ⟨h.size, hshared, ?_, ?_, ?_, ?_⟩
  · simp [Store.add, h.size, Nat.add_right_comm]
  · exact Nat.le_trans h.grown (by simp [Store.add])
  · intro i hi
    simp only [Store.add, Array.getElem?_push, h.size, Nat.add_right_cancel_iff]
    split
    · exact .some hscope
    · exact h.scopes i hi
  · intro i hi
    have hne : i ≠ s.scopes.size := fun heq => hi (heq ▸ hshared)
    have hne' : i ≠ s.scopes.size + L.scopeShift := fun heq => hi (heq ▸ L.shifted _ hshared)
    simp only [Store.add, Array.getElem?_push, h.size, if_neg hne, if_neg hne']
    exact h.others i hi

/-- Nothing leads out of the shared scopes. -/
theorem closed : s.Closed L.shared := by
  intro i scope hi hscope
  have hscopes := h.scopes i hi
  rw [hscope] at hscopes
  generalize s'.scopes[i + L.scopeShift]? = o at hscopes
  cases hscopes with
  | some hs => exact ⟨hs.shared, hs.bindings.within⟩

theorem root : s'.root.1 = s.root.1 + L.scopeShift ∧ L.shared s.root.1 ∧
    L.Stores s.root.2 s'.root.2 := h.add ⟨.nil, rfl, nofun⟩

theorem declare {id : ScopeId} (hid : L.shared id) (name : String) {v v' : Value}
    (hv : L.Values v v') :
    L.Stores (s.declare id name v) (s'.declare (id + L.scopeShift) name v') := by
  refine ⟨?_, ?_, ?_, ?_⟩
  · simpa [Store.declare] using h.size
  · simpa [Store.declare] using h.grown
  · intro i hi
    have hscope := h.scopes i hi
    simp only [Store.declare, Array.getElem?_modify, Nat.add_right_cancel_iff]
    split
    · generalize s.scopes[i]? = o, s'.scopes[i + L.scopeShift]? = o' at hscope
      cases hscope with
      | none => exact .none
      | some hs => exact .some ⟨hs.bindings.insert name hv, hs.parent, hs.shared⟩
    · exact hscope
  · intro i hi
    have hne : id ≠ i := fun heq => hi (heq ▸ hid)
    have hne' : id + L.scopeShift ≠ i := fun heq => hi (heq ▸ L.shifted _ hid)
    simp only [Store.declare, Array.getElem?_modify, if_neg hne, if_neg hne']
    exact h.others i hi

/-- Shared scopes have shared parents, under numbers that are in the same order. -/
theorem lookup (name : String) {id : ScopeId} (hid : L.shared id) :
    Option.Rel L.Values (s.lookup id name) (s'.lookup (id + L.scopeShift) name) := by
  induction id using Nat.strongRecOn with
  | ind id ih =>
    have hscope := h.scopes id hid
    rw [Store.lookup, Store.lookup]
    generalize s.scopes[id]? = o, s'.scopes[id + L.scopeShift]? = o' at hscope
    cases hscope with
    | none => exact .none
    | @some scope scope' hs =>
      have hfound := hs.bindings.find? name
      dsimp only
      generalize scope.bindings.find? name = f, scope'.bindings.find? name = f' at hfound
      cases hfound with
      | some hv => exact .some hv
      | none =>
        rw [hs.parent]
        cases hparent : scope.parent with
        | none => exact .none
        | some parent =>
          simp only [Option.map_some, Nat.add_lt_add_iff_right]
          split
          · next hlt => exact ih parent hlt (hs.shared parent hparent)
          · exact .none

theorem update (name : String) {change change' : Value → Value}
    (hchange : ∀ v v', L.Values v v' → L.Values (change v) (change' v')) {id : ScopeId}
    (hid : L.shared id) :
    Option.Rel L.Values (Store.update id name change s).1
        (Store.update (id + L.scopeShift) name change' s').1 ∧
      L.Stores (Store.update id name change s).2
        (Store.update (id + L.scopeShift) name change' s').2 := by
  induction id using Nat.strongRecOn with
  | ind id ih =>
    have hscope := h.scopes id hid
    rw [Store.update, Store.update]
    generalize s.scopes[id]? = o, s'.scopes[id + L.scopeShift]? = o' at hscope
    cases hscope with
    | none => exact ⟨.none, h⟩
    | @some scope scope' hs =>
      have hfound := hs.bindings.find? name
      dsimp only
      generalize scope.bindings.find? name = f, scope'.bindings.find? name = f' at hfound
      cases hfound with
      | some hv => exact ⟨.some (hchange _ _ hv), h.declare hid name (hchange _ _ hv)⟩
      | none =>
        rw [hs.parent]
        cases hparent : scope.parent with
        | none => exact ⟨.none, h⟩
        | some parent =>
          simp only [Option.map_some, Nat.add_lt_add_iff_right]
          split
          · next hlt => exact ih parent hlt (hs.shared parent hparent)
          · exact ⟨.none, h⟩

end Stores

/-- Every place and every number stands for itself. -/
structure Steady (L : Pairing) : Prop where
  place : ∀ p, L.place p p
  scopeShift : L.scopeShift = 0
  closureShift : L.closureShift = 0

section Steady
variable (hsteady : L.Steady)
include hsteady

theorem Closures.self {c : Closure} (hc : L.shared c.captured) : L.Closures c c := by
  refine ⟨?_, .self hsteady.place c.function, ?_, hc⟩
  · rw [hsteady.closureShift, Nat.add_zero]
  · rw [hsteady.scopeShift, Nat.add_zero]

theorem Values.self {v : Value} (hv : v.Within L.shared) : L.Values v v := by
  cases v with
  | integer n => exact .integer n
  | boolean b => exact .boolean b
  | text s => exact .text s
  | null => exact .null
  | closure c => exact .closure (.self hsteady hv)

/-- Stores that agree on the shared scopes, from which nothing else can be reached. -/
theorem Stores.start (hsize : L.left.store.scopes.size = L.right.store.scopes.size)
    (hclosed : L.left.store.Closed L.shared)
    (hagree : ∀ i, L.shared i → L.left.store.scopes[i]? = L.right.store.scopes[i]?) :
    L.Stores L.left.store L.right.store := by
  refine ⟨?_, Nat.le_refl _, fun i hi => ?_, fun i _ => ⟨rfl, rfl⟩⟩
  · rw [hsize, hsteady.scopeShift, Nat.add_zero]
  · rw [hsteady.scopeShift, Nat.add_zero, ← hagree i hi]
    cases hscope : L.left.store.scopes[i]? with
    | none => exact .none
    | some scope =>
      obtain ⟨hparent, hbindings⟩ := hclosed i scope hi hscope
      have hbound : L.Bound scope.bindings scope.bindings :=
        List.forall₂_same.mpr fun b hb => ⟨rfl, .self hsteady (hbindings b hb)⟩
      exact .some ⟨hbound, by simp [hsteady.scopeShift], hparent⟩

end Steady

/-! ### Machines -/

/-- Machines whose stores correspond and that have written the same since the beginning. -/
structure Heaps (L : Pairing) (m m' : Machine) : Prop where
  store : L.Stores m.store m'.store
  nextClosure : m'.nextClosure = m.nextClosure + L.closureShift
  kept : L.kept m.kept m'.kept
  written : ∃ lines : Array Line,
    m.output = L.left.output ++ lines ∧ m'.output = L.right.output ++ lines

/-- Machines that are `d` scopes deeper than at the beginning. The scopes active since then are
shared. -/
structure Machines (L : Pairing) (d : Nat) (m m' : Machine) : Prop extends L.Heaps m m' where
  stack : ∃ inner : List ScopeId, inner.length = d ∧ (∀ i ∈ inner, L.shared i) ∧
    m.stack = inner ++ L.left.stack ∧ m'.stack = inner.map (· + L.scopeShift) ++ L.right.stack

theorem Heaps.start (hstore : L.Stores L.left.store L.right.store)
    (hnext : L.right.nextClosure = L.left.nextClosure + L.closureShift)
    (hkept : L.kept L.left.kept L.right.kept) : L.Heaps L.left L.right :=
  ⟨hstore, hnext, hkept, #[], Array.append_empty.symm, Array.append_empty.symm⟩

theorem Heaps.output {m m' : Machine} (h : L.Heaps m m') (heq : L.left.output = L.right.output) :
    m.output = m'.output := by
  obtain ⟨lines, hleft, hright⟩ := h.written
  rw [hleft, hright, heq]

namespace Machines
variable {d : Nat} {m m' : Machine} (h : L.Machines d m m')
include h

theorem length_stack : m.stack.length = m'.stack.length := by
  obtain ⟨inner, _, _, hleft, hright⟩ := h.stack
  rw [hleft, hright, List.length_append, List.length_append, List.length_map, L.depth]

theorem withStore {s s' : Store} (hs : L.Stores s s') :
    L.Machines d { m with store := s } { m' with store := s' } :=
  ⟨⟨hs, h.nextClosure, h.kept, h.written⟩, h.stack⟩

theorem exchange {kept kept' : List Value} (hkept : L.kept kept kept') :
    L.Machines d { m with kept } { m' with kept := kept' } :=
  ⟨⟨h.store, h.nextClosure, hkept, h.written⟩, h.stack⟩

theorem write (line : Line) :
    L.Machines d { m with output := m.output.push line }
      { m' with output := m'.output.push line } := by
  obtain ⟨lines, hleft, hright⟩ := h.written
  refine ⟨⟨h.store, h.nextClosure, h.kept, lines.push line, ?_, ?_⟩, h.stack⟩
  · simp [hleft]
  · simp [hright]

end Machines

end Pairing

end Lumen
