import Lumen.Value

/-! The store of scopes.

A scope binds names to values and has a parent unless it is a root. Scopes are numbered
as they are made and are never removed. A name is looked up in a scope and then outward
through the parents; a parent is older than its children, so the numbers fall on the way
and the search ends. -/
namespace Lumen

/-- Names with their values, one value a name. -/
abbrev Bindings := List (String × Value)

namespace Bindings

def find? (name : String) : Bindings → Option Value
  | [] => none
  | (n, v) :: rest => if n = name then some v else find? name rest

/-- Gives a name a value, in place of the one that it may have. -/
def insert (name : String) (v : Value) : Bindings → Bindings
  | [] => [(name, v)]
  | (n, old) :: rest => if n = name then (name, v) :: rest else (n, old) :: insert name v rest

theorem find?_insert (name n : String) (v : Value) (bindings : Bindings) :
    (bindings.insert name v).find? n = if n = name then some v else bindings.find? n := by
  induction bindings with
  | nil => simp [insert, find?, eq_comm]
  | cons entry rest ih =>
    obtain ⟨m, old⟩ := entry
    by_cases hm : m = name
    · subst hm
      by_cases hn : n = m
      · simp [insert, find?, hn]
      · simp [insert, find?, hn, Ne.symm hn]
    · by_cases hn : m = n
      · subst hn
        simp [insert, find?, hm]
      · simp [insert, find?, hm, hn, ih]

/-- Parameters with the arguments given for them. Of two parameters of one name, the
later one counts. -/
def ofArguments (parameters : List String) (arguments : List Value) : Bindings :=
  (parameters.zip arguments).foldl (fun bindings (name, v) => insert name v bindings) []

end Bindings

structure Scope where
  bindings : Bindings
  parent : Option ScopeId

structure Store where
  scopes : Array Scope

namespace Store

def empty : Store := ⟨#[]⟩

/-- Makes a scope. -/
def add (scope : Scope) (store : Store) : ScopeId × Store :=
  (store.scopes.size, ⟨store.scopes.push scope⟩)

/-- Makes a scope without a parent. -/
def root (store : Store) : ScopeId × Store := store.add ⟨[], none⟩

/-- Makes a scope inside another. -/
def child (parent : ScopeId) (store : Store) : ScopeId × Store := store.add ⟨[], some parent⟩

/-- Binds a name in a scope itself, whatever the scopes around it bind. -/
def declare (id : ScopeId) (name : String) (v : Value) (store : Store) : Store :=
  ⟨store.scopes.modify id fun scope => { scope with bindings := scope.bindings.insert name v }⟩

/-- The value of a name as seen from a scope: its own, or else the one that its parent sees. -/
def lookup (store : Store) (id : ScopeId) (name : String) : Option Value :=
  match store.scopes[id]? with
  | none => none
  | some scope =>
    match scope.bindings.find? name with
    | some v => some v
    | none =>
      match scope.parent with
      | none => none
      | some parent => if parent < id then store.lookup parent name else none
termination_by id

/-- Changes the nearest binding of a name and gives its new value, if there is one. -/
def update (id : ScopeId) (name : String) (change : Value → Value) (store : Store) :
    Option Value × Store :=
  match store.scopes[id]? with
  | none => (none, store)
  | some scope =>
    match scope.bindings.find? name with
    | some v => (some (change v), store.declare id name (change v))
    | none =>
      match scope.parent with
      | none => (none, store)
      | some parent => if parent < id then update parent name change store else (none, store)
termination_by id

/-- Overwrites the nearest binding of a name. -/
def assign (id : ScopeId) (name : String) (v : Value) (store : Store) : Option Value × Store :=
  store.update id name fun _ => v

/-- Overwrites the nearest binding of a name if it holds null. -/
def nullAssign (id : ScopeId) (name : String) (v : Value) (store : Store) :
    Option Value × Store :=
  store.update id name fun old => if old.isNull then v else old

/-- Whether a scope itself binds a name. -/
def declaredHere (store : Store) (id : ScopeId) (name : String) : Bool :=
  match store.scopes[id]? with
  | none => false
  | some scope => (scope.bindings.find? name).isSome

end Store

end Lumen
