import Lumen.Proofs.Store.Owner
import Mathlib.Logic.Relation

/-! The search for a name, without a guard.

To look a name up, or to overwrite it, one goes outward from parent to parent. The store does so
only where the parent is older than its child, which is why its searches end. Here the search is
told once more, by steps that do not ask how old a parent is, and that cannot be taken at a scope
that has never been made (`Searches`). Where all parents are older than their children, it ends
after finitely many steps and in one way only, and the store's own searches go by it: they never
stop for want of a scope, nor because a parent is too young (`Ordered.searchable`). -/
namespace Lumen.Store

/-- The scope has been made. -/
def Has (s : Store) (i : ScopeId) : Prop := i < s.scopes.size

instance (s : Store) (i : ScopeId) : Decidable (s.Has i) := inferInstanceAs (Decidable (_ < _))

/-- The scope `p` is the parent of `i`. -/
def Parent (s : Store) (p i : ScopeId) : Prop :=
  ∃ scope, s.scopes[i]? = some scope ∧ scope.parent = some p

/-- From `i` outward stand the scopes `ids`, and the last of them is a root. -/
inductive Ascends (s : Store) : ScopeId → List ScopeId → Prop
  | root {i : ScopeId} {scope : Scope} : s.scopes[i]? = some scope → scope.parent = none →
    Ascends s i [i]
  | outward {i p : ScopeId} {ids : List ScopeId} : s.Parent p i → Ascends s p ids →
    Ascends s i (i :: ids)

/-- The search for a name from `i` outward ends: at the scope that it finds, or behind a root. -/
inductive Searches (s : Store) (name : String) : ScopeId → Option ScopeId → Prop
  | here {i : ScopeId} {scope : Scope} {v : Value} : s.scopes[i]? = some scope →
    scope.bindings.find? name = some v → Searches s name i (some i)
  | nowhere {i : ScopeId} {scope : Scope} : s.scopes[i]? = some scope →
    scope.bindings.find? name = none → scope.parent = none → Searches s name i none
  | outward {i p : ScopeId} {scope : Scope} {o : Option ScopeId} : s.scopes[i]? = some scope →
    scope.bindings.find? name = none → scope.parent = some p → Searches s name p o →
    Searches s name i o

/-- To look a name up from `i` and to overwrite it there go by a search that ends with `o`. -/
structure GoesBy (s : Store) (i : ScopeId) (name : String) (o : Option ScopeId) : Prop where
  missed : o = none → s.lookup i name = none ∧ ∀ change, s.update i name change = (none, s)
  found : ∀ j, o = some j → ∃ old, s.valueAt j name = some old ∧ s.lookup i name = some old ∧
    ∀ change, s.update i name change = (some (change old), s.declare j name (change old))

/-- Nothing keeps a search in the store from ending well. -/
structure Searchable (s : Store) : Prop where
  /-- Parents are older than their children, and have been made. -/
  older : ∀ p i, s.Parent p i → p < i ∧ s.Has p
  /-- Nobody comes back by going outward. -/
  acyclic : ∀ i, ¬Relation.TransGen s.Parent i i
  /-- One comes to a root, by way of ever older scopes that have been made. -/
  finite : ∀ i, s.Has i → ∃ ids, s.Ascends i ids ∧ ids.Pairwise (· > ·) ∧ ∀ j ∈ ids, s.Has j
  /-- A search ends in one way, and what it ends with is what is looked up and overwritten. -/
  search : ∀ i name, s.Has i →
    ∃ o, s.Searches name i o ∧ (∀ o', s.Searches name i o' → o' = o) ∧ s.GoesBy i name o

variable {s : Store} {i p : ScopeId} {name : String}

theorem has_of_getElem? {scope : Scope} (h : s.scopes[i]? = some scope) : s.Has i :=
  (Array.getElem?_eq_some_iff.mp h).1

theorem exists_of_has (h : s.Has i) : ∃ scope, s.scopes[i]? = some scope :=
  ⟨_, Array.getElem?_eq_getElem h⟩

theorem Searches.unique {o o' : Option ScopeId} (h : s.Searches name i o)
    (h' : s.Searches name i o') : o' = o := by
  induction h with
  | here hscope hv => cases h' <;> simp_all
  | nowhere hscope hv hparent => cases h' <;> simp_all
  | outward hscope hv hparent _ ih =>
    cases h' with
    | outward hscope' _ hparent' hrest => simp_all
    | _ => simp_all

theorem goesBy_owner (s : Store) (i : ScopeId) (name : String) :
    s.GoesBy i name (s.owner i name) := by
  refine ⟨fun hnone => ⟨s.lookup_eq_none_iff.mpr hnone, fun change => ?_⟩, fun j hj => ?_⟩
  · rw [s.update_of_no_owner hnone]
  · obtain ⟨old, hold, _⟩ := s.update_of_owner hj id
    refine ⟨old, hold, ?_, fun change => ?_⟩
    · rw [lookup_eq_owner, hj]
      exact hold
    · obtain ⟨old', hold', hupdate⟩ := s.update_of_owner hj change
      obtain rfl := Option.some.inj (hold.symm.trans hold')
      exact hupdate

namespace Ordered
variable (h : s.Ordered)
include h

theorem parent_lt (hp : s.Parent p i) : p < i := by
  obtain ⟨scope, hscope, hparent⟩ := hp
  exact h i scope hscope p hparent

theorem has_parent (hp : s.Parent p i) : s.Has p := by
  have hlt := h.parent_lt hp
  obtain ⟨scope, hscope, _⟩ := hp
  exact Nat.lt_trans hlt (has_of_getElem? hscope)

theorem transGen_lt (hp : Relation.TransGen s.Parent p i) : p < i := by
  induction hp with
  | single hp => exact h.parent_lt hp
  | tail _ hp ih => exact Nat.lt_trans ih (h.parent_lt hp)

/-- Every search for a name ends with its owner. -/
theorem searches (hi : s.Has i) : s.Searches name i (s.owner i name) := by
  induction i using Nat.strongRecOn with
  | ind i ih =>
    obtain ⟨scope, hscope⟩ := exists_of_has hi
    rw [owner_eq, hscope]
    dsimp only
    cases hv : scope.bindings.find? name with
    | some v => exact .here hscope hv
    | none =>
      cases hparent : scope.parent with
      | none => exact .nowhere hscope hv hparent
      | some p =>
        have hp : s.Parent p i := ⟨scope, hscope, hparent⟩
        have hlt := h.parent_lt hp
        dsimp only
        rw [if_pos hlt]
        exact .outward hscope hv hparent (ih p hlt (h.has_parent hp))

theorem ascends (hi : s.Has i) :
    ∃ ids, s.Ascends i ids ∧ ids.Pairwise (· > ·) ∧ ∀ j ∈ ids, j ≤ i := by
  induction i using Nat.strongRecOn with
  | ind i ih =>
    obtain ⟨scope, hscope⟩ := exists_of_has hi
    cases hparent : scope.parent with
    | none => exact ⟨[i], .root hscope hparent, by simp, by simp⟩
    | some p =>
      have hp : s.Parent p i := ⟨scope, hscope, hparent⟩
      have hlt := h.parent_lt hp
      obtain ⟨ids, hids, hfall, hle⟩ := ih p hlt (h.has_parent hp)
      refine ⟨i :: ids, .outward hp hids, ?_, ?_⟩
      · exact List.pairwise_cons.mpr ⟨fun j hj => Nat.lt_of_le_of_lt (hle j hj) hlt, hfall⟩
      · exact List.forall_mem_cons.mpr
          ⟨Nat.le_refl i, fun j hj => Nat.le_trans (hle j hj) (Nat.le_of_lt hlt)⟩

/-- **Where parents are older than their children, every search ends well.** -/
theorem searchable : s.Searchable where
  older _ _ hp := ⟨h.parent_lt hp, h.has_parent hp⟩
  acyclic i hi := Nat.lt_irrefl i (h.transGen_lt hi)
  finite i hi := by
    obtain ⟨ids, hids, hfall, hle⟩ := h.ascends hi
    exact ⟨ids, hids, hfall, fun j hj => Nat.lt_of_le_of_lt (hle j hj) hi⟩
  search i name hi :=
    ⟨s.owner i name, h.searches hi, fun _ => (h.searches hi).unique, s.goesBy_owner i name⟩

end Ordered

end Lumen.Store
