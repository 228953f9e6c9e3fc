/-! Two computations side by side.

Readings of a grammar and evaluations of a tree both take a state to a result and a state. Two of
them are alike if from states that correspond they come to results and states that correspond:
both succeed, or both fail (`EStateM.Alike`). That is kept by sequencing (`Alike.bind`), so a
program that is run on two inputs needs one lemma for each of its parts. -/

namespace Except
variable {ε α β : Type}

/-- Both are values that `Q` relates, or errors that `E` relates. -/
inductive Alike (E : ε → ε → Prop) (Q : α → α → Prop) : Except ε α → Except ε α → Prop
  | ok {a a' : α} : Q a a' → Alike E Q (.ok a) (.ok a')
  | error {e e' : ε} : E e e' → Alike E Q (.error e) (.error e')

theorem Alike.bind {E : ε → ε → Prop} {Q : α → α → Prop} {R : β → β → Prop} {r r' : Except ε α}
    {f f' : α → Except ε β} (h : r.Alike E Q r') (hf : ∀ a a', Q a a' → (f a).Alike E R (f' a')) :
    (r >>= f).Alike E R (r' >>= f') := by
  cases h with
  | ok ha => exact hf _ _ ha
  | error he => exact .error he

theorem Alike.map {E : ε → ε → Prop} {Q : α → α → Prop} {R : β → β → Prop} {r r' : Except ε α}
    {f f' : α → β} (h : r.Alike E Q r') (hf : ∀ a a', Q a a' → R (f a) (f' a')) :
    (f <$> r).Alike E R (f' <$> r') := by
  cases h with
  | ok ha => exact .ok (hf _ _ ha)
  | error he => exact .error he

end Except

namespace EStateM
variable {ε σ α β : Type}

/-- Both computations succeed with values that `Q` relates or fail with errors that `E` relates,
in states that `S` relates. -/
inductive Result.Alike (S : σ → σ → Prop) (E : ε → ε → Prop) (Q : α → α → Prop) :
    Result ε σ α → Result ε σ α → Prop
  | ok {a a' : α} {s s' : σ} : Q a a' → S s s' → Alike S E Q (.ok a s) (.ok a' s')
  | error {e e' : ε} {s s' : σ} : E e e' → S s s' → Alike S E Q (.error e s) (.error e' s')

/-- The computations take states that correspond to results that do. -/
def Alike (S : σ → σ → Prop) (E : ε → ε → Prop) (Q : α → α → Prop) (c c' : EStateM ε σ α) : Prop :=
  ∀ s s', S s s' → (c s).Alike S E Q (c' s')

namespace Alike
variable {S : σ → σ → Prop} {E : ε → ε → Prop} {Q : α → α → Prop} {R : β → β → Prop}

theorem pure {a a' : α} (h : Q a a') : Alike S E Q (Pure.pure a) (Pure.pure a') :=
  fun _ _ hs => .ok h hs

theorem throw {e e' : ε} (h : E e e') :
    Alike S E Q (MonadExcept.throw e) (MonadExcept.throw e') := fun _ _ hs => .error h hs

theorem bind {c c' : EStateM ε σ α} {f f' : α → EStateM ε σ β} (hc : Alike S E Q c c')
    (hf : ∀ a a', Q a a' → Alike S E R (f a) (f' a')) : Alike S E R (c >>= f) (c' >>= f') := by
  intro s s' hs
  show (EStateM.bind c f s).Alike S E R (EStateM.bind c' f' s')
  unfold EStateM.bind
  have hresult := hc s s' hs
  generalize c s = r, c' s' = r' at hresult
  cases hresult with
  | ok ha hs => exact hf _ _ ha _ _ hs
  | error he hs => exact .error he hs

theorem bind_of_eq {c c' : EStateM ε σ α} {f f' : α → EStateM ε σ β} (hc : Alike S E Eq c c')
    (hf : ∀ a, Alike S E R (f a) (f' a)) : Alike S E R (c >>= f) (c' >>= f') := by
  refine bind hc fun a a' ha => ?_
  subst ha
  exact hf a

end Alike

end EStateM
