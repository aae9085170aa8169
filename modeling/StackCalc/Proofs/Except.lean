/-
Taking computations that may fail apart.

The stages of the calculator are sequences of steps of which the first failure decides.
When the whole has a known outcome, so have the steps; these lemmas say which.  Two sequences
can also be compared as they go: while each step of the one matches that of the other, so do
their outcomes.
-/

namespace StackCalc

variable {ε ε' α β : Type}

/-- A sequence that succeeds consists of two steps that do. -/
theorem bind_eq_ok {x : Except ε α} {f : α → Except ε β} {b : β} (h : x >>= f = .ok b) :
    ∃ a, x = .ok a ∧ f a = .ok b := by
  cases x with
  | error e => cases h
  | ok a => exact ⟨a, rfl, h⟩

/-- A sequence that fails does so in its first step, or in its second one. -/
theorem bind_eq_error {x : Except ε α} {f : α → Except ε β} {e : ε} (h : x >>= f = .error e) :
    x = .error e ∨ ∃ a, x = .ok a ∧ f a = .error e := by
  cases x with
  | error e' => exact Or.inl (congrArg Except.error (Except.error.inj h))
  | ok a => exact Or.inr ⟨a, rfl, h⟩

theorem eq_ok_of_toOption {x : Except ε α} {a : α} (h : x.toOption = some a) : x = .ok a := by
  cases x with
  | error e => cases h
  | ok b => exact congrArg Except.ok (Option.some.inj h)

/-- Renaming errors keeps success. -/
theorem mapError_eq_ok {x : Except ε α} {f : ε → ε'} {a : α} (h : x.mapError f = .ok a) :
    x = .ok a := by
  cases x with
  | error e => cases h
  | ok b => exact congrArg Except.ok (Except.ok.inj h)

theorem mapError_eq_error {x : Except ε α} {f : ε → ε'} {e' : ε'} (h : x.mapError f = .error e') :
    ∃ e, x = .error e ∧ f e = e' := by
  cases x with
  | error e => exact ⟨e, rfl, Except.error.inj h⟩
  | ok b => cases h

/-- Two outcomes are of the same sort, and their results or their errors are related. -/
inductive Matched (E : ε → ε' → Prop) (R : α → β → Prop) : Except ε α → Except ε' β → Prop
  | ok {a : α} {b : β} (h : R a b) : Matched E R (.ok a) (.ok b)
  | error {e : ε} {e' : ε'} (h : E e e') : Matched E R (.error e) (.error e')

namespace Matched

variable {E : ε → ε' → Prop} {R : α → β → Prop} {x : Except ε α} {y : Except ε' β}

/-- Sequences match if their steps do. -/
theorem bind {α' β' : Type} {S : α' → β' → Prop} {f : α → Except ε α'} {g : β → Except ε' β'}
    (hxy : Matched E R x y) (hfg : ∀ {a b}, R a b → Matched E S (f a) (g b)) :
    Matched E S (x >>= f) (y >>= g) := by
  cases hxy with
  | ok h => exact hfg h
  | error h => exact .error h

theorem imp {E' : ε → ε' → Prop} {R' : α → β → Prop} (h : Matched E R x y)
    (hE : ∀ {e e'}, E e e' → E' e e') (hR : ∀ {a b}, R a b → R' a b) : Matched E' R' x y := by
  cases h with
  | ok h => exact .ok (hR h)
  | error h => exact .error (hE h)

theorem mapError {δ δ' : Type} {D : δ → δ' → Prop} {f : ε → δ} {g : ε' → δ'}
    (hxy : Matched E R x y) (hfg : ∀ {e e'}, E e e' → D (f e) (g e')) :
    Matched D R (x.mapError f) (y.mapError g) := by
  cases hxy with
  | ok h => exact .ok h
  | error h => exact .error (hfg h)

end Matched

end StackCalc
