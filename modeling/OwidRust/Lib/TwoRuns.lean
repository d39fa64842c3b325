import Mathlib.Logic.Basic

/-!
# Two runs that stop alike

`Agree R x y` relates two computations that may stop with an error: both stop, with one error, or
both go on, with results that `R` relates.  What a program discloses by stopping is what its runs
on related inputs stop alike on.

* `Agree.bind` — one step and then another agree where both steps do;
* `Agree.eq_error_iff` — of two runs that agree the one stops with an error where the other does.
-/

namespace TwoRuns

variable {ε α β γ δ : Type} {R : α → β → Prop}

inductive Agree (R : α → β → Prop) : Except ε α → Except ε β → Prop where
  | error (e : ε) : Agree R (.error e) (.error e)
  | ok {a : α} {b : β} : R a b → Agree R (.ok a) (.ok b)

variable {x : Except ε α} {y : Except ε β}

theorem Agree.bind {S : γ → δ → Prop} {f : α → Except ε γ} {g : β → Except ε δ}
    (h : Agree R x y) (hnext : ∀ a b, R a b → Agree S (f a) (g b)) :
    Agree S (x >>= f) (y >>= g) := by
  cases h with
  | error e => exact .error e
  | ok hab => exact hnext _ _ hab

/-- The choice between two computations, made alike. -/
theorem Agree.ite {p q : Prop} [Decidable p] [Decidable q] (hpq : p ↔ q) {x' : Except ε α}
    {y' : Except ε β} (h : p → Agree R x y) (h' : ¬ p → Agree R x' y') :
    Agree R (if p then x else x') (if q then y else y') := by
  by_cases hp : p
  · rw [if_pos hp, if_pos (hpq.mp hp)]
    exact h hp
  · rw [if_neg hp, if_neg (hpq.not.mp hp)]
    exact h' hp

theorem Agree.mapError {ε' : Type} (f : ε → ε') (h : Agree R x y) :
    Agree R (x.mapError f) (y.mapError f) := by
  cases h with
  | error e => exact .error (f e)
  | ok hab => exact .ok hab

theorem Agree.eq_error_iff (h : Agree R x y) (e : ε) : x = .error e ↔ y = .error e := by
  cases h with
  | error e' => rw [Except.error.injEq, Except.error.injEq]
  | ok hab => exact iff_of_false (by simp) (by simp)

end TwoRuns
