import MiosixKernel.Lib.Loop
import Mathlib.Tactic.Basic

/-!
# Computations that must not fault

Some errors of a computation are exceptions that it is allowed to end with; the others are faults.

* `Faults`: the computation ends with a fault;
* `Meets`: it does not, and what it returns satisfies a postcondition;
* `faults_bind`, `Meets.bind`: the two parts of a computation.
-/

namespace Lib

variable {ε α β : Type} {bad : ε → Prop} {x : Except ε α} {f : α → Except ε β}

/-- The computation ends with a fault. -/
def Faults (bad : ε → Prop) (x : Except ε α) : Prop := ∃ e, x = .error e ∧ bad e

/-- The computation ends without a fault, and satisfies `P` if it returns. -/
def Meets (bad : ε → Prop) (x : Except ε α) (P : α → Prop) : Prop :=
  ¬ Faults bad x ∧ ∀ a, x = .ok a → P a

@[simp] theorem error_bind (e : ε) (f : α → Except ε β) :
    ((Except.error e : Except ε α) >>= f) = .error e := rfl

@[simp] theorem throw_eq_error (e : ε) : (throw e : Except ε α) = .error e := rfl

@[simp] theorem not_faults_ok (a : α) : ¬ Faults bad (.ok a : Except ε α) := by
  rintro ⟨e, h, -⟩
  cases h

@[simp] theorem faults_error {e : ε} : Faults bad (.error e : Except ε α) ↔ bad e := by
  constructor
  · rintro ⟨_, h, hb⟩
    cases h
    exact hb
  · exact fun h => ⟨e, rfl, h⟩

theorem faults_bind :
    Faults bad (x >>= f) ↔ Faults bad x ∨ ∃ a, x = .ok a ∧ Faults bad (f a) := by
  cases x with
  | error e => simp
  | ok a => simp

theorem Meets.of_ok {a : α} {P : α → Prop} (h : P a) : Meets bad (.ok a) P :=
  ⟨not_faults_ok a, fun b hb => by cases hb; exact h⟩

theorem Meets.of_error {e : ε} {P : α → Prop} (h : ¬ bad e) : Meets bad (.error e) P :=
  ⟨fun hf => h (faults_error.1 hf), fun b hb => by cases hb⟩

theorem Meets.bind {P : α → Prop} {Q : β → Prop} (hx : Meets bad x P)
    (hf : ∀ a, P a → Meets bad (f a) Q) : Meets bad (x >>= f) Q := by
  cases x with
  | error e => exact .of_error fun h => hx.1 (faults_error.2 h)
  | ok a => exact hf a (hx.2 a rfl)

end Lib
