import Mathlib.Data.List.Basic

/-!
# Logs

A machine takes steps, and somebody who looks at it writes down what each of them does.

* `logged`: what is written down in a run;
* **`eq_logged`**: a part of the state that every step extends by what is written down is the log.
-/

namespace Lib

variable {σ ε β : Type}

/-- What is written down in a run; `note` says what is written down of one step, from the states before and
after it. -/
def logged (step : σ → ε → Option σ) (note : σ → ε → σ → List β) : σ → List ε → List β
  | _, [] => []
  | s, e :: steps =>
    match step s e with
    | none => []
    | some s' => note s e s' ++ logged step note s' steps

/-- **The log** of a run, if every step adds what is written down of it. -/
theorem eq_logged {step : σ → ε → Option σ} {note : σ → ε → σ → List β} (log : σ → List β)
    (hlog : ∀ s e s', step s e = some s' → log s' = log s ++ note s e s') {s s' : σ} {steps : List ε}
    (hrun : steps.foldlM step s = some s') : log s' = log s ++ logged step note s steps := by
  induction steps generalizing s with
  | nil =>
    cases hrun
    exact (List.append_nil _).symm
  | cons e steps ih =>
    obtain ⟨s₁, hstep, hrest⟩ := Option.bind_eq_some_iff.mp hrun
    rw [ih hrest, hlog s e s₁ hstep, List.append_assoc]
    simp only [logged, hstep]

end Lib
