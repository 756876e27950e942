import Mathlib.Tactic.Basic

/-!
# Code with a state

A function changes a state and returns a value, or it is left early with an answer, or it does not return.

* `Code`: the computations, a monad;
* `Returns`: the function returns, and its answer and the state satisfy a postcondition;
* **`Returns.bind`**, `Returns.mono`, `Returns.ite`: the rules.
-/

namespace Lib

/-- A computation with a state `σ`, which may be left with an `ε`; `none` if it does not return. -/
def Code (σ ε α : Type) : Type := σ → Option (Except ε α × σ)

variable {σ ε α β γ : Type}

namespace Code

instance : Monad (Code σ ε) where
  pure a := fun s => some (.ok a, s)
  bind m f := fun s =>
    match m s with
    | some (.ok a, s) => f a s
    | some (.error e, s) => some (.error e, s)
    | none => none

/-- The function is left. -/
def leave (e : ε) : Code σ ε α := fun s => some (.error e, s)

def read : Code σ ε σ := fun s => some (.ok s, s)

def change (f : σ → σ) : Code σ ε Unit := fun s => some (.ok (), f s)

/-- A function of the state that returns. -/
def call (f : σ → α × σ) : Code σ ε α := fun s => some (.ok (f s).1, (f s).2)

/-- A function of the state that may not return. -/
def run (f : σ → Option (α × σ)) : Code σ ε α := fun s => (f s).map fun r => (.ok r.1, r.2)

/-- Code that may be skipped. -/
def onlyIf (c : Prop) [Decidable c] (m : Code σ ε Unit) : Code σ ε Unit := if c then m else Pure.pure ()

/-- It does not return. -/
def never : Code σ ε α := fun _ => none

section Apply

variable {m : Code σ ε α} {f : α → Code σ ε β} {s s' : σ} {a : α} {e : ε}

theorem bind_assoc {g : β → Code σ ε γ} : m >>= f >>= g = m >>= fun a => f a >>= g := by
  funext s
  simp only [Bind.bind]
  rcases m s with _ | ⟨_ | a, s'⟩ <;> rfl

theorem bind_ok (h : m s = some (.ok a, s')) : (m >>= f) s = f a s' := by simp only [Bind.bind, h]

theorem bind_error (h : m s = some (.error e, s')) : (m >>= f) s = some (.error e, s') := by simp only [Bind.bind, h]

theorem run_apply {g : σ → Option (α × σ)} (h : g s = some (a, s')) : (run g : Code σ ε α) s = some (.ok a, s') := by
  simp only [run, h, Option.map_some]

end Apply

/-- The code returns, and what it answers and the state satisfy the postcondition. -/
def Returns (m : Code σ ε α) (s : σ) (Q : Except ε α → σ → Prop) : Prop := ∃ r s', m s = some (r, s') ∧ Q r s'

namespace Returns

variable {m : Code σ ε α} {f : α → Code σ ε β} {s : σ} {P Q : Except ε α → σ → Prop} {R : Except ε β → σ → Prop}

theorem mono (h : m.Returns s P) (hpq : ∀ r s', P r s' → Q r s') : m.Returns s Q := by
  obtain ⟨r, s', hm, hp⟩ := h
  exact ⟨r, s', hm, hpq r s' hp⟩

theorem bind (h : m.Returns s P) (hok : ∀ a s', P (.ok a) s' → (f a).Returns s' R)
    (herror : ∀ e s', P (.error e) s' → R (.error e) s') : (m >>= f).Returns s R := by
  obtain ⟨r, s', hm, hp⟩ := h
  cases r with
  | ok a =>
    obtain ⟨r, s'', hf, hr⟩ := hok a s' hp
    exact ⟨r, s'', by simp only [Bind.bind, hm, hf], hr⟩
  | error e => exact ⟨.error e, s', by simp only [Bind.bind, hm], herror e s' hp⟩

theorem pure {a : α} (h : Q (.ok a) s) : (Pure.pure a : Code σ ε α).Returns s Q := ⟨.ok a, s, rfl, h⟩

theorem leave {e : ε} (h : Q (.error e) s) : (leave e : Code σ ε α).Returns s Q := ⟨.error e, s, rfl, h⟩

/-- The rule for a statement that reads the state. -/
theorem read_bind {f : σ → Code σ ε β} (h : (f s).Returns s R) : (read >>= f).Returns s R := h

theorem ite {c : Prop} [Decidable c] {m' : Code σ ε α} (h : c → m.Returns s Q) (h' : ¬ c → m'.Returns s Q) :
    (if c then m else m').Returns s Q := by
  by_cases hc : c
  · rw [if_pos hc]
    exact h hc
  · rw [if_neg hc]
    exact h' hc

end Returns

end Code

end Lib
