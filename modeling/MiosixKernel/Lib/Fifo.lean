import Mathlib.Data.List.Basic

/-!
# Bounded queues

A machine answers each input, and it is a correct implementation of another one if the answers are the same.

* `replies`, `stateAfter`: the answers of a machine to a sequence of inputs, and its state;
* `Simulates`, **`Simulates.replies_eq`**: states that are related stay so, and the answers are the same;
* `fifoStep`: a queue of at most `cap` elements.
-/

namespace Lib

variable {σ τ ι ο α : Type}

/-- The answers to a sequence of inputs. -/
def replies (step : σ → ι → σ × ο) : σ → List ι → List ο
  | _, [] => []
  | s, i :: l => (step s i).2 :: replies step (step s i).1 l

/-- The state after a sequence of inputs. -/
def stateAfter (step : σ → ι → σ × ο) (s : σ) (l : List ι) : σ := l.foldl (fun s i => (step s i).1) s

/-- Related states answer an input in the same way, and stay related. -/
structure Simulates (step : σ → ι → σ × ο) (step' : τ → ι → τ × ο) (R : σ → τ → Prop) : Prop where
  reply : ∀ s t i, R s t → (step s i).2 = (step' t i).2
  next : ∀ s t i, R s t → R (step s i).1 (step' t i).1

/-- **Simulation**: the answers to every sequence of inputs are the same. -/
theorem Simulates.replies_eq {step : σ → ι → σ × ο} {step' : τ → ι → τ × ο} {R : σ → τ → Prop}
    (h : Simulates step step' R) {s : σ} {t : τ} (hst : R s t) (l : List ι) :
    replies step s l = replies step' t l := by
  induction l generalizing s t with
  | nil => rfl
  | cons i l ih => rw [replies, replies, h.reply s t i hst, ih (h.next s t i hst)]

theorem Simulates.stateAfter {step : σ → ι → σ × ο} {step' : τ → ι → τ × ο} {R : σ → τ → Prop}
    (h : Simulates step step' R) {s : σ} {t : τ} (hst : R s t) (l : List ι) :
    R (stateAfter step s l) (stateAfter step' t l) := by
  induction l generalizing s t with
  | nil => exact hst
  | cons i l ih => exact ih (h.next s t i hst)

inductive FifoOp (α : Type) where
  | put (x : α)
  | get
  | clear

/-- Whether an element was accepted, and the element that was obtained. -/
inductive FifoReply (α : Type) where
  | put (accepted : Bool)
  | get (x : Option α)
  | clear
deriving DecidableEq

/-- The queue refuses an element when it is full, and has none to give when it is empty. -/
def fifoStep (cap : ℕ) (l : List α) : FifoOp α → List α × FifoReply α
  | .put x => if l.length = cap then (l, .put false) else (l ++ [x], .put true)
  | .get => (l.tail, .get l.head?)
  | .clear => ([], .clear)

end Lib
