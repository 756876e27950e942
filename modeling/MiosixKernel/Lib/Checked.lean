import MiosixKernel.Lib.Loop
import Mathlib.Algebra.Order.Ring.Int
import Mathlib.Data.List.Basic

/-!
# Arithmetic with a range check

* `Overflow`, `checked`: a result that its type cannot represent is an error;
* `int32`, `uint32`, `uint16`: the types;
* `mapM_total`, `exists_of_mapM_eq_ok`: a loop over a list, each pass of which may overflow;
* `forall_mem_modify`, `map_modify`: a list with one element changed.
-/

namespace Lib

/-- The result of an operation is not representable. -/
inductive Overflow where
  | overflow
deriving DecidableEq

def checked (lo hi x : ℤ) : Except Overflow ℤ := if lo ≤ x ∧ x < hi then .ok x else .error .overflow

def int32 (x : ℤ) : Except Overflow ℤ := checked (-2 ^ 31) (2 ^ 31) x

def uint32 (x : ℤ) : Except Overflow ℤ := checked 0 (2 ^ 32) x

def uint16 (x : ℤ) : Except Overflow ℤ := checked 0 (2 ^ 16) x

section Checked

variable {x y : ℤ}

theorem int32_of_mem (h : -2 ^ 31 ≤ x ∧ x < 2 ^ 31) : int32 x = .ok x := if_pos h

theorem uint32_of_mem (h : 0 ≤ x ∧ x < 2 ^ 32) : uint32 x = .ok x := if_pos h

theorem uint16_of_mem (h : 0 ≤ x ∧ x < 2 ^ 16) : uint16 x = .ok x := if_pos h

theorem lt_of_int32_eq_ok (h : int32 x = .ok y) : x < 2 ^ 31 := by
  unfold int32 checked at h
  split_ifs at h with hx
  exact hx.2

/-- There is only one error. -/
theorem eq_error_of_ne_ok {α : Type} {r : Except Overflow α} (h : ∀ a, r ≠ .ok a) : r = .error .overflow := by
  cases r with
  | ok a => exact absurd rfl (h a)
  | error e => cases e; rfl

end Checked

section List

variable {ε α β : Type} {f : α → Except ε β} {l : List α}

/-- A loop that returns if each pass does. -/
theorem mapM_total {Q : β → Prop} (h : ∀ a ∈ l, ∃ b, f a = .ok b ∧ Q b) :
    ∃ l', l.mapM f = .ok l' ∧ l'.length = l.length ∧ ∀ b ∈ l', Q b := by
  induction l with
  | nil => exact ⟨[], rfl, rfl, by simp⟩
  | cons a l ih =>
    obtain ⟨b, hb, hQ⟩ := h a List.mem_cons_self
    obtain ⟨l', hl', hlength, hall⟩ := ih fun c hc => h c (List.mem_cons_of_mem _ hc)
    refine ⟨b :: l', ?_, congrArg (· + 1) hlength, List.forall_mem_cons.2 ⟨hQ, hall⟩⟩
    rw [List.mapM_cons, hb, ok_bind, hl']
    rfl

/-- Each pass of a loop that returns does. -/
theorem exists_of_mapM_eq_ok {l' : List β} (h : l.mapM f = .ok l') : ∀ a ∈ l, ∃ b, f a = .ok b := by
  induction l generalizing l' with
  | nil => simp
  | cons a l ih =>
    rw [List.mapM_cons] at h
    obtain ⟨b, hb, h⟩ := bind_eq_ok h
    obtain ⟨l'', hl'', -⟩ := bind_eq_ok h
    exact List.forall_mem_cons.2 ⟨⟨b, hb⟩, ih hl''⟩

variable {g : α → α} {i : ℕ}

theorem forall_mem_modify {P : α → Prop} (hg : ∀ a, P a → P (g a)) (h : ∀ a ∈ l, P a) : ∀ a ∈ l.modify i g, P a := by
  induction l generalizing i with
  | nil => simp
  | cons a l ih =>
    obtain ⟨ha, hl⟩ := List.forall_mem_cons.1 h
    cases i with
    | zero => simpa using ⟨hg a ha, hl⟩
    | succ i => simpa using ⟨ha, ih hl⟩

/-- A view of the elements that the change does not affect. -/
theorem map_modify {γ : Type} {v : α → γ} (hv : ∀ a, v (g a) = v a) : (l.modify i g).map v = l.map v := by
  induction l generalizing i with
  | nil => simp
  | cons a l ih =>
    cases i with
    | zero => simp [hv]
    | succ i => simp [ih]

end List

end Lib
