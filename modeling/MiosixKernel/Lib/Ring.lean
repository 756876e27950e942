import Mathlib.Data.List.Basic
import Mathlib.Data.Nat.ModEq
import Mathlib.Logic.Function.Basic
import Mathlib.Tactic.Linarith

/-!
# Ring buffers

A ring of `len` slots holds `n` elements from position `get` on, wrapping around at the end.

* `RingPos`: the positions and the count describe a ring;
* `ringContents`: the elements, in the order in which they went in;
* **`ringContents_push`**, **`ringContents_pop`**: writing at the end and reading at the front.
-/

namespace Lib

variable {α : Type} {len put get n : ℕ}

/-- `n` elements from `get` on, with `put` the position after the last one. -/
structure RingPos (len put get n : ℕ) : Prop where
  count : n ≤ len
  get_lt : get < len
  put_eq : put = (get + n) % len

/-- The elements of a ring. -/
def ringContents (len : ℕ) (buffer : ℕ → α) (get n : ℕ) : List α :=
  (List.range n).map fun i => buffer ((get + i) % len)

theorem RingPos.put_lt (h : RingPos len put get n) : put < len := by
  have := h.get_lt
  rw [h.put_eq]
  exact Nat.mod_lt _ (by omega)

theorem RingPos.empty (h : 0 < len) : RingPos len 0 0 0 := ⟨Nat.zero_le _, h, by simp⟩

/-- Adding one to a position of the ring, by comparison. -/
theorem wrap_eq_mod {p : ℕ} (h : p < len) : (if p + 1 = len then 0 else p + 1) = (p + 1) % len := by
  split_ifs with heq
  · rw [heq, Nat.mod_self]
  · rw [Nat.mod_eq_of_lt (by omega)]

theorem RingPos.push (h : RingPos len put get n) (hn : n < len) :
    RingPos len ((put + 1) % len) get (n + 1) := by
  refine ⟨hn, h.get_lt, ?_⟩
  rw [h.put_eq, Nat.mod_add_mod, Nat.add_assoc]

theorem RingPos.pop (h : RingPos len put get n) (hn : 0 < n) :
    RingPos len put ((get + 1) % len) (n - 1) := by
  have := h.get_lt
  refine ⟨by have := h.count; omega, Nat.mod_lt _ (by omega), ?_⟩
  rw [h.put_eq, Nat.mod_add_mod]
  congr 1
  omega

/-- Two positions of the ring closer than its length are different. -/
theorem add_mod_ne {i j : ℕ} (hij : i < j) (hj : j < len) : (get + i) % len ≠ (get + j) % len := by
  intro h
  have hmod : get + i ≡ get + j [MOD len] := h
  have hmod' : i ≡ j [MOD len] := Nat.ModEq.add_left_cancel' get hmod
  rw [Nat.ModEq, Nat.mod_eq_of_lt (by omega), Nat.mod_eq_of_lt hj] at hmod'
  omega

@[simp] theorem length_ringContents (buffer : ℕ → α) : (ringContents len buffer get n).length = n := by
  rw [ringContents, List.length_map, List.length_range]

/-- The position after the last element holds none of them. -/
theorem RingPos.put_ne (h : RingPos len put get n) (hn : n < len) {i : ℕ} (hi : i < n) : (get + i) % len ≠ put := by
  rw [h.put_eq]
  exact add_mod_ne hi hn

/-- What is written there is not seen. -/
theorem ringContents_update (h : RingPos len put get n) (hn : n < len) (buffer : ℕ → α) (x : α) :
    ringContents len (Function.update buffer put x) get n = ringContents len buffer get n := by
  unfold ringContents
  apply List.map_congr_left
  intro i hi
  rw [Function.update_of_ne (h.put_ne hn (List.mem_range.1 hi))]

/-- **Writing at the end** appends to the contents. -/
theorem ringContents_push (h : RingPos len put get n) (hn : n < len) (buffer : ℕ → α) (x : α) :
    ringContents len (Function.update buffer put x) get (n + 1) =
      ringContents len buffer get n ++ [x] := by
  rw [← ringContents_update h hn buffer x]
  unfold ringContents
  rw [List.range_succ, List.map_append, List.map_singleton, ← h.put_eq, Function.update_self]

/-- **Reading at the front** gives the head of the contents. -/
theorem ringContents_pop (h : RingPos len put get n) (hn : 0 < n) (buffer : ℕ → α) :
    ringContents len buffer get n =
      buffer get :: ringContents len buffer ((get + 1) % len) (n - 1) := by
  obtain ⟨m, rfl⟩ : ∃ m, n = m + 1 := ⟨n - 1, by omega⟩
  unfold ringContents
  rw [List.range_succ_eq_map, List.map_cons, Nat.add_zero, Nat.mod_eq_of_lt h.get_lt, List.map_map,
    Nat.add_sub_cancel]
  congr 1
  apply List.map_congr_left
  intro i _
  rw [Function.comp_apply, Nat.mod_add_mod]
  congr 2
  omega

end Lib
