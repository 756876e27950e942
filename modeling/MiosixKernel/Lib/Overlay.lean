import MiosixKernel.Lib.Bytes

/-!
# A window onto a byte memory

* `overlay`: the memory with a block of it seen through a window;
* `scribble`: the memory with some bytes of a block changed;
* **`overlay_window`**: a window that holds what the memory holds changes nothing;
* `store_eq_overlay`: a window that is written as a range.
-/

namespace Lib

/-- The memory where the `n` bytes from `base` on are those of the window. -/
def overlay (mem : ℕ → UInt8) (base n : ℕ) (win : ℕ → UInt8) : ℕ → UInt8 := fun x =>
  if base ≤ x ∧ x < base + n then win (x - base) else mem x

/-- The memory where some of the `n` bytes from `base` on are other ones. -/
def scribble (mem : ℕ → UInt8) (base n : ℕ) (others : ℕ → Option UInt8) : ℕ → UInt8 :=
  overlay mem base n fun i => (others i).getD (mem (base + i))

variable {mem : ℕ → UInt8} {base n x : ℕ} {win : ℕ → UInt8}

theorem overlay_inside (h : base ≤ x) (h' : x < base + n) : overlay mem base n win x = win (x - base) := if_pos ⟨h, h'⟩

theorem overlay_outside (h : x < base ∨ base + n ≤ x) : overlay mem base n win x = mem x := if_neg (by omega)

/-- A window that holds what the memory holds. -/
theorem overlay_window (h : ∀ i < n, win i = mem (base + i)) : overlay mem base n win = mem := by
  funext x
  unfold overlay
  split_ifs with hx
  · rw [h _ (by omega), Nat.add_sub_cancel' hx.1]
  · rfl

theorem scribble_outside {others : ℕ → Option UInt8} (h : x < base ∨ base + n ≤ x) :
    scribble mem base n others x = mem x := overlay_outside h

theorem scribble_none {others : ℕ → Option UInt8} (h : ∀ i, others i = none) : scribble mem base n others = mem :=
  overlay_window fun i _ => by rw [h i, Option.getD_none]

/-- Writing the bytes of a window as a range. -/
theorem store_eq_overlay : store mem base (load win 0 n) = overlay mem base n win := by
  funext x
  unfold store overlay
  rw [length_load]
  split_ifs with hx
  · have hlt : x - base < (load win 0 n).length := by rw [length_load]; omega
    rw [List.getD_eq_getElem _ _ hlt]
    simp [load]
  · rfl

theorem store_inside {a : ℕ} {bs : List UInt8} (h : a ≤ x) (h' : x < a + bs.length) :
    store mem a bs x = bs.getD (x - a) 0 := if_pos ⟨h, h'⟩

/-- Two ranges, one after the other. -/
theorem store_append {a : ℕ} {bs cs : List UInt8} : store (store mem a bs) (a + bs.length) cs = store mem a (bs ++ cs) := by
  funext x
  by_cases hb : a ≤ x ∧ x < a + bs.length
  · rw [store_outside (by omega), store_inside hb.1 hb.2, store_inside hb.1 (by rw [List.length_append]; omega),
      List.getD_append _ _ _ _ (by omega)]
  · by_cases hc : a + bs.length ≤ x ∧ x < a + bs.length + cs.length
    · rw [store_inside hc.1 hc.2, store_inside (by omega) (by rw [List.length_append]; omega),
        List.getD_append_right _ _ _ _ (by omega), Nat.sub_add_eq]
    · rw [store_outside (by omega), store_outside (by omega), store_outside (by rw [List.length_append]; omega)]

/-- A window that was read. -/
theorem store_load {a i : ℕ} (hi : i < n) : store win 0 (load mem a n) i = mem (a + i) := by
  have hlt : i - 0 < (load mem a n).length := by rw [length_load]; omega
  rw [store, if_pos (by rw [length_load]; omega), List.getD_eq_getElem _ _ hlt]
  simp [load]

/-- A change of the window is a change of what is seen. -/
theorem store_overlay {a : ℕ} {bs : List UInt8} (h : a + bs.length ≤ n) :
    overlay mem base n (store win a bs) = store (overlay mem base n win) (base + a) bs := by
  funext x
  by_cases hx : base + a ≤ x ∧ x < base + a + bs.length
  · rw [overlay_inside (by omega) (by omega), store, store, if_pos (by omega), if_pos hx, Nat.sub_add_eq]
  · rw [store_outside (by omega)]
    unfold overlay
    split_ifs
    · exact store_outside (by omega)
    · rfl

end Lib
