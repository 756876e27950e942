import Mathlib.Data.List.GetD
import Mathlib.Data.List.TakeWhile
import Mathlib.Data.Nat.Digits.Defs

/-!
# Byte memories

* `store`, `load`: writing and reading a range;
* `littleEndian`, `ofLittleEndian`: a number as bytes;
* `loadString`: the bytes up to a zero;
* **`load_store`**, **`load_store_of_disjoint`**, **`loadString_store`**: what is read after a write.
-/

namespace Lib

/-- The memory with `bs` written from `a` on. -/
def store (mem : ℕ → UInt8) (a : ℕ) (bs : List UInt8) : ℕ → UInt8 := fun x =>
  if a ≤ x ∧ x < a + bs.length then bs.getD (x - a) 0 else mem x

/-- `n` bytes from `a` on. -/
def load (mem : ℕ → UInt8) (a n : ℕ) : List UInt8 := (List.range n).map fun i => mem (a + i)

/-- At most `n` bytes from `a` on, up to the first zero. -/
def loadString (mem : ℕ → UInt8) (a n : ℕ) : List UInt8 := (load mem a n).takeWhile (· ≠ 0)

/-- The lowest `k` bytes of a number, the lowest first. -/
def littleEndian : ℕ → ℕ → List UInt8
  | 0, _ => []
  | k + 1, w => UInt8.ofNat w :: littleEndian k (w / 256)

def ofLittleEndian (bs : List UInt8) : ℕ := Nat.ofDigits 256 (bs.map UInt8.toNat)

variable {mem mem' : ℕ → UInt8} {a b n m x : ℕ} {bs : List UInt8}

/-! ## Ranges -/

theorem store_outside (h : x < a ∨ a + bs.length ≤ x) : store mem a bs x = mem x := if_neg (by omega)

@[simp] theorem length_load : (load mem a n).length = n := by simp [load]

theorem load_congr (h : ∀ x, a ≤ x → x < a + n → mem x = mem' x) : load mem a n = load mem' a n := by
  refine List.map_congr_left fun i hi => h _ (Nat.le_add_right a i) ?_
  exact Nat.add_lt_add_left (List.mem_range.1 hi) a

theorem load_add : load mem a (m + n) = load mem a m ++ load mem (a + m) n := by
  unfold load
  rw [List.range_add, List.map_append, List.map_map]
  simp only [Function.comp_def, Nat.add_assoc]

/-- What was written is read. -/
theorem load_store (h : bs.length = n) : load (store mem a bs) a n = bs := by
  subst h
  refine List.ext_getElem length_load fun i _ hi => ?_
  simp only [load, List.getElem_map, List.getElem_range, store]
  rw [if_pos (by omega), Nat.add_sub_cancel_left]
  exact List.getD_eq_getElem _ _ hi

/-- A write elsewhere changes nothing. -/
theorem load_store_of_disjoint (h : a + n ≤ b ∨ b + bs.length ≤ a) : load (store mem b bs) a n = load mem a n :=
  load_congr fun _ _ _ => store_outside (by omega)

/-! ## Strings -/

theorem loadString_congr (h : ∀ x, a ≤ x → x < a + n → mem x = mem' x) : loadString mem a n = loadString mem' a n :=
  congrArg _ (load_congr h)

theorem takeWhile_append_zero {cs : List UInt8} (h : 0 ∉ bs) : (bs ++ 0 :: cs).takeWhile (· ≠ 0) = bs := by
  have hpos : ∀ y ∈ bs, decide (y ≠ 0) = true := fun y hy => decide_eq_true (ne_of_mem_of_not_mem hy h)
  rw [List.takeWhile_append_of_pos hpos, List.takeWhile_cons_of_neg (by simp), List.append_nil]

/-- A string that was written with a zero after it is read. -/
theorem loadString_store (h : 0 ∉ bs) (hn : bs.length < n) : loadString (store mem a (bs ++ [0])) a n = bs := by
  obtain ⟨k, rfl⟩ : ∃ k, n = bs.length + 1 + k := ⟨n - (bs.length + 1), by omega⟩
  rw [loadString, load_add, load_store (by simp), List.append_assoc, List.singleton_append]
  exact takeWhile_append_zero h

/-! ## Numbers -/

@[simp] theorem length_littleEndian (k w : ℕ) : (littleEndian k w).length = k := by
  induction k generalizing w with
  | zero => rfl
  | succ k ih => rw [littleEndian, List.length_cons, ih]

theorem ofLittleEndian_littleEndian (k w : ℕ) : ofLittleEndian (littleEndian k w) = w % 256 ^ k := by
  induction k generalizing w with
  | zero => rw [Nat.pow_zero, Nat.mod_one]; rfl
  | succ k ih =>
    have hdigit : (UInt8.ofNat w).toNat = w % 256 := UInt8.toNat_ofNat'
    rw [littleEndian, ofLittleEndian, List.map_cons, Nat.ofDigits_cons, ← ofLittleEndian, ih, hdigit, Nat.pow_succ',
      Nat.mod_mul]

theorem ofLittleEndian_of_lt {k w : ℕ} (h : w < 256 ^ k) : ofLittleEndian (littleEndian k w) = w := by
  rw [ofLittleEndian_littleEndian, Nat.mod_eq_of_lt h]

end Lib
