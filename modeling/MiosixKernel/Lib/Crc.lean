import Mathlib.Algebra.CharP.Two
import Mathlib.Algebra.Field.ZMod
import Mathlib.Algebra.Polynomial.Div
import Mathlib.Data.BitVec
import Mathlib.Data.ZMod.Basic
import Mathlib.Tactic.LinearCombination

/-!
# Cyclic redundancy checks

A message is divided by a polynomial in a register of `w` bits, one bit of the message after the other, the
most significant bit first.

* `crcStep`, `crcBits`: the register after a bit, and after a message;
* `crcBits_xor`: the register is linear;
* **`crcBits_msbFirst`**: a byte is added to the top of the register at once, before the shifts;
* **`crcBits_eq_modByMonic`**: the register holds the remainder.
-/

namespace Lib

variable {w n : ℕ} {poly : BitVec w}

/-- One bit of the message enters at the top. -/
def crcStep (poly crc : BitVec w) (b : Bool) : BitVec w :=
  if (crc.msb ^^ b) = true then crc <<< 1 ^^^ poly else crc <<< 1

/-- The bits of a message enter one after the other. -/
def crcBits (poly crc : BitVec w) (l : List Bool) : BitVec w := l.foldl (crcStep poly) crc

/-- The bits of a word, the most significant one first. -/
def msbFirst (v : BitVec n) : List Bool := List.ofFn fun i : Fin n => v.getMsbD i

@[simp]
theorem crcBits_nil (crc : BitVec w) : crcBits poly crc [] = crc := rfl

@[simp]
theorem crcBits_cons (crc : BitVec w) (b : Bool) (l : List Bool) :
    crcBits poly crc (b :: l) = crcBits poly (crcStep poly crc b) l := rfl

theorem crcBits_append (crc : BitVec w) (l l' : List Bool) :
    crcBits poly crc (l ++ l') = crcBits poly (crcBits poly crc l) l' := List.foldl_append

@[simp]
theorem length_msbFirst (v : BitVec n) : (msbFirst v).length = n := List.length_ofFn

/-! ## Linearity -/

theorem xor_xor_cancel_right (a b p : BitVec w) : a ^^^ p ^^^ (b ^^^ p) = a ^^^ b := by
  rw [BitVec.xor_assoc, BitVec.xor_comm b, ← BitVec.xor_assoc p, BitVec.xor_self, BitVec.zero_xor]

theorem crcStep_xor (poly : BitVec w) (a b : BitVec w) (x y : Bool) :
    crcStep poly (a ^^^ b) (x ^^ y) = crcStep poly a x ^^^ crcStep poly b y := by
  have htop : ((a ^^^ b).msb ^^ (x ^^ y)) = ((a.msb ^^ x) ^^ (b.msb ^^ y)) := by
    rw [BitVec.msb_xor]
    cases a.msb <;> cases b.msb <;> cases x <;> cases y <;> rfl
  unfold crcStep
  rw [htop, BitVec.shiftLeft_xor_distrib]
  cases a.msb ^^ x <;> cases b.msb ^^ y
  · rfl
  · exact BitVec.xor_assoc _ _ _
  · simp only [Bool.true_xor, Bool.not_false, if_true, Bool.false_eq_true, if_false]
    rw [BitVec.xor_assoc, BitVec.xor_comm _ poly, ← BitVec.xor_assoc]
  · exact (xor_xor_cancel_right _ _ poly).symm

/-- **The register is linear** in what it held and in the message. -/
theorem crcBits_xor (poly : BitVec w) (l l' : List Bool) (hl : l.length = l'.length) (a b : BitVec w) :
    crcBits poly (a ^^^ b) (List.zipWith Bool.xor l l') = crcBits poly a l ^^^ crcBits poly b l' := by
  induction l generalizing l' a b with
  | nil => rw [List.zipWith_nil_left, List.length_eq_zero_iff.1 hl.symm, crcBits_nil, crcBits_nil, crcBits_nil]
  | cons x l ih =>
    obtain ⟨y, l', rfl⟩ := List.exists_cons_of_length_pos (hl ▸ Nat.succ_pos _ : 0 < l'.length)
    rw [List.zipWith_cons_cons, crcBits_cons, crcBits_cons, crcBits_cons, crcStep_xor]
    exact ih l' (Nat.succ.inj hl) _ _

/-! ## A byte at a time -/

/-- Shifts of the register, with nothing that enters. -/
def crcShift (poly crc : BitVec w) (n : ℕ) : BitVec w := crcBits poly crc (List.replicate n false)

theorem crcShift_succ (crc : BitVec w) (n : ℕ) :
    crcShift poly crc (n + 1) = crcShift poly (crcStep poly crc false) n := rfl

theorem crcShift_xor (a b : BitVec w) (n : ℕ) :
    crcShift poly (a ^^^ b) n = crcShift poly a n ^^^ crcShift poly b n := by
  have h := crcBits_xor poly (List.replicate n false) (List.replicate n false) rfl a b
  rwa [List.zipWith_replicate, min_self] at h

/-- A register whose top is clear only moves. -/
theorem crcShift_eq_shiftLeft (crc : BitVec w) (n : ℕ) (h : ∀ i < n, crc.getMsbD i = false) :
    crcShift poly crc n = crc <<< n := by
  induction n generalizing crc with
  | zero => exact (BitVec.shiftLeft_zero crc).symm
  | succ n ih =>
    have htop : crc.msb = false := h 0 (Nat.succ_pos n)
    have hstep : crcStep poly crc false = crc <<< 1 := by simp [crcStep, htop]
    rw [crcShift_succ, hstep, ih, ← BitVec.shiftLeft_add, Nat.add_comm]
    intro i hi
    rw [BitVec.getMsbD_shiftLeft]
    exact h (i + 1) (Nat.succ_lt_succ hi)

theorem msbFirst_succ (v : BitVec (n + 1)) : msbFirst v = v.msb :: msbFirst (v.setWidth n) := by
  rw [msbFirst, List.ofFn_succ]
  congr 1
  refine congrArg List.ofFn (funext fun i => ?_)
  simp [BitVec.getMsbD_setWidth, show (i : ℕ) + (n + 1) - n = i + 1 by omega]

/-- A word at the top of the register loses its first bit in a shift. -/
theorem shiftLeft_top (v : BitVec (n + 1)) (h : n + 1 ≤ w) :
    v.setWidth w <<< (w - (n + 1)) <<< 1 = (v.setWidth n).setWidth w <<< (w - n) := by
  rw [← BitVec.shiftLeft_add, show w - (n + 1) + 1 = w - n by omega]
  ext i hi
  simp only [BitVec.getElem_shiftLeft, BitVec.getElem_setWidth, BitVec.getLsbD_setWidth]
  by_cases hlow : i < w - n
  · simp [hlow]
  · simp [hlow, show i - (w - n) < n by omega]

theorem msb_top (v : BitVec (n + 1)) (h : n + 1 ≤ w) : (v.setWidth w <<< (w - (n + 1))).msb = v.msb := by
  simp only [BitVec.msb_eq_getLsbD_last, BitVec.getLsbD_shiftLeft, BitVec.getLsbD_setWidth]
  simp [show w - 1 < w by omega, show ¬ w - 1 < w - (n + 1) by omega, show w - 1 - (w - (n + 1)) = n by omega,
    show n < w by omega]

/-- **A byte at a time**: a word is added to the top of the register, and the register is shifted. -/
theorem crcBits_msbFirst (h : n ≤ w) (crc : BitVec w) (v : BitVec n) :
    crcBits poly crc (msbFirst v) = crcShift poly (crc ^^^ v.setWidth w <<< (w - n)) n := by
  induction n generalizing crc with
  | zero =>
    obtain rfl : v = 0#0 := Subsingleton.elim _ _
    simp [msbFirst, crcShift]
  | succ n ih =>
    have htop : crcStep poly (v.setWidth w <<< (w - (n + 1))) v.msb = v.setWidth w <<< (w - (n + 1)) <<< 1 := by
      rw [crcStep, msb_top v h, Bool.xor_self, if_neg Bool.false_ne_true]
    have hstep := crcStep_xor poly crc (v.setWidth w <<< (w - (n + 1))) v.msb v.msb
    rw [Bool.xor_self, htop, shiftLeft_top v h] at hstep
    rw [msbFirst_succ, crcBits_cons, crcShift_succ, hstep]
    exact ih (Nat.le_of_succ_le h) _ _

/-! ## The division -/

open Polynomial

/-- A bit as a coefficient. -/
def coeffBit (b : Bool) : ZMod 2 := if b then 1 else 0

theorem coeffBit_xor (a b : Bool) : coeffBit (a ^^ b) = coeffBit a + coeffBit b := by
  cases a <;> cases b <;> decide

/-- The polynomial of a register. -/
noncomputable def toPolynomial (v : BitVec w) : (ZMod 2)[X] :=
  ∑ i ∈ Finset.range w, C (coeffBit (v.getLsbD i)) * X ^ i

/-- The polynomial of a message, whose first bit has the highest power. -/
noncomputable def bitsPolynomial : List Bool → (ZMod 2)[X]
  | [] => 0
  | b :: l => C (coeffBit b) * X ^ l.length + bitsPolynomial l

/-- The polynomial that a register of `w` bits divides by. Its highest power is not written. -/
noncomputable def generator (poly : BitVec w) : (ZMod 2)[X] := X ^ w + toPolynomial poly

theorem degree_toPolynomial_lt (v : BitVec w) : (toPolynomial v).degree < w := by
  refine (degree_sum_le _ _).trans_lt ((Finset.sup_lt_iff (WithBot.bot_lt_coe w)).2 fun i hi => ?_)
  exact (degree_C_mul_X_pow_le i _).trans_lt (Nat.cast_lt.2 (Finset.mem_range.1 hi))

theorem monic_generator (poly : BitVec w) : (generator poly).Monic :=
  monic_X_pow_add (degree_toPolynomial_lt poly)

theorem degree_generator (poly : BitVec w) : (generator poly).degree = w :=
  (degree_add_eq_left_of_degree_lt ((degree_toPolynomial_lt poly).trans_eq (degree_X_pow w).symm)).trans
    (degree_X_pow w)

theorem toPolynomial_xor (a b : BitVec w) : toPolynomial (a ^^^ b) = toPolynomial a + toPolynomial b := by
  rw [toPolynomial, toPolynomial, toPolynomial, ← Finset.sum_add_distrib]
  refine Finset.sum_congr rfl fun i _ => ?_
  rw [BitVec.getLsbD_xor, coeffBit_xor, C_add, add_mul]

theorem toPolynomial_shiftLeft (v : BitVec w) :
    toPolynomial (v <<< 1) + C (coeffBit v.msb) * X ^ w = X * toPolynomial v := by
  cases w with
  | zero =>
    obtain rfl : v = 0#0 := Subsingleton.elim _ _
    simp [toPolynomial, coeffBit]
  | succ n =>
    rw [toPolynomial, toPolynomial, Finset.sum_range_succ', Finset.sum_range_succ, mul_add, Finset.mul_sum,
      BitVec.msb_eq_getLsbD_last]
    have hzero : C (coeffBit ((v <<< 1).getLsbD 0)) * X ^ 0 = (0 : (ZMod 2)[X]) := by simp [coeffBit]
    rw [hzero, add_zero]
    refine congrArg₂ (· + ·) (Finset.sum_congr rfl fun i hi => ?_) ?_
    · have hlt : i + 1 < n + 1 := Nat.succ_lt_succ (Finset.mem_range.1 hi)
      rw [BitVec.getLsbD_shiftLeft, decide_eq_true hlt]
      simp only [Bool.true_and, show ¬ i + 1 < 1 by omega, decide_false, Bool.not_false, Nat.add_sub_cancel]
      ring
    · rw [Nat.add_sub_cancel]
      ring

/-- A bit of the message is a step of the division. -/
theorem toPolynomial_crcStep (poly : BitVec w) (crc : BitVec w) (b : Bool) :
    toPolynomial (crcStep poly crc b) + generator poly * C (coeffBit (crc.msb ^^ b)) =
      X * toPolynomial crc + C (coeffBit b) * X ^ w := by
  have hshift := toPolynomial_shiftLeft crc
  rw [coeffBit_xor, C_add]
  by_cases htop : (crc.msb ^^ b) = true
  · have hone : C (coeffBit crc.msb) + C (coeffBit b) = (1 : (ZMod 2)[X]) := by
      rw [← C_add, ← coeffBit_xor, htop]
      exact C_1
    rw [crcStep, if_pos htop, toPolynomial_xor, ← hshift, hone, generator]
    have htwo := CharTwo.add_self_eq_zero (toPolynomial poly)
    linear_combination htwo - X ^ w * hone
  · have hzero : C (coeffBit crc.msb) + C (coeffBit b) = (0 : (ZMod 2)[X]) := by
      rw [← C_add, ← coeffBit_xor, Bool.eq_false_iff.2 htop]
      exact C_0
    rw [crcStep, if_neg htop, ← hshift, hzero]
    linear_combination -X ^ w * hzero

theorem exists_quotient (poly : BitVec w) (crc : BitVec w) (l : List Bool) :
    ∃ q, toPolynomial (crcBits poly crc l) + generator poly * q =
      X ^ l.length * toPolynomial crc + X ^ w * bitsPolynomial l := by
  induction l generalizing crc with
  | nil => exact ⟨0, by simp [bitsPolynomial]⟩
  | cons b l ih =>
    obtain ⟨q, hq⟩ := ih (crcStep poly crc b)
    refine ⟨q + X ^ l.length * C (coeffBit (crc.msb ^^ b)), ?_⟩
    have hstep := toPolynomial_crcStep poly crc b
    rw [crcBits_cons, bitsPolynomial, List.length_cons]
    linear_combination hq + X ^ l.length * hstep

/-- **The register holds the remainder** of the message, with the first value of the register added to its
first bits. -/
theorem crcBits_eq_modByMonic (crc : BitVec w) (l : List Bool) :
    toPolynomial (crcBits poly crc l) =
      (X ^ l.length * toPolynomial crc + X ^ w * bitsPolynomial l) %ₘ generator poly := by
  obtain ⟨q, hq⟩ := exists_quotient poly crc l
  refine (div_modByMonic_unique q _ (monic_generator poly) ⟨hq, ?_⟩).2.symm
  exact (degree_toPolynomial_lt _).trans_eq (degree_generator poly).symm

end Lib
