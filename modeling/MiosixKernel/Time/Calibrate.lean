import MiosixKernel.Time.Conversion
import Mathlib.Tactic.FieldSimp
import Mathlib.Tactic.Positivity
import Mathlib.Algebra.Order.Field.Rat
import Mathlib.Algebra.Order.Field.Basic

/-!
# Time conversion: what the constructor builds

From factors that approximate a frequency between 10 kHz and 900 MHz the constructor returns, and
the converter it returns is *calibrated*: the two factors are inverse up to `2 ^ -14`, and the
adjust interval is between 0.125 s and 64 s.

* `Approximates`, `Calibrated`;
* `product_close`: relative errors of the factors and of the correction multiply out;
* `bisect_mem`, `bisect_terminates`: the bisection stays in range and ends;
* **`construct_calibrated`**.
-/

namespace Miosix

open Lib

namespace TimeConversion

/-- The factors approximate `10 ^ 9 / hz` and `hz / 10 ^ 9` as `floatToFactor` does. -/
structure Approximates (toNs toTick : TimeConversionFactor) (hz : ℕ) : Prop where
  hz_ge : 10000 ≤ hz
  hz_le : hz ≤ 900000000
  toNs_close : |(toNs.val : ℚ) / 2 ^ 32 - 10 ^ 9 / hz| < 10 ^ 9 / (hz : ℚ) / 2 ^ 22 + 1 / 2 ^ 32
  toTick_close : |(toTick.val : ℚ) / 2 ^ 32 - hz / 10 ^ 9| < (hz : ℚ) / 10 ^ 9 / 2 ^ 22 + 1 / 2 ^ 32

/-- What the correctness of a round trip needs of the factors and of the interval. -/
structure Calibrated (tc : TimeConversion) : Prop where
  toNs_ge : 11 * 2 ^ 32 ≤ 10 * tc.toNs.val
  toNs_lt : tc.toNs.val < 2 ^ 49
  toTick_pos : 0 < tc.toTick.val
  toTick_lt : tc.toTick.val < 2 ^ 32
  drift_le : |(tc.toNs.val : ℤ) * tc.toTick.val - 2 ^ 64| ≤ 2 ^ 50
  interval_ge : 125000000 ≤ tc.adjustIntervalNs
  interval_le : tc.adjustIntervalNs ≤ 64000000000

section Factors

variable {toNs toTick : TimeConversionFactor} {hz : ℕ}

theorem Approximates.toNs_rel (h : Approximates toNs toTick hz) :
    |(toNs.val : ℚ) / 2 ^ 32 * (hz / 10 ^ 9) - 1| < 1 / 2 ^ 22 + 1 / 2 ^ 32 := by
  have h1 : (10000 : ℚ) ≤ hz := by exact_mod_cast h.hz_ge
  have h2 : (hz : ℚ) ≤ 900000000 := by exact_mod_cast h.hz_le
  have hpos : (0 : ℚ) < hz / 10 ^ 9 := by positivity
  have hz0 : (hz : ℚ) ≠ 0 := by linarith
  have key := mul_lt_mul_of_pos_right h.toNs_close hpos
  rw [← abs_of_pos hpos, ← abs_mul, abs_of_pos hpos] at key
  have e1 : ((toNs.val : ℚ) / 2 ^ 32 - 10 ^ 9 / hz) * (hz / 10 ^ 9) =
      (toNs.val : ℚ) / 2 ^ 32 * (hz / 10 ^ 9) - 1 := by field_simp
  have e2 : ((10 : ℚ) ^ 9 / hz / 2 ^ 22 + 1 / 2 ^ 32) * (hz / 10 ^ 9) =
      1 / 2 ^ 22 + hz / 10 ^ 9 / 2 ^ 32 := by field_simp
  rw [e1, e2] at key
  have : (hz : ℚ) / 10 ^ 9 / 2 ^ 32 ≤ 1 / 2 ^ 32 := by
    rw [div_div, div_le_div_iff₀ (by norm_num) (by norm_num)]; linarith
  linarith

theorem Approximates.toTick_rel (h : Approximates toNs toTick hz) :
    |(toTick.val : ℚ) / 2 ^ 32 / (hz / 10 ^ 9) - 1| < 1 / 2 ^ 22 + 10 ^ 5 / 2 ^ 32 := by
  have h1 : (10000 : ℚ) ≤ hz := by exact_mod_cast h.hz_ge
  have hpos : (0 : ℚ) < hz / 10 ^ 9 := by positivity
  have hz0 : (hz : ℚ) ≠ 0 := by linarith
  have key := div_lt_div_of_pos_right h.toTick_close hpos
  rw [← abs_of_pos hpos, ← abs_div, abs_of_pos hpos] at key
  have e1 : ((toTick.val : ℚ) / 2 ^ 32 - hz / 10 ^ 9) / (hz / 10 ^ 9) =
      (toTick.val : ℚ) / 2 ^ 32 / (hz / 10 ^ 9) - 1 := by field_simp
  have e2 : ((hz : ℚ) / 10 ^ 9 / 2 ^ 22 + 1 / 2 ^ 32) / (hz / 10 ^ 9) =
      1 / 2 ^ 22 + 10 ^ 9 / hz / 2 ^ 32 := by field_simp
  rw [e1, e2] at key
  have : (10 : ℚ) ^ 9 / hz / 2 ^ 32 ≤ 10 ^ 5 / 2 ^ 32 := by
    rw [div_div, div_le_div_iff₀ (by positivity) (by norm_num)]; nlinarith
  linarith

/-- Relative errors of two factors and of a correction multiply out to less than `2 ^ -14`. -/
theorem product_close {n k k₀ g : ℚ} (hg : 0 < g) (hn : 0 ≤ n) (hk₀ : 0 ≤ k₀)
    (hng : |n * g - 1| < 1 / 2 ^ 22 + 1 / 2 ^ 32) (hkg : |k₀ / g - 1| < 1 / 2 ^ 22 + 10 ^ 5 / 2 ^ 32)
    (hk : |k - k₀| ≤ k₀ / 40000) : |n * k - 1| ≤ 1 / 2 ^ 14 := by
  obtain ⟨ha1, ha2⟩ := abs_lt.mp hng
  obtain ⟨hb1, hb2⟩ := abs_lt.mp hkg
  have hab : n * k₀ = (n * g) * (k₀ / g) := by field_simp
  have hlow : (1 - (1 / 2 ^ 22 + 1 / 2 ^ 32)) * (1 - (1 / 2 ^ 22 + 10 ^ 5 / 2 ^ 32)) ≤ n * k₀ := by
    rw [hab]
    exact mul_le_mul (by linarith) (by linarith) (by norm_num) (mul_nonneg hn hg.le)
  have hupp : n * k₀ ≤ (1 + (1 / 2 ^ 22 + 1 / 2 ^ 32)) * (1 + (1 / 2 ^ 22 + 10 ^ 5 / 2 ^ 32)) := by
    rw [hab]
    exact mul_le_mul (by linarith) (by linarith) (div_nonneg hk₀ hg.le) (by norm_num)
  have hd : |n * k - n * k₀| ≤ n * k₀ / 40000 := by
    rw [← mul_sub, abs_mul, abs_of_nonneg hn, mul_div_assoc]
    exact mul_le_mul_of_nonneg_left hk hn
  obtain ⟨hd1, hd2⟩ := abs_le.mp hd
  norm_num at hlow hupp
  rw [abs_le]
  constructor <;> norm_num <;> linarith

/-- The same bound in units of the fixed point representation. -/
theorem scaled_le {a b c u : ℚ} (hu : 0 < u) (h : |a / u * (b / u) - 1| ≤ c) :
    |a * b - u * u| ≤ c * (u * u) := by
  have e : a / u * (b / u) - 1 = (a * b - u * u) / (u * u) := by field_simp
  rwa [e, abs_div, abs_of_pos (mul_pos hu hu), div_le_iff₀ (mul_pos hu hu)] at h

theorem Approximates.toNs_ge (h : Approximates toNs toTick hz) :
    11 * 2 ^ 32 ≤ 10 * toNs.val := by
  have h1 : (10000 : ℚ) ≤ hz := by exact_mod_cast h.hz_ge
  have h2 : (hz : ℚ) ≤ 900000000 := by exact_mod_cast h.hz_le
  obtain ⟨ha1, -⟩ := abs_lt.mp h.toNs_rel
  have hn : (0 : ℚ) ≤ toNs.val := by positivity
  have : (toNs.val : ℚ) / 2 ^ 32 * (hz / 10 ^ 9) ≤ toNs.val / 2 ^ 32 * (9 / 10) :=
    mul_le_mul_of_nonneg_left (by rw [div_le_div_iff₀] <;> norm_num; linarith) (by positivity)
  have : (11 * 2 ^ 32 : ℚ) ≤ 10 * toNs.val := by
    norm_num at ha1 this ⊢; linarith
  exact_mod_cast this

theorem Approximates.toNs_lt (h : Approximates toNs toTick hz) : toNs.val < 2 ^ 49 := by
  have h1 : (10000 : ℚ) ≤ hz := by exact_mod_cast h.hz_ge
  obtain ⟨-, ha2⟩ := abs_lt.mp h.toNs_rel
  have : (toNs.val : ℚ) / 2 ^ 32 * (1 / 10 ^ 5) ≤ toNs.val / 2 ^ 32 * (hz / 10 ^ 9) :=
    mul_le_mul_of_nonneg_left (by rw [div_le_div_iff₀] <;> norm_num; linarith) (by positivity)
  have : (toNs.val : ℚ) < 2 ^ 49 := by norm_num at ha2 this; linarith
  exact_mod_cast this

theorem Approximates.toTick_mem (h : Approximates toNs toTick hz) :
    40000 < toTick.val ∧ 1000 * toTick.val < 901 * 2 ^ 32 := by
  have h1 : (10000 : ℚ) ≤ hz := by exact_mod_cast h.hz_ge
  have h2 : (hz : ℚ) ≤ 900000000 := by exact_mod_cast h.hz_le
  have hpos : (0 : ℚ) < hz / 10 ^ 9 := by positivity
  obtain ⟨hb1, hb2⟩ := abs_lt.mp h.toTick_rel
  have hlow := (lt_div_iff₀ hpos).mp (neg_lt_sub_iff_lt_add.mp hb1 |> sub_lt_iff_lt_add'.mpr)
  have hupp := (div_lt_iff₀ hpos).mp (sub_lt_iff_lt_add.mp hb2)
  constructor
  · have : (40000 : ℚ) < toTick.val := by norm_num at hlow; linarith
    exact_mod_cast this
  · have : (1000 * toTick.val : ℚ) < 901 * 2 ^ 32 := by norm_num at hupp; linarith
    exact_mod_cast this

end Factors

/-! ## What the constructor builds -/

/-- The midpoint is between the two corrections, whichever is the greater one. -/
theorem midpoint_abs_le {a b D : ℤ} (ha : |a| ≤ D) (hb : |b| ≤ D) : |(a + b).tdiv 2| ≤ D := by
  rw [abs_le] at ha hb ⊢
  rw [Int.tdiv_eq_ediv, show (2 : ℤ).sign = 1 from rfl]
  split_ifs <;> omega

/-- **One pass** of the bisection ends it, or puts the midpoint in the place of one of the two corrections. -/
theorem bisectStep_cases (err : ℤ → ℤ) (s : Bisection) {c : ℤ} (hc : c = (s.aDelta + s.bDelta).tdiv 2) :
    (c = s.aDelta ∨ c = s.bDelta) ∧ bisectStep err s = .ok (.done s) ∨
    ¬ (c = s.aDelta ∨ c = s.bDelta) ∧ (0 ≤ s.aError) = (0 ≤ err c) ∧
      bisectStep err s = .ok (.next { s with aDelta := c, aError := err c }) ∨
    ¬ (c = s.aDelta ∨ c = s.bDelta) ∧ (0 ≤ s.aError) ≠ (0 ≤ err c) ∧
      bisectStep err s = .ok (.next { s with bDelta := c, bError := err c }) := by
  subst hc
  unfold bisectStep
  dsimp only
  split_ifs with hend hsign
  · exact .inl ⟨hend, rfl⟩
  · exact .inr (.inl ⟨hend, hsign, rfl⟩)
  · exact .inr (.inr ⟨hend, hsign, rfl⟩)

/-- The bisection stays between the corrections it starts from. -/
theorem bisect_mem {err : ℤ → ℤ} {D : ℤ} (fuel : ℕ) (s r : Bisection)
    (hs : |s.aDelta| ≤ D ∧ |s.bDelta| ≤ D) (h : bisect err fuel s = .ok r) :
    |r.aDelta| ≤ D ∧ |r.bDelta| ≤ D := by
  refine forever_sound (fun s => |s.aDelta| ≤ D ∧ |s.bDelta| ≤ D)
    (fun r => |r.aDelta| ≤ D ∧ |r.bDelta| ≤ D) ?_ ?_ fuel s r hs h
  · intro s s' ⟨ha, hb⟩ hstep
    have hc := midpoint_abs_le ha hb
    obtain ⟨-, heq⟩ | ⟨-, -, heq⟩ | ⟨-, -, heq⟩ := bisectStep_cases err s rfl <;> rw [heq] at hstep <;> cases hstep
    · exact ⟨hc, hb⟩
    · exact ⟨ha, hc⟩
  · intro s r hs hstep
    obtain ⟨-, heq⟩ | ⟨-, -, heq⟩ | ⟨-, -, heq⟩ := bisectStep_cases err s rfl <;> rw [heq] at hstep <;> cases hstep
    exact hs

theorem bestDelta_abs_le {toNs toTick : TimeConversionFactor} {fuel : ℕ} {delta : ℤ}
    (h : bestDelta toNs toTick fuel = .ok delta) : |delta| ≤ toTick.fractionalPart / 40000 := by
  set D : ℤ := toTick.fractionalPart / 40000 with hD
  have hD0 : 0 ≤ D := by omega
  have hmem : ∀ s : Bisection, |s.aDelta| ≤ D ∧ |s.bDelta| ≤ D →
      |if uabs s.aError < uabs s.bError then s.aDelta else s.bDelta| ≤ D := by
    intro s hs
    split_ifs
    · exact hs.1
    · exact hs.2
  simp only [bestDelta, ← hD] at h
  split_ifs at h with hsign
  · cases hb : bisect (computeRoundTripError toNs toTick (convert (2 ^ 62) toTick)) fuel
      ⟨D, -D, computeRoundTripError toNs toTick (convert (2 ^ 62) toTick) D,
        computeRoundTripError toNs toTick (convert (2 ^ 62) toTick) (-D)⟩ with
    | error e => rw [hb] at h; cases h
    | ok r =>
      rw [hb] at h
      cases h
      exact hmem r (bisect_mem fuel _ r ⟨(abs_of_nonneg hD0).le, by simp [abs_of_nonneg hD0]⟩ hb)
  · cases h
    exact hmem _ ⟨(abs_of_nonneg hD0).le, by simp [abs_of_nonneg hD0]⟩

theorem adjustInterval_le (toNs toTick : TimeConversionFactor) :
    ∀ n tick interval, adjustInterval toNs toTick n tick interval ≤ interval
  | 0, _, _ => le_rfl
  | n + 1, tick, interval => by
    rw [adjustInterval]
    split_ifs
    · exact le_rfl
    · exact (adjustInterval_le toNs toTick n _ _).trans (Nat.div_le_self _ _)

theorem le_adjustInterval (toNs toTick : TimeConversionFactor) :
    ∀ n tick interval, interval / 2 ^ n ≤ adjustInterval toNs toTick n tick interval
  | 0, _, interval => by simp [adjustInterval]
  | n + 1, tick, interval => by
    rw [adjustInterval]
    split_ifs
    · exact Nat.div_le_self _ _
    · rw [pow_succ', ← Nat.div_div_eq_div_mul]
      exact le_adjustInterval toNs toTick n _ _

/-- The bisection ends: every pass brings the two corrections closer. -/
theorem bisect_terminates (err : ℤ → ℤ) {fuel : ℕ} {s : Bisection}
    (hfuel : (s.aDelta - s.bDelta).natAbs < fuel) : ∃ r, bisect err fuel s = .ok r := by
  have hstep : ∀ s : Bisection, True → (∃ s', bisectStep err s = .ok (.next s') ∧ True ∧
      (s'.aDelta - s'.bDelta).natAbs < (s.aDelta - s.bDelta).natAbs) ∨
      ∃ r, bisectStep err s = .ok (.done r) ∧ True := by
    intro s _
    have hc : (s.aDelta + s.bDelta).tdiv 2 * 2 ≤ s.aDelta + s.bDelta + 1 ∧
        s.aDelta + s.bDelta - 1 ≤ (s.aDelta + s.bDelta).tdiv 2 * 2 := by
      rw [Int.tdiv_eq_ediv, show (2 : ℤ).sign = 1 from rfl]
      split_ifs <;> omega
    obtain ⟨-, heq⟩ | ⟨hmid, -, heq⟩ | ⟨hmid, -, heq⟩ := bisectStep_cases err s rfl
    · exact .inr ⟨s, heq, trivial⟩
    · exact .inl ⟨_, heq, trivial, by dsimp only; omega⟩
    · exact .inl ⟨_, heq, trivial, by dsimp only; omega⟩
  obtain ⟨r, hr, -⟩ := forever_total (fun _ => True) (fun _ => True) _ hstep fuel s trivial hfuel
  exact ⟨r, hr⟩

theorem val_add {k : TimeConversionFactor} {delta : ℤ} (h0 : 0 ≤ k.fractionalPart + delta)
    (h1 : k.fractionalPart + delta < 2 ^ 32) : ((k.add delta).val : ℤ) = k.val + delta := by
  simp only [TimeConversionFactor.val, TimeConversionFactor.add]
  push_cast [u32_of_mem h0 h1]
  ring

theorem bestDelta_terminates (toNs toTick : TimeConversionFactor) {fuel : ℕ} (hfuel : 2 ^ 18 ≤ fuel) :
    ∃ delta, bestDelta toNs toTick fuel = .ok delta := by
  have hf := toTick.fractionalPart_lt
  simp only [bestDelta]
  split_ifs with hsign
  · obtain ⟨r, hr⟩ := bisect_terminates
      (computeRoundTripError toNs toTick (convert (2 ^ 62) toTick))
      (s := ⟨toTick.fractionalPart / 40000, -(toTick.fractionalPart / 40000),
        computeRoundTripError toNs toTick (convert (2 ^ 62) toTick)
          (toTick.fractionalPart / 40000),
        computeRoundTripError toNs toTick (convert (2 ^ 62) toTick)
          (-(toTick.fractionalPart / 40000))⟩) (show _ < fuel by dsimp only; omega)
    rw [hr]
    exact ⟨_, rfl⟩
  · exact ⟨_, rfl⟩

section Construct

variable {toNs toTick : TimeConversionFactor} {hz : ℕ}

/-- The corrected back factor: no carry, and at most 25 ppm away. -/
theorem Approximates.val_add (h : Approximates toNs toTick hz) {delta : ℤ}
    (hd : |delta| ≤ toTick.fractionalPart / 40000) :
    ((toTick.add delta).val : ℤ) = toTick.val + delta ∧ |delta| ≤ toTick.val / 40000 := by
  obtain ⟨h1, h2⟩ := h.toTick_mem
  have hf := toTick.fractionalPart_lt
  have hi : toTick.integerPart = 0 := by
    unfold TimeConversionFactor.val at h2; omega
  have hv : toTick.val = toTick.fractionalPart := by simp [TimeConversionFactor.val, hi]
  rw [hv] at h1 h2 ⊢
  rw [abs_le] at hd
  refine ⟨?_, by rw [abs_le]; omega⟩
  rw [TimeConversion.val_add (by omega) (by omega), hv]

theorem Approximates.drift_le (h : Approximates toNs toTick hz) {delta : ℤ}
    (hd : |delta| ≤ toTick.fractionalPart / 40000) :
    |(toNs.val : ℤ) * (toTick.add delta).val - 2 ^ 64| ≤ 2 ^ 50 := by
  obtain ⟨hv, hd'⟩ := h.val_add hd
  have hvq : ((toTick.add delta).val : ℚ) = toTick.val + delta := by exact_mod_cast hv
  have h1 : (10000 : ℚ) ≤ hz := by exact_mod_cast h.hz_ge
  have hk : |((toTick.add delta).val : ℚ) / 2 ^ 32 - toTick.val / 2 ^ 32| ≤
      (toTick.val : ℚ) / 2 ^ 32 / 40000 := by
    have hdq : |(delta : ℚ)| ≤ toTick.val / 40000 := by
      have : |delta| * 40000 ≤ toTick.val := by omega
      rw [le_div_iff₀ (by norm_num)]
      exact_mod_cast this
    rw [hvq, ← sub_div, add_sub_cancel_left, abs_div, abs_of_pos (by norm_num : (0 : ℚ) < 2 ^ 32),
      div_right_comm]
    exact div_le_div_of_nonneg_right hdq (by norm_num)
  have hg : (0 : ℚ) < hz / 10 ^ 9 := by positivity
  have hn : (0 : ℚ) ≤ toNs.val / 2 ^ 32 := div_nonneg (Nat.cast_nonneg _) (by norm_num)
  have hk₀ : (0 : ℚ) ≤ toTick.val / 2 ^ 32 := div_nonneg (Nat.cast_nonneg _) (by norm_num)
  have key := product_close hg hn hk₀ h.toNs_rel h.toTick_rel hk
  have hle := scaled_le (by norm_num : (0 : ℚ) < 2 ^ 32) key
  rw [show (2 : ℚ) ^ 32 * 2 ^ 32 = 2 ^ 64 by norm_num,
    show (1 : ℚ) / 2 ^ 14 * 2 ^ 64 = 2 ^ 50 by norm_num] at hle
  refine (Int.cast_le (R := ℚ)).mp ?_
  push_cast
  exact hle

/-- **The constructor returns a calibrated converter with an empty cache.** -/
theorem construct_calibrated (h : Approximates toNs toTick hz) {fuel : ℕ} (hfuel : 2 ^ 18 ≤ fuel) :
    ∃ tc, construct toNs toTick fuel = .ok tc ∧ tc.Calibrated ∧ tc.toNs = toNs ∧
      tc.lastAdjustTimeNs = 0 ∧ tc.adjustOffsetNs = 0 := by
  obtain ⟨delta, hd⟩ := bestDelta_terminates toNs toTick hfuel
  have hle := bestDelta_abs_le hd
  obtain ⟨hv, hd'⟩ := h.val_add hle
  obtain ⟨h1, h2⟩ := h.toTick_mem
  rw [abs_le] at hd'
  simp only [construct, hd]
  refine ⟨_, rfl, ⟨h.toNs_ge, h.toNs_lt, by dsimp only; omega, by dsimp only; omega,
    h.drift_le hle, ?_, ?_⟩, rfl, rfl, rfl⟩
  · have := le_adjustInterval toNs (toTick.add delta) 9 (convert 128000000000 (toTick.add delta))
      128000000000
    dsimp only
    omega
  · have := adjustInterval_le toNs (toTick.add delta) 9 (convert 128000000000 (toTick.add delta))
      128000000000
    dsimp only
    omega

end Construct

end TimeConversion

end Miosix
