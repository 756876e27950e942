import MiosixKernel.Time.RoundTrip

/-!
# Time conversion: nothing wraps

`uns + adjustOffsetNs` is computed modulo `2 ^ 64`, and so are the products of the conversions. The offset can be
negative, and the one that is kept may come from a later time point. How far it reaches is one drift over the
adjust interval, which the constructor chooses so that it is less than two ticks.

* `Evaluations`, `evaluations`: what a call of `ns2tick` computes, before it is cut to 64 bits;
* `Steady`: the drift over one interval is less than the least time point;
* `roundTrip_drift`, `construct_steady`: what the error that ends the search for the interval says;
* **`ns2tick_exact`**: in every state no sum and no product wraps, and the loop is left by its break.
-/

namespace Miosix

open Lib

namespace TimeConversion

/-! ## What a call computes -/

/-- The sums of the time point and the offset, the numbers that are converted and with which factor, and whether
the loop ended because it was passed five times. -/
structure Evaluations where
  sums : List ℤ
  conversions : List (ℕ × TimeConversionFactor)
  capped : Bool

/-- One pass of the loop: the sum is computed twice, from the same offset. -/
def Evaluations.pass (e : Evaluations) (tc : TimeConversion) (uns : ℕ) : Evaluations where
  sums := (uns + tc.adjustOffsetNs) :: (uns + tc.adjustOffsetNs) :: e.sums
  conversions :=
    let shifted := u64 (uns + tc.adjustOffsetNs)
    (shifted, tc.toTick) :: (convert shifted tc.toTick, tc.toNs) :: e.conversions
  capped := e.capped

/-- What `readjustLoop` computes. -/
def loopEvaluations (uns : ℕ) : ℕ → TimeConversion → Evaluations
  | 0, _ => ⟨[], [], true⟩
  | i + 1, tc =>
    let next := tc.readjust uns
    let rest : Evaluations := if next.adjustDistance uns < next.adjustIntervalNs / 2 then ⟨[], [], false⟩
      else loopEvaluations uns i next
    rest.pass tc uns

/-- What `ns2tick` computes. -/
def evaluations (tc : TimeConversion) (ns : ℤ) : Evaluations :=
  let uns := u64 ns
  let loop : Evaluations := if tc.adjustIntervalNs < tc.adjustDistance uns then
      loopEvaluations uns 5 (tc.recache tc.lastAdjustTimeNs 0)
    else ⟨[], [], false⟩
  let offset := (tc.adjusted ns).adjustOffsetNs
  { loop with
    sums := loop.sums ++ [uns + offset]
    conversions := loop.conversions ++ [(u64 (uns + offset), tc.toTick)] }

/-- Nothing wraps, and the loop is left by its break. -/
structure Evaluations.Exact (e : Evaluations) : Prop where
  sums : ∀ s ∈ e.sums, 0 ≤ s ∧ s < 2 ^ 64
  conversions : ∀ c ∈ e.conversions, c.1 * c.2.val / 2 ^ 32 < 2 ^ 64
  capped : e.capped = false

/-- The time points that share an offset with `100000` are so close that the drift between them is less. -/
def Steady (tc : TimeConversion) : Prop :=
  ((tc.adjustIntervalNs : ℤ) + 100000) * ((tc.toNs.val : ℤ) * tc.toTick.val - 2 ^ 64) ≤ 100000 * 2 ^ 64

/-! ## The interval that the constructor chooses -/

/-- The search ends with an error below two ticks, or after `n` halvings. -/
theorem adjustInterval_cases (toNs toTick : TimeConversionFactor) :
    ∀ n tick interval, ∃ k ≤ n, adjustInterval toNs toTick n tick interval = interval / 2 ^ k ∧
      (k = n ∨ uabs (computeRoundTripError toNs toTick (tick / 2 ^ k) 0) < 2)
  | 0, _, interval => ⟨0, le_rfl, by simp [adjustInterval], .inl rfl⟩
  | n + 1, tick, interval => by
    rw [adjustInterval]
    split_ifs with herr
    · exact ⟨0, Nat.zero_le _, by simp, .inr (by simpa using herr)⟩
    · obtain ⟨k, hk, hres, hend⟩ := adjustInterval_cases toNs toTick n (tick / 2) (interval / 2)
      refine ⟨k + 1, by omega, ?_, ?_⟩
      · rw [hres, Nat.div_div_eq_div_mul, pow_succ']
      · rw [pow_succ', ← Nat.div_div_eq_div_mul]
        exact hend.imp_left (by omega)

@[simp] theorem add_zero_eq (k : TimeConversionFactor) : k.add 0 = k := by
  have := k.fractionalPart_lt
  unfold TimeConversionFactor.add
  congr
  rw [add_zero]
  exact_mod_cast u32_of_mem (Int.natCast_nonneg _) (by exact_mod_cast this)

/-- An error below two ticks bounds the drift over the ticks that were converted. -/
theorem roundTrip_drift {toNs toTick : TimeConversionFactor} {tick : ℕ} (ht : tick < 2 ^ 38)
    (hA : toNs.val < 2 ^ 49) (hB : toTick.val < 2 ^ 32)
    (herr : uabs (computeRoundTripError toNs toTick tick 0) < 2) :
    (tick : ℤ) * ((toNs.val : ℤ) * toTick.val - 2 ^ 64) < 2 ^ 65 + 2 ^ 32 * toTick.val := by
  set A := toNs.val
  set B := toTick.val
  obtain ⟨n, hn⟩ : ∃ n, n = tick * A / 2 ^ 32 := ⟨_, rfl⟩
  obtain ⟨r, hr⟩ : ∃ r, r = n * B / 2 ^ 32 := ⟨_, rfl⟩
  have hTA : tick * A < 2 ^ 87 := by
    calc tick * A < 2 ^ 38 * 2 ^ 49 := Nat.mul_lt_mul'' ht hA
      _ = 2 ^ 87 := by norm_num
  have hnB : n * B < 2 ^ 87 := by
    calc n * B < 2 ^ 55 * 2 ^ 32 := Nat.mul_lt_mul'' (by omega) hB
      _ = 2 ^ 87 := by norm_num
  have hto : convert tick toNs = n := by rw [convert_eq (hTA.trans (by norm_num)), hn]
  have hback : convert n toTick = r := by rw [convert_eq (hnB.trans (by norm_num)), hr]
  have hr' : (r : ℤ) ≤ tick + 1 := by
    rw [computeRoundTripError, add_zero_eq, hto, hback] at herr
    rw [i64_u64 (by omega) (by omega), uabs] at herr
    unfold u64 at herr
    split_ifs at herr <;> omega
  have h1 : tick * A < 2 ^ 32 * n + 2 ^ 32 := by omega
  have h2 : n * B < 2 ^ 32 * r + 2 ^ 32 := by omega
  zify at h1 h2
  have h3 : (tick : ℤ) * A * B ≤ (2 ^ 32 * n + 2 ^ 32) * B := mul_le_mul_of_nonneg_right h1.le (Int.natCast_nonneg _)
  have h4 : (2 ^ 32 * n + 2 ^ 32 : ℤ) * B ≤ 2 ^ 32 * (2 ^ 32 * r + 2 ^ 32) + 2 ^ 32 * B := by linarith
  have h5 : (tick : ℤ) * (A * B - 2 ^ 64) = tick * A * B - 2 ^ 64 * tick := by ring
  rw [h5]
  linarith

/-- The drift over the interval, when the search ended with an error below two ticks. -/
theorem interval_drift {toNs toTick : TimeConversionFactor} {k I : ℕ} (hk : 64000000000 = 2 ^ k * I)
    (hA : toNs.val < 2 ^ 49) (hB : toTick.val < 2 ^ 32) (hdrift : 2 ^ 64 ≤ toNs.val * toTick.val)
    (herr : uabs (computeRoundTripError toNs toTick (convert 128000000000 toTick / 2 ^ k) 0) < 2) :
    2 * ((I : ℤ) * toTick.val * ((toNs.val : ℤ) * toTick.val - 2 ^ 64)) <
      2 ^ 97 + 2 ^ 64 * toTick.val + 2 ^ 32 * ((toNs.val : ℤ) * toTick.val - 2 ^ 64) := by
  have hpow : 0 < 2 ^ k := Nat.two_pow_pos k
  have htick : convert 128000000000 toTick / 2 ^ k = 2 * I * toTick.val / 2 ^ 32 := by
    rw [convert_eq (by omega), Nat.div_div_eq_div_mul, mul_comm (2 ^ 32) (2 ^ k),
      show 128000000000 * toTick.val = 2 ^ k * (2 * I * toTick.val) by
        rw [show (128000000000 : ℕ) = 2 * 64000000000 from rfl, hk]; ring,
      Nat.mul_div_mul_left _ _ hpow]
  rw [htick] at herr
  have hI : I ≤ 64000000000 := by
    rw [hk]
    exact Nat.le_mul_of_pos_left I hpow
  have hlt : 2 * I * toTick.val / 2 ^ 32 < 2 ^ 38 := by
    rw [Nat.div_lt_iff_lt_mul (by norm_num)]
    nlinarith
  have hround := roundTrip_drift hlt hA hB herr
  set A := toNs.val
  set B := toTick.val
  obtain ⟨t, ht⟩ : ∃ t, t = 2 * I * B / 2 ^ 32 := ⟨_, rfl⟩
  rw [← ht] at hround
  have hJ : 2 * I * B < 2 ^ 32 * t + 2 ^ 32 := by omega
  obtain ⟨d, hd⟩ : ∃ d : ℤ, d = A * B - 2 ^ 64 := ⟨_, rfl⟩
  have hd0 : 0 ≤ d := by
    rw [hd]
    have : (2 ^ 64 : ℤ) ≤ A * B := by exact_mod_cast hdrift
    linarith
  zify at hJ
  rw [← hd] at hround ⊢
  calc 2 * ((I : ℤ) * B * d) = 2 * I * B * d := by ring
    _ ≤ (2 ^ 32 * t + 2 ^ 32) * d := mul_le_mul_of_nonneg_right hJ.le hd0
    _ = 2 ^ 32 * (t * d) + 2 ^ 32 * d := by ring
    _ < 2 ^ 97 + 2 ^ 64 * B + 2 ^ 32 * d := by linarith

section Construct

variable {toNs toTick : TimeConversionFactor} {hz : ℕ}

/-- The two factors in units of `2 ^ -32`, without divisions. -/
theorem Approximates.toNs_mul (h : Approximates toNs toTick hz) :
    |(toNs.val : ℤ) * hz - 10 ^ 9 * 2 ^ 32| < 10 ^ 9 * 2 ^ 10 + (hz : ℤ) := by
  have h1 : (10000 : ℚ) ≤ hz := by exact_mod_cast h.hz_ge
  have hz0 : (hz : ℚ) ≠ 0 := by linarith
  have hpos : (0 : ℚ) < hz * 2 ^ 32 := by positivity
  have key := mul_lt_mul_of_pos_right h.toNs_close hpos
  rw [← abs_of_pos hpos, ← abs_mul, abs_of_pos hpos] at key
  have e1 : ((toNs.val : ℚ) / 2 ^ 32 - 10 ^ 9 / hz) * (hz * 2 ^ 32) = toNs.val * hz - 10 ^ 9 * 2 ^ 32 := by
    field_simp
  have e2 : ((10 : ℚ) ^ 9 / hz / 2 ^ 22 + 1 / 2 ^ 32) * (hz * 2 ^ 32) = 10 ^ 9 * 2 ^ 10 + hz := by
    field_simp
  rw [e1, e2] at key
  norm_num at key
  exact (Int.cast_lt (R := ℚ)).mp (by push_cast; exact key)

theorem Approximates.toTick_mul (h : Approximates toNs toTick hz) :
    |(toTick.val : ℤ) * 10 ^ 9 - hz * 2 ^ 32| < (hz : ℤ) * 2 ^ 10 + 10 ^ 9 := by
  have hpos : (0 : ℚ) < 10 ^ 9 * 2 ^ 32 := by positivity
  have key := mul_lt_mul_of_pos_right h.toTick_close hpos
  rw [← abs_of_pos hpos, ← abs_mul, abs_of_pos hpos] at key
  have e1 : ((toTick.val : ℚ) / 2 ^ 32 - hz / 10 ^ 9) * (10 ^ 9 * 2 ^ 32) = toTick.val * 10 ^ 9 - hz * 2 ^ 32 := by
    field_simp
  have e2 : ((hz : ℚ) / 10 ^ 9 / 2 ^ 22 + 1 / 2 ^ 32) * (10 ^ 9 * 2 ^ 32) = hz * 2 ^ 10 + 10 ^ 9 := by
    field_simp
  rw [e1, e2] at key
  exact (Int.cast_lt (R := ℚ)).mp (by push_cast; exact key)

/-- Where a tick is shorter than `100000` ns, two ticks over twice the interval are less than that. -/
theorem drift_le_of_short {I B d : ℤ} (hB : 42954 ≤ B) (hd : d ≤ 2 ^ 50)
    (hint : 2 * (I * B * d) < 2 ^ 97 + 2 ^ 64 * B + 2 ^ 32 * d) : (I + 100000) * d ≤ 100000 * 2 ^ 64 := by
  have hBd : B * d ≤ B * 2 ^ 50 := mul_le_mul_of_nonneg_left hd (by linarith)
  refine le_of_mul_le_mul_left ?_ (show (0 : ℤ) < 2 * B by linarith)
  calc 2 * B * ((I + 100000) * d) = 2 * (I * B * d) + 200000 * (B * d) := by ring
    _ ≤ 2 ^ 97 + 2 ^ 64 * B + 2 ^ 32 * d + 200000 * (B * 2 ^ 50) := by linarith
    _ ≤ 2 * B * (100000 * 2 ^ 64) := by linarith

/-- An interval that is shorter than the `m`-th half is at most the next one. -/
theorem halved_le {k m n I : ℕ} (hk : n = 2 ^ k * I) (hlt : 2 ^ m * I < n) : 2 ^ (m + 1) * I ≤ n := by
  have hmk : m < k := by
    by_contra hcon
    have := Nat.mul_le_mul_right I (Nat.pow_le_pow_right two_pos (not_lt.mp hcon))
    omega
  rw [hk]
  exact Nat.mul_le_mul_right I (Nat.pow_le_pow_right two_pos hmk)

/-- The drift `d` is between two bounds, so that the interval is less than the `m`-th half. -/
theorem drift_le_of_halved {B d l u : ℤ} {k m I : ℕ} (hk : 64000000000 = 2 ^ k * I) (hB : 0 ≤ B) (h0 : 0 ≤ l)
    (hd0 : l ≤ d) (hd1 : d ≤ u) (hint : 2 * (I * B * d) < 2 ^ 97 + 2 ^ 64 * B + 2 ^ 32 * d)
    (hlong : 2 ^ m * (2 ^ 97 + 2 ^ 64 * B + 2 ^ 32 * u) ≤ 128000000000 * (B * l))
    (hshort : (64000000000 + 2 ^ (m + 1) * 100000) * u ≤ 2 ^ (m + 1) * (100000 * 2 ^ 64)) :
    (I + 100000) * d ≤ 100000 * 2 ^ 64 := by
  have hpow : (0 : ℤ) < 2 ^ m := by positivity
  have hhalf : 2 ^ m * I < 64000000000 := by
    by_contra hcon
    have hI : (64000000000 : ℤ) ≤ 2 ^ m * I := by exact_mod_cast not_lt.mp hcon
    have h1 : B * l ≤ B * d := mul_le_mul_of_nonneg_left hd0 hB
    have h2 : 128000000000 * (B * l) ≤ 2 ^ m * (2 * (I * B * d)) :=
      calc 128000000000 * (B * l) ≤ 2 * (64000000000 * (B * d)) := by linarith
        _ ≤ 2 * (2 ^ m * I * (B * d)) := by
          have := mul_le_mul_of_nonneg_right hI ((mul_nonneg hB h0).trans h1)
          linarith
        _ = 2 ^ m * (2 * (I * B * d)) := by ring
    have h3 := mul_lt_mul_of_pos_left hint hpow
    have h4 : 2 ^ m * (2 ^ 97 + 2 ^ 64 * B + 2 ^ 32 * d) ≤ 2 ^ m * (2 ^ 97 + 2 ^ 64 * B + 2 ^ 32 * u) :=
      mul_le_mul_of_nonneg_left (by linarith) hpow.le
    linarith
  have hle : (2 ^ (m + 1) * I : ℤ) ≤ 64000000000 := by exact_mod_cast halved_le hk hhalf
  refine le_of_mul_le_mul_left ?_ (show (0 : ℤ) < 2 ^ (m + 1) by positivity)
  calc 2 ^ (m + 1) * ((I + 100000) * d) = (2 ^ (m + 1) * I + 2 ^ (m + 1) * 100000) * d := by ring
    _ ≤ (64000000000 + 2 ^ (m + 1) * 100000) * d := mul_le_mul_of_nonneg_right (by linarith) (h0.trans hd0)
    _ ≤ (64000000000 + 2 ^ (m + 1) * 100000) * u := mul_le_mul_of_nonneg_left hd1 (by positivity)
    _ ≤ 2 ^ (m + 1) * (100000 * 2 ^ 64) := hshort

/-- At 10 kHz a tick takes `100000` ns, and two ticks over twice the interval would be as long. But there are two
back factors that are too large, and what they leave of the interval is short enough. -/
theorem drift_le_at10kHz {A B I k : ℕ} (hA : |(A : ℤ) * 10000 - 10 ^ 9 * 2 ^ 32| < 10 ^ 9 * 2 ^ 10 + 10000)
    (hB : B ≤ 42951) (hk : 64000000000 = 2 ^ k * I) (hdrift : 2 ^ 64 < A * B)
    (hint : 2 * ((I : ℤ) * B * ((A : ℤ) * B - 2 ^ 64)) < 2 ^ 97 + 2 ^ 64 * B + 2 ^ 32 * ((A : ℤ) * B - 2 ^ 64)) :
    ((I : ℤ) + 100000) * ((A : ℤ) * B - 2 ^ 64) ≤ 100000 * 2 ^ 64 := by
  obtain ⟨hA1, hA2⟩ := abs_lt.mp hA
  have hlow : 42950 ≤ B := by
    by_contra hcon
    have : A * B ≤ A * 42949 := Nat.mul_le_mul_left A (by omega)
    omega
  have hB' : B = 42950 ∨ B = 42951 := by omega
  rcases hB' with rfl | rfl
  · exact drift_le_of_halved (l := 136064530405434) (u := 144860690491334) (m := 2) hk (by norm_num) (by norm_num)
      (by omega) (by omega) hint (by norm_num) (by norm_num)
  · exact drift_le_of_halved (l := 565561157605433) (u := 574357522491335) (m := 4) hk (by norm_num) (by norm_num)
      (by omega) (by omega) hint (by norm_num) (by norm_num)

/-- **The interval that the constructor chooses is steady.** -/
theorem construct_steady (h : Approximates toNs toTick hz) {fuel : ℕ} {tc : TimeConversion}
    (htc : construct toNs toTick fuel = .ok tc) (hcal : tc.Calibrated) : tc.Steady := by
  obtain ⟨delta, hbest, hok⟩ := bind_eq_ok htc
  cases hok
  obtain ⟨hv, hd⟩ := h.val_add (bestDelta_abs_le hbest)
  have hA := hcal.toNs_lt
  have hB := hcal.toTick_lt
  have hdrift := (abs_le.mp hcal.drift_le).2
  obtain ⟨k, hk, hres, hend⟩ := adjustInterval_cases toNs (toTick.add delta) 9
    (convert 128000000000 (toTick.add delta)) 128000000000
  obtain ⟨I, hI⟩ : 2 ^ k ∣ 64000000000 := (pow_dvd_pow 2 hk).trans (by norm_num)
  have hint : adjustInterval toNs (toTick.add delta) 9 (convert 128000000000 (toTick.add delta)) 128000000000 / 2 =
      I := by
    rw [hres, Nat.div_div_eq_div_mul, mul_comm, ← Nat.div_div_eq_div_mul, show 128000000000 / 2 = 64000000000 from rfl,
      hI, Nat.mul_div_cancel_left _ (Nat.two_pow_pos k)]
  simp only [Steady, hint]
  dsimp only at hA hB hdrift
  generalize hAB : (toNs.val : ℤ) * (toTick.add delta).val - 2 ^ 64 = d at hdrift ⊢
  by_cases hneg : d ≤ 0
  · have := mul_nonpos_of_nonneg_of_nonpos (show (0 : ℤ) ≤ I + 100000 by positivity) hneg
    linarith
  · rcases hend with rfl | herr
    · -- the search was given up
      have hI' : (I : ℤ) = 125000000 := by omega
      rw [hI']
      linarith
    · have hbig : 2 ^ 64 < toNs.val * (toTick.add delta).val := by zify; omega
      have hless := interval_drift hI hA hB hbig.le herr
      rw [hAB] at hless
      rw [← hAB] at hless ⊢
      rcases h.hz_ge.eq_or_lt with rfl | hlt
      · refine drift_le_at10kHz (by exact_mod_cast h.toNs_mul) ?_ hI hbig hless
        have htick := abs_lt.mp h.toTick_mul
        push_cast at htick
        rw [abs_le] at hd
        omega
      · refine drift_le_of_short ?_ (hAB ▸ hdrift) hless
        by_contra hcon
        have hmul := (abs_lt.mp h.toNs_mul).2
        have hA1 : ((toNs.val : ℤ) - 1) * 10001 ≤ (toNs.val - 1) * hz :=
          mul_le_mul_of_nonneg_left (by omega) (by have := h.toNs_ge; omega)
        have hAB' : toNs.val * (toTick.add delta).val ≤ toNs.val * 42953 := Nat.mul_le_mul_left _ (by omega)
        have hA2 : ((toNs.val : ℤ) - 1) * 10001 < 10 ^ 9 * 2 ^ 32 + 10 ^ 9 * 2 ^ 10 := by
          rw [sub_mul, one_mul] at hA1
          linarith
        omega

end Construct

/-! ## What a call computes fits -/

section Calls

variable {tc : TimeConversion} {uns : ℕ}

/-- A pass from a shifted time point that is in range. -/
theorem Evaluations.Exact.pass {e : Evaluations} (he : e.Exact) (h : tc.Calibrated) (hs : tc.ShiftOk uns) :
    (e.pass tc uns).Exact := by
  have hu : (u64 (uns + tc.adjustOffsetNs) : ℤ) = uns + tc.adjustOffsetNs :=
    u64_of_mem hs.nonneg (hs.lt.trans (by norm_num))
  have hx : (u64 (uns + tc.adjustOffsetNs) : ℤ) < 2 ^ 63 + 2 ^ 50 := by
    rw [hu]
    exact hs.lt
  obtain ⟨h1, h2⟩ := h.products_lt hx
  have hsum : 0 ≤ uns + tc.adjustOffsetNs ∧ uns + tc.adjustOffsetNs < 2 ^ 64 :=
    ⟨hs.nonneg, hs.lt.trans (by norm_num)⟩
  refine ⟨?_, ?_, he.capped⟩
  · simp only [Evaluations.pass, List.mem_cons]
    rintro s (rfl | rfl | hmem)
    · exact hsum
    · exact hsum
    · exact he.sums s hmem
  · simp only [Evaluations.pass, List.mem_cons]
    rintro c (rfl | rfl | hmem)
    · exact Nat.div_lt_of_lt_mul (by omega)
    · rw [convert_eq h1]
      exact Nat.div_lt_of_lt_mul (by omega)
    · exact he.conversions c hmem

theorem exact_nil : (⟨[], [], false⟩ : Evaluations).Exact := ⟨by simp, by simp, rfl⟩

/-- The loop is left by its break. -/
theorem loopEvaluations_exact (hu0 : 100000 ≤ uns) (hu1 : uns < 2 ^ 63) (n : ℕ) :
    ∀ (i : ℕ) (tc : TimeConversion), tc.Calibrated → i < n → i ≤ 2 → tc.ShiftOk uns →
      tc.nextDistance uns ≤ 2 ^ (14 * i + 21) + 2 ^ 19 → (loopEvaluations uns n tc).Exact := by
  induction n with
  | zero => intro i tc _ hi; exact absurd hi (Nat.not_lt_zero _)
  | succ n ih =>
    intro i tc h hi hi2 hs hM
    obtain ⟨-, hnext⟩ := readjust_near_or_next h hu0 hu1 hi2 hs hM
    rw [loopEvaluations]
    refine Evaluations.Exact.pass ?_ h hs
    split_ifs with hnear
    · exact exact_nil
    · obtain ⟨i, rfl, hs', hM'⟩ := hnext hnear
      exact ih i (tc.readjust uns) ((readjust_sameFactors tc uns).calibrated h) (by omega) (by omega) hs' hM'

/-- A loop that was left by its break would not go on if it could. -/
theorem readjustLoop_of_not_capped {n : ℕ} (h : (loopEvaluations uns n tc).capped = false) (m : ℕ) :
    readjustLoop uns (n + m) tc = readjustLoop uns n tc := by
  induction n generalizing tc with
  | zero => cases h
  | succ n ih =>
    rw [Nat.add_right_comm, readjustLoop, readjustLoop]
    rw [loopEvaluations] at h
    by_cases hnear : (tc.readjust uns).adjustDistance uns < (tc.readjust uns).adjustIntervalNs / 2
    · rw [if_pos hnear, if_pos hnear]
    · rw [if_neg hnear, if_neg hnear]
      rw [if_neg hnear] at h
      exact ih h

/-- **The offset that is kept** does not reach below zero. -/
theorem shift_nonneg (h : tc.Calibrated) (hst : tc.Steady) {x ns : ℤ} (hx : tc.Centred x) (hns : NsOk ns)
    (hd : |ns - tc.lastAdjustTimeNs| ≤ tc.adjustIntervalNs) :
    0 ≤ ns + tc.adjustOffsetNs ∧ ns + tc.adjustOffsetNs < 2 ^ 64 := by
  obtain ⟨hns0, hns1⟩ := hns
  have hoff := hx.offset_eq
  have hx0 := hx.nonneg
  have hxlt := hx.lt
  have hm := h.sub_centre_mem hx0
  rw [← hx.last_eq] at hm
  refine ⟨?_, by omega⟩
  by_cases hle : (tc.lastAdjustTimeNs : ℤ) ≤ x
  · omega
  · have hd' := abs_le.mp hd
    have hbounds := (centre_bounds (A := tc.toNs.val) (B := tc.toTick.val) (x := x) (Int.natCast_nonneg _)).1
    rw [← hx.last_eq] at hbounds
    have hdrift := (abs_le.mp h.drift_le).2
    unfold Steady at hst
    generalize hAB : (tc.toNs.val : ℤ) * tc.toTick.val - 2 ^ 64 = d at hst hdrift
    have hback : 2 ^ 64 * (tc.lastAdjustTimeNs - x) ≤ x * d := by
      rw [← hAB, mul_sub]
      linarith
    have hd0 : 0 ≤ d := by
      by_contra hcon
      have := mul_nonpos_of_nonneg_of_nonpos hx0 (not_le.mp hcon).le
      omega
    -- the centre is at most one interval later than `ns`
    have hfar : 2 ^ 64 * (tc.lastAdjustTimeNs - x) ≤ 2 ^ 64 * ns :=
      calc 2 ^ 64 * (tc.lastAdjustTimeNs - x) ≤ x * d := hback
        _ ≤ (ns + tc.adjustIntervalNs) * d := mul_le_mul_of_nonneg_right (by linarith) hd0
        _ = (ns - 100000) * d + (tc.adjustIntervalNs + 100000) * d := by ring
        _ ≤ (ns - 100000) * 2 ^ 64 + 100000 * 2 ^ 64 :=
          add_le_add (mul_le_mul_of_nonneg_left (hdrift.trans (by norm_num)) (by linarith)) hst
        _ = 2 ^ 64 * ns := by ring
    omega

/-- What one call computes. -/
theorem evaluations_exact (h : tc.Calibrated) (hst : tc.Steady) (hc : ∃ x, tc.Centred x) {ns : ℤ} (hns : NsOk ns) :
    (tc.evaluations ns).Exact := by
  obtain ⟨hsf, ⟨x, hx⟩, hd⟩ := adjusted_centred h hc hns.1 hns.2
  have hu : (u64 ns : ℤ) = ns := u64_of_mem (by have := hns.1; omega) (by have := hns.2; omega)
  have hu0 : 100000 ≤ u64 ns := by have := hns.1; omega
  have hu1 : u64 ns < 2 ^ 63 := by have := hns.2; omega
  have hst' : (tc.adjusted ns).Steady := by
    unfold Steady at hst ⊢
    rwa [hsf.1, hsf.2.1, hsf.2.2]
  obtain ⟨h0, h1⟩ := shift_nonneg (hsf.calibrated h) hst' hx hns (by rwa [hsf.2.2])
  have hloop : (if tc.adjustIntervalNs < tc.adjustDistance (u64 ns) then
      loopEvaluations (u64 ns) 5 (tc.recache tc.lastAdjustTimeNs 0) else ⟨[], [], false⟩ : Evaluations).Exact := by
    split_ifs
    · obtain ⟨hs, hM⟩ := h.loop_start tc.lastAdjustTimeNs hu1
      exact loopEvaluations_exact hu0 hu1 5 2 _ ((recache_sameFactors tc _ _).calibrated h) (by norm_num) le_rfl hs hM
    · exact exact_nil
  refine ⟨?_, ?_, hloop.capped⟩
  · simp only [evaluations, List.mem_append, List.mem_singleton, hu]
    rintro s (hmem | rfl)
    · exact hloop.sums s hmem
    · exact ⟨h0, h1⟩
  · simp only [evaluations, List.mem_append, List.mem_singleton, hu]
    rintro c (hmem | rfl)
    · exact hloop.conversions c hmem
    · have hlt := u64_lt (ns + (tc.adjusted ns).adjustOffsetNs)
      have hB := h.toTick_lt
      refine Nat.div_lt_of_lt_mul ?_
      calc u64 (ns + (tc.adjusted ns).adjustOffsetNs) * tc.toTick.val < 2 ^ 64 * 2 ^ 32 := Nat.mul_lt_mul'' hlt hB
        _ = 2 ^ 32 * 2 ^ 64 := by norm_num

end Calls

/-- **`ns2tick` is exact.** In every state that `ns2tick` calls lead to from a constructed converter, for every time
point that `nanoSleepUntil` lets through, the sums of the time point and the offset fit in 64 bits, no conversion
loses a bit, and the loop is left by its break. -/
theorem ns2tick_exact {toNs toTick : TimeConversionFactor} {hz fuel : ℕ} (h : Approximates toNs toTick hz)
    (hfuel : 2 ^ 18 ≤ fuel) : ∃ tc, construct toNs toTick fuel = .ok tc ∧
      ∀ calls : List ℤ, (∀ ns ∈ calls, NsOk ns) → ∀ ns, NsOk ns → ((tc.after calls).evaluations ns).Exact := by
  obtain ⟨tc, htc, hcal, -, hlast, hoff⟩ := construct_calibrated h hfuel
  refine ⟨tc, htc, fun calls hcalls ns hns => ?_⟩
  have hc : tc.Centred 0 := ⟨le_rfl, by norm_num, by rw [hlast]; simp [centre], by rw [hlast, hoff]; rfl⟩
  obtain ⟨hsf, hx⟩ := after_centred calls tc hcal ⟨0, hc⟩ hcalls
  have hst := construct_steady h htc hcal
  refine evaluations_exact (hsf.calibrated hcal) ?_ hx hns
  unfold Steady at hst ⊢
  rwa [hsf.1, hsf.2.1, hsf.2.2]

/-- At 48 MHz, with the offset of a time point 31 years later. -/
theorem ns2tick_exact_48MHz : ∃ tc, construct toNs48MHz toTick48MHz (2 ^ 18) = .ok tc ∧
    ((tc.after [10 ^ 18]).evaluations 100000).Exact := by
  obtain ⟨tc, htc, h⟩ := ns2tick_exact approximates_48MHz le_rfl
  exact ⟨tc, htc, h [10 ^ 18] (by simp [NsOk]) 100000 (by simp [NsOk])⟩

end TimeConversion

end Miosix
