import MiosixKernel.Time.Calibrate
import Mathlib.Tactic.LinearCombination

/-!
# Time conversion: the round trip error

`ns2tick` corrects the back conversion by an offset that it keeps for one adjust interval. From the
state that the constructor builds, whatever calls came before, the cache is the round trip around
some time point (`Centred`), and the error of converting a tick to and fro is the drift of the
factors between that time point and the tick, plus the rounding of one conversion.

* `centre`, `sub_centre_le`: a round trip is a contraction by `2 ^ -14`;
* `Centred`, `readjustLoop_centred`, `adjusted_centred`, `after_centred`: the cache along a run;
* `back_mem`: the error of a round trip;
* **`ns2tick_tick2ns_close`**: below two ticks, when the drift over one interval is bounded;
* **`ns2tick_tick2ns_off_180MHz`**: two ticks at 180 MHz, where it is not.
-/

namespace Miosix

open Lib

namespace TimeConversion

/-! ## One round trip, exactly -/

/-- The centre of the round trip around `x`, for factors `A` and `B` in units of `2 ^ -32`. -/
def centre (A B x : ℤ) : ℤ := x * B / 2 ^ 32 * A / 2 ^ 32

theorem centre_bounds {A B x : ℤ} (hA : 0 ≤ A) :
    2 ^ 64 * centre A B x ≤ x * (A * B) ∧
      x * (A * B) < 2 ^ 64 * centre A B x + 2 ^ 32 * A + 2 ^ 64 := by
  unfold centre
  set q := x * B / 2 ^ 32 with hq
  set l := q * A / 2 ^ 32 with hl
  have hq1 : 2 ^ 32 * q ≤ x * B := by omega
  have hq2 : x * B < 2 ^ 32 * q + 2 ^ 32 := by omega
  have hl1 : 2 ^ 32 * l ≤ q * A := by omega
  have hl2 : q * A < 2 ^ 32 * l + 2 ^ 32 := by omega
  have h1 := mul_le_mul_of_nonneg_right hq1 hA
  have h2 := mul_le_mul_of_nonneg_right hq2.le hA
  constructor <;> nlinarith

/-- How far a round trip moves two points apart. -/
theorem sub_centre_le {A B x y : ℤ} (hA0 : 0 ≤ A) (hA : A < 2 ^ 49)
    (hdrift : |A * B - 2 ^ 64| ≤ 2 ^ 50) :
    2 ^ 14 * |(x - centre A B x) - (y - centre A B y)| ≤ |x - y| + 2 ^ 32 := by
  obtain ⟨hx1, hx2⟩ := centre_bounds (B := B) (x := x) hA0
  obtain ⟨hy1, hy2⟩ := centre_bounds (B := B) (x := y) hA0
  set e := A * B - 2 ^ 64 with he
  have hAB : A * B = 2 ^ 64 + e := by omega
  rw [hAB] at hx1 hx2 hy1 hy2
  have hxy : |(x - y) * e| ≤ |x - y| * 2 ^ 50 := by
    rw [abs_mul]; exact mul_le_mul_of_nonneg_left hdrift (abs_nonneg _)
  rw [abs_le] at hxy
  have hd := abs_cases ((x - centre A B x) - (y - centre A B y))
  rcases hd with ⟨h, -⟩ | ⟨h, -⟩ <;> rw [h] <;> nlinarith

/-- The offset that a round trip around `x` leaves. -/
theorem sub_centre_mem {A B x : ℤ} (hA0 : 0 ≤ A) (hA : A < 2 ^ 49)
    (hdrift : |A * B - 2 ^ 64| ≤ 2 ^ 50) (h0 : 0 ≤ x) :
    -x ≤ 2 ^ 14 * (x - centre A B x) ∧ 2 ^ 14 * (x - centre A B x) ≤ x + 2 ^ 32 := by
  obtain ⟨h1, h2⟩ := centre_bounds (B := B) (x := x) hA0
  obtain ⟨hd1, hd2⟩ := abs_le.mp hdrift
  have e1 := mul_le_mul_of_nonneg_left hd1 h0
  have e2 := mul_le_mul_of_nonneg_left hd2 h0
  constructor <;> nlinarith

/-! ## The cached offset -/

/-- The cache was filled by a round trip around `x`. -/
structure Centred (tc : TimeConversion) (x : ℤ) : Prop where
  nonneg : 0 ≤ x
  lt : x < 2 ^ 63 + 2 ^ 50
  last_eq : (tc.lastAdjustTimeNs : ℤ) = centre tc.toNs.val tc.toTick.val x
  offset_eq : tc.adjustOffsetNs = x - tc.lastAdjustTimeNs

/-- The same factors and the same interval. -/
def SameFactors (tc tc' : TimeConversion) : Prop :=
  tc'.toNs = tc.toNs ∧ tc'.toTick = tc.toTick ∧ tc'.adjustIntervalNs = tc.adjustIntervalNs

theorem SameFactors.refl (tc : TimeConversion) : SameFactors tc tc := ⟨rfl, rfl, rfl⟩

theorem SameFactors.trans {a b c : TimeConversion} (h : SameFactors a b) (h' : SameFactors b c) :
    SameFactors a c := ⟨h'.1.trans h.1, h'.2.1.trans h.2.1, h'.2.2.trans h.2.2⟩

theorem SameFactors.calibrated {a b : TimeConversion} (h : SameFactors a b) (ha : a.Calibrated) :
    b.Calibrated := by
  obtain ⟨h1, h2, h3⟩ := h
  constructor <;> simp only [h1, h2, h3]
  exacts [ha.toNs_ge, ha.toNs_lt, ha.toTick_pos, ha.toTick_lt, ha.drift_le, ha.interval_ge,
    ha.interval_le]

section Adjust

variable {tc : TimeConversion}

theorem recache_sameFactors (tc : TimeConversion) (last : ℕ) (offset : ℤ) :
    SameFactors tc (tc.recache last offset) := ⟨rfl, rfl, rfl⟩

theorem recache_centred {last : ℕ} {offset x : ℤ} (h0 : 0 ≤ x) (h1 : x < 2 ^ 63 + 2 ^ 50)
    (hl : (last : ℤ) = centre tc.toNs.val tc.toTick.val x) (ho : offset = x - last) :
    (tc.recache last offset).Centred x := ⟨h0, h1, hl, ho⟩

/-- The exact products of a round trip fit. -/
theorem Calibrated.products_lt (h : tc.Calibrated) {x : ℕ} (hx : (x : ℤ) < 2 ^ 63 + 2 ^ 50) :
    x * tc.toTick.val < 2 ^ 96 ∧ x * tc.toTick.val / 2 ^ 32 * tc.toNs.val < 2 ^ 96 := by
  have hB := h.toTick_lt
  obtain ⟨-, hdrift⟩ := abs_le.mp h.drift_le
  refine ⟨by nlinarith, ?_⟩
  have hq : x * tc.toTick.val / 2 ^ 32 * 2 ^ 32 ≤ x * tc.toTick.val := Nat.div_mul_le_self _ _
  have hq' := Nat.mul_le_mul_right tc.toNs.val hq
  have hAB : (tc.toNs.val : ℤ) * tc.toTick.val ≤ 2 ^ 64 + 2 ^ 50 := by linarith
  have hx' : (x : ℤ) * (tc.toNs.val * tc.toTick.val) ≤ (2 ^ 63 + 2 ^ 50) * (2 ^ 64 + 2 ^ 50) :=
    mul_le_mul hx.le hAB (by positivity) (by norm_num)
  zify at hq' ⊢
  nlinarith

/-- Both conversions of a round trip are exact floors. -/
theorem convert_convert (h : tc.Calibrated) {x : ℕ} (hx : (x : ℤ) < 2 ^ 63 + 2 ^ 50) :
    (convert (convert x tc.toTick) tc.toNs : ℤ) = centre tc.toNs.val tc.toTick.val x := by
  obtain ⟨h1, h2⟩ := h.products_lt hx
  rw [convert_eq h1, convert_eq h2]
  rfl

theorem Calibrated.sub_centre_mem (h : tc.Calibrated) {x : ℤ} (h0 : 0 ≤ x) :
    -x ≤ 2 ^ 14 * (x - centre tc.toNs.val tc.toTick.val x) ∧
      2 ^ 14 * (x - centre tc.toNs.val tc.toTick.val x) ≤ x + 2 ^ 32 :=
  TimeConversion.sub_centre_mem (Int.natCast_nonneg _) (by have := h.toNs_lt; omega) h.drift_le h0

/-- **One pass of the loop** centres the cache on the shifted time point. -/
theorem readjust_centred (h : tc.Calibrated) {uns : ℕ} (h0 : 0 ≤ uns + tc.adjustOffsetNs)
    (h1 : uns + tc.adjustOffsetNs < 2 ^ 63 + 2 ^ 50) :
    (tc.readjust uns).Centred (uns + tc.adjustOffsetNs) := by
  have hu : (u64 (uns + tc.adjustOffsetNs) : ℤ) = uns + tc.adjustOffsetNs :=
    u64_of_mem h0 (by linarith)
  have hc := convert_convert h (x := u64 (uns + tc.adjustOffsetNs)) (by rw [hu]; exact h1)
  rw [hu] at hc
  have hm := h.sub_centre_mem h0
  refine recache_centred h0 h1 hc ?_
  rw [hu, hc]
  generalize centre tc.toNs.val tc.toTick.val (uns + tc.adjustOffsetNs) = c at hm
  exact i64_u64 (by omega) (by omega)

theorem readjust_sameFactors (tc : TimeConversion) (uns : ℕ) : SameFactors tc (tc.readjust uns) :=
  recache_sameFactors tc _ _

/-- The distance to the centre, when it fits in a signed word. -/
theorem adjustDistance_eq {uns : ℕ} (h0 : -2 ^ 63 < (uns : ℤ) - tc.lastAdjustTimeNs)
    (h1 : (uns : ℤ) - tc.lastAdjustTimeNs < 2 ^ 63) :
    (tc.adjustDistance uns : ℤ) = |(uns : ℤ) - tc.lastAdjustTimeNs| := by
  rw [adjustDistance, i64_u64 h0.le h1, uabs]
  rcases abs_cases ((uns : ℤ) - tc.lastAdjustTimeNs) with ⟨h, hs⟩ | ⟨h, hs⟩
  · rw [if_pos hs, h]; exact u64_of_mem hs (by linarith)
  · rw [if_neg (by linarith), h]; exact u64_of_mem (by linarith) (by linarith)

/-- The offset the next pass computes is in reach of the shifted time point. -/
theorem Calibrated.shift_mem (h : tc.Calibrated) {uns : ℕ} (hu0 : 100000 ≤ uns) (hu1 : uns < 2 ^ 63)
    {x : ℤ} (h0 : 0 ≤ x) (h1 : x ≤ 4 * uns) (h2 : x < 2 ^ 63 + 2 ^ 50) :
    0 ≤ uns + (x - centre tc.toNs.val tc.toTick.val x) ∧
      uns + (x - centre tc.toNs.val tc.toTick.val x) ≤ 4 * uns ∧
      uns + (x - centre tc.toNs.val tc.toTick.val x) < 2 ^ 63 + 2 ^ 50 := by
  have hm := h.sub_centre_mem h0
  generalize centre tc.toNs.val tc.toTick.val x = c at hm ⊢
  omega

/-- The distance that the next pass will find between `uns` and its centre. -/
def nextDistance (tc : TimeConversion) (uns : ℕ) : ℤ :=
  |(uns + tc.adjustOffsetNs - centre tc.toNs.val tc.toTick.val (uns + tc.adjustOffsetNs)) -
    tc.adjustOffsetNs|

/-- The shifted time point is in range. -/
structure ShiftOk (tc : TimeConversion) (uns : ℕ) : Prop where
  nonneg : 0 ≤ uns + tc.adjustOffsetNs
  le : uns + tc.adjustOffsetNs ≤ 4 * uns
  lt : uns + tc.adjustOffsetNs < 2 ^ 63 + 2 ^ 50

/-- The cache after one pass, in terms of the state before it. -/
theorem readjust_eqs (h : tc.Calibrated) {uns : ℕ} (hs : tc.ShiftOk uns) :
    ((tc.readjust uns).lastAdjustTimeNs : ℤ) =
        centre tc.toNs.val tc.toTick.val (uns + tc.adjustOffsetNs) ∧
      (tc.readjust uns).adjustOffsetNs = uns + tc.adjustOffsetNs -
        centre tc.toNs.val tc.toTick.val (uns + tc.adjustOffsetNs) := by
  have hc := readjust_centred h hs.nonneg hs.lt
  have hsf := readjust_sameFactors tc uns
  have hlast := hc.last_eq
  rw [hsf.1, hsf.2.1] at hlast
  exact ⟨hlast, hlast ▸ hc.offset_eq⟩

theorem readjust_shiftOk (h : tc.Calibrated) {uns : ℕ} (hu0 : 100000 ≤ uns) (hu1 : uns < 2 ^ 63)
    (hs : tc.ShiftOk uns) : (tc.readjust uns).ShiftOk uns := by
  obtain ⟨h0, h4, h1⟩ := h.shift_mem hu0 hu1 hs.nonneg hs.le hs.lt
  obtain ⟨-, hoff⟩ := readjust_eqs h hs
  constructor <;> rw [hoff] <;> assumption

/-- A pass finds the distance announced before it. -/
theorem readjust_distance (h : tc.Calibrated) {uns : ℕ} (hs : tc.ShiftOk uns) :
    |(uns : ℤ) - (tc.readjust uns).lastAdjustTimeNs| = tc.nextDistance uns := by
  rw [(readjust_eqs h hs).1, nextDistance]
  congr 1
  ring

/-- **A pass divides the distance by `2 ^ 14`**, up to the rounding of one round trip. -/
theorem readjust_nextDistance (h : tc.Calibrated) {uns : ℕ} (hs : tc.ShiftOk uns) :
    2 ^ 14 * (tc.readjust uns).nextDistance uns ≤ tc.nextDistance uns + 2 ^ 32 := by
  have hA := h.toNs_lt
  have hsf := readjust_sameFactors tc uns
  obtain ⟨-, hoff⟩ := readjust_eqs h hs
  have key := sub_centre_le (x := uns + (tc.readjust uns).adjustOffsetNs)
    (y := uns + tc.adjustOffsetNs) (Int.natCast_nonneg _) (by omega) h.drift_le
  rw [← hoff] at key
  have hxy : (uns : ℤ) + (tc.readjust uns).adjustOffsetNs - (uns + tc.adjustOffsetNs) =
      (uns + tc.adjustOffsetNs - centre tc.toNs.val tc.toTick.val (uns + tc.adjustOffsetNs)) -
        tc.adjustOffsetNs := by rw [hoff]; ring
  rw [hxy] at key
  simpa only [nextDistance, hsf.1, hsf.2.1] using key

/-- A pass ends within half the interval, or the next one starts from a distance that is shorter by `2 ^ 14`. -/
theorem readjust_near_or_next (h : tc.Calibrated) {uns : ℕ} (hu0 : 100000 ≤ uns) (hu1 : uns < 2 ^ 63) {i : ℕ}
    (hi : i ≤ 2) (hs : tc.ShiftOk uns) (hM : tc.nextDistance uns ≤ 2 ^ (14 * i + 21) + 2 ^ 19) :
    ((tc.readjust uns).adjustDistance uns : ℤ) = |(uns : ℤ) - (tc.readjust uns).lastAdjustTimeNs| ∧
      (¬(tc.readjust uns).adjustDistance uns < (tc.readjust uns).adjustIntervalNs / 2 → ∃ i', i = i' + 1 ∧
        (tc.readjust uns).ShiftOk uns ∧ (tc.readjust uns).nextDistance uns ≤ 2 ^ (14 * i' + 21) + 2 ^ 19) := by
  have hsf := readjust_sameFactors tc uns
  have hdist := readjust_distance h hs
  have hpow : (2 : ℤ) ^ (14 * i + 21) ≤ 2 ^ 49 := pow_le_pow_right₀ (by norm_num) (by omega)
  have hmem := abs_le.mp (hdist.le.trans (hM.trans (add_le_add_left hpow _)))
  have hword : ((tc.readjust uns).adjustDistance uns : ℤ) = _ := adjustDistance_eq (by omega) (by omega)
  refine ⟨hword, fun hfar => ?_⟩
  rw [hdist] at hword
  rw [hsf.2.2] at hfar
  cases i with
  | zero =>
    have := h.interval_ge
    omega
  | succ i =>
    refine ⟨i, rfl, readjust_shiftOk h hu0 hu1 hs, ?_⟩
    have hnext := readjust_nextDistance h hs
    have hp : (2 : ℤ) ^ (14 * (i + 1) + 21) = 2 ^ 14 * 2 ^ (14 * i + 21) := by
      rw [← pow_add]; congr 1; ring
    rw [hp] at hM
    generalize (tc.readjust uns).nextDistance uns = d' at hnext ⊢
    generalize tc.nextDistance uns = d at hnext hM
    generalize (2 : ℤ) ^ (14 * i + 21) = P at hM ⊢
    omega

/-- **The loop ends close to the time point.** From a distance of `2 ^ (14 * i + 21)` it takes `i`
more passes to be within half the interval. -/
theorem readjustLoop_centred {uns : ℕ} (hu0 : 100000 ≤ uns) (hu1 : uns < 2 ^ 63) (n : ℕ) :
    ∀ (i : ℕ) (tc : TimeConversion), tc.Calibrated → i < n → i ≤ 2 → tc.ShiftOk uns →
      tc.nextDistance uns ≤ 2 ^ (14 * i + 21) + 2 ^ 19 →
      SameFactors tc (readjustLoop uns n tc) ∧ (∃ x, (readjustLoop uns n tc).Centred x) ∧
        |(uns : ℤ) - (readjustLoop uns n tc).lastAdjustTimeNs| ≤ tc.adjustIntervalNs := by
  induction n with
  | zero => intro i tc _ hi; exact absurd hi (Nat.not_lt_zero _)
  | succ n ih =>
    intro i tc h hi hi2 hs hM
    have hsf := readjust_sameFactors tc uns
    obtain ⟨hword, hnext⟩ := readjust_near_or_next h hu0 hu1 hi2 hs hM
    rw [readjustLoop]
    split_ifs with hnear
    · refine ⟨hsf, ⟨_, readjust_centred h hs.nonneg hs.lt⟩, ?_⟩
      rw [hsf.2.2] at hnear
      omega
    · obtain ⟨i, rfl, hs', hM'⟩ := hnext hnear
      obtain ⟨h1, h2, h3⟩ := ih i (tc.readjust uns) (hsf.calibrated h) (by omega) (by omega) hs' hM'
      exact ⟨hsf.trans h1, h2, hsf.2.2 ▸ h3⟩

/-- Where the loop starts. -/
theorem Calibrated.loop_start (h : tc.Calibrated) (last : ℕ) {uns : ℕ} (hu1 : uns < 2 ^ 63) :
    (tc.recache last 0).ShiftOk uns ∧ (tc.recache last 0).nextDistance uns ≤ 2 ^ (14 * 2 + 21) + 2 ^ 19 := by
  have hcal := (recache_sameFactors tc last 0).calibrated h
  have hs : (tc.recache last 0).ShiftOk uns := by
    constructor <;> simp only [recache] <;> omega
  have hm := hcal.sub_centre_mem hs.nonneg
  refine ⟨hs, ?_⟩
  rw [nextDistance, abs_le]
  simp only [recache] at hm ⊢
  generalize centre _ _ _ = c at hm ⊢
  omega

/-- **What `ns2tick` leaves in the cache**: a round trip whose centre is within the interval. -/
theorem adjusted_centred (h : tc.Calibrated) (hc : ∃ x, tc.Centred x) {ns : ℤ}
    (h0 : 100000 ≤ ns) (h1 : ns ≤ 2 ^ 63 - 1) :
    SameFactors tc (tc.adjusted ns) ∧ (∃ x, (tc.adjusted ns).Centred x) ∧
      |ns - (tc.adjusted ns).lastAdjustTimeNs| ≤ tc.adjustIntervalNs := by
  have hu : (u64 ns : ℤ) = ns := u64_of_mem (by omega) (by omega)
  simp only [adjusted]
  split_ifs with hfar
  · have hsf := recache_sameFactors tc tc.lastAdjustTimeNs 0
    have hcal := hsf.calibrated h
    obtain ⟨hs, hd⟩ := h.loop_start tc.lastAdjustTimeNs (show u64 ns < 2 ^ 63 by omega)
    obtain ⟨h2, h3, h4⟩ := readjustLoop_centred (by omega) (by omega) 5 2 _ hcal (by norm_num)
      le_rfl hs hd
    rw [hu] at h4
    exact ⟨hsf.trans h2, h3, h4⟩
  · obtain ⟨x, hx⟩ := hc
    refine ⟨SameFactors.refl tc, ⟨x, hx⟩, ?_⟩
    have hm := h.sub_centre_mem hx.nonneg
    have hI := h.interval_le
    have hxlt := hx.lt
    rw [← hx.last_eq] at hm
    simp only [adjustDistance, uabs, hu] at hfar
    generalize tc.lastAdjustTimeNs = l at hm hfar ⊢
    rw [abs_le]
    unfold i64 u64 at hfar
    split_ifs at hfar <;> omega

end Adjust

/-! ## Runs -/

/-- The converter after a sequence of `ns2tick` calls. -/
def after (tc : TimeConversion) (calls : List ℤ) : TimeConversion :=
  calls.foldl (fun tc ns => (tc.ns2tick ns).2) tc

/-- The arguments that `Thread::nanoSleepUntil` lets through. -/
def NsOk (ns : ℤ) : Prop := 100000 ≤ ns ∧ ns ≤ 2 ^ 63 - 1

/-- **Every run keeps the factors and a centred cache.** -/
theorem after_centred (calls : List ℤ) :
    ∀ tc : TimeConversion, tc.Calibrated → (∃ x, tc.Centred x) → (∀ ns ∈ calls, NsOk ns) →
      SameFactors tc (tc.after calls) ∧ ∃ x, (tc.after calls).Centred x := by
  induction calls with
  | nil => intro tc _ hc _; exact ⟨SameFactors.refl tc, hc⟩
  | cons ns calls ih =>
    intro tc h hc hns
    obtain ⟨h0, h1⟩ := hns ns List.mem_cons_self
    obtain ⟨hsf, hc', -⟩ := adjusted_centred h hc h0 h1
    obtain ⟨hsf', hx⟩ := ih (tc.adjusted ns) (hsf.calibrated h) hc'
      fun n hn => hns n (List.mem_cons_of_mem _ hn)
    exact ⟨hsf.trans hsf', hx⟩

/-! ## The error of a round trip -/

/-- Over one adjust interval the two factors drift apart by so little that, with the rounding of the
back conversion, less than one tick is lost. -/
def DriftBounded (tc : TimeConversion) : Prop :=
  ((tc.adjustIntervalNs : ℤ) + 1) * |(tc.toNs.val : ℤ) * tc.toTick.val - 2 ^ 64| +
    tc.toNs.val * tc.toTick.val ≤ tc.toNs.val * 2 ^ 32

instance (tc : TimeConversion) : Decidable tc.DriftBounded :=
  inferInstanceAs (Decidable (_ ≤ _))

/-- The drift between two points of one interval, in units of `2 ^ -64` ticks. -/
theorem drift_mul_le {A B D t q f e : ℤ} (hA : 0 < A)
    (hcond : (D + 1) * |e| + A * B ≤ A * 2 ^ 32) (htq : (t - q) * A = f) (hf : |f| ≤ 2 ^ 32 * (D + 1)) :
    |(t - q) * e| ≤ 2 ^ 32 * (2 ^ 32 - B) := by
  refine le_of_mul_le_mul_right ?_ hA
  calc |(t - q) * e| * A = |t - q| * A * |e| := by rw [abs_mul]; ring
    _ = |f| * |e| := by rw [← htq, abs_mul, abs_of_pos hA]
    _ ≤ 2 ^ 32 * (D + 1) * |e| := mul_le_mul_of_nonneg_right hf (abs_nonneg e)
    _ = 2 ^ 32 * ((D + 1) * |e|) := by ring
    _ ≤ 2 ^ 32 * (A * 2 ^ 32 - A * B) := mul_le_mul_of_nonneg_left (by linarith) (by norm_num)
    _ = 2 ^ 32 * (2 ^ 32 - B) * A := by ring

/-- **The core estimate.** A time point within `D` of the centre of the round trip around `x` is
converted back to within a tick of where it came from. -/
theorem back_mem {A B D x t l ns : ℤ} (hA : 0 < A) (hB : 0 < B)
    (hcond : (D + 1) * |A * B - 2 ^ 64| + A * B ≤ A * 2 ^ 32) (hl : l = centre A B x)
    (hns : ns = t * A / 2 ^ 32) (hd : |ns - l| ≤ D) :
    (t - 1) * 2 ^ 32 < (x + (ns - l)) * B ∧ (x + (ns - l)) * B < (t + 2) * 2 ^ 32 := by
  unfold centre at hl
  set q := x * B / 2 ^ 32 with hq
  -- the three truncations of the round trip
  obtain ⟨G, hG⟩ : ∃ G, x * B = 2 ^ 32 * q + G := ⟨x * B - 2 ^ 32 * q, by ring⟩
  obtain ⟨F1, hF1⟩ : ∃ F, t * A = 2 ^ 32 * ns + F := ⟨t * A - 2 ^ 32 * ns, by ring⟩
  obtain ⟨F2, hF2⟩ : ∃ F, q * A = 2 ^ 32 * l + F := ⟨q * A - 2 ^ 32 * l, by ring⟩
  have hG' : 0 ≤ G ∧ G < 2 ^ 32 := by omega
  have hF1' : 0 ≤ F1 ∧ F1 < 2 ^ 32 := by omega
  have hF2' : 0 ≤ F2 ∧ F2 < 2 ^ 32 := by omega
  have htq : (t - q) * A = 2 ^ 32 * (ns - l) + (F1 - F2) := by linear_combination hF1 - hF2
  have hf : |2 ^ 32 * (ns - l) + (F1 - F2)| ≤ 2 ^ 32 * (D + 1) := by
    rw [abs_le] at hd ⊢; omega
  have he := abs_le.mp (drift_mul_le hA hcond htq hf)
  have hF : |(F2 - F1) * B| ≤ (2 ^ 32 - 1) * B := by
    rw [abs_mul, abs_of_pos hB]
    exact mul_le_mul_of_nonneg_right (by rw [abs_le]; omega) hB.le
  rw [abs_le] at hF
  have hid : 2 ^ 32 * ((x + (ns - l)) * B) =
      2 ^ 64 * t + (t - q) * (A * B - 2 ^ 64) + 2 ^ 32 * G + (F2 - F1) * B := by
    linear_combination 2 ^ 32 * hG - B * htq
  constructor <;> nlinarith

/-- A tick whose conversion fits in a signed word is below `2 ^ 63 / 1.1`. -/
theorem Calibrated.tick_lt {tc : TimeConversion} (h : tc.Calibrated) {tick : ℤ}
    (hfit : tick * tc.toNs.val / 2 ^ 32 ≤ 2 ^ 63 - 1) : tick * 11 < 2 ^ 63 * 10 := by
  have hA : (11 * 2 ^ 32 : ℤ) ≤ 10 * tc.toNs.val := by have := h.toNs_ge; omega
  have hlt : tick * tc.toNs.val < 2 ^ 95 := by omega
  by_contra hcon
  have := mul_le_mul (not_lt.mp hcon) hA (by norm_num) (by linarith)
  nlinarith

/-- The conversion to nanoseconds is the exact floor when it fits in a signed word. -/
theorem Calibrated.tick2ns_eq {tc : TimeConversion} (h : tc.Calibrated) {tick : ℤ} (h0 : 0 ≤ tick)
    (hfit : tick * tc.toNs.val / 2 ^ 32 ≤ 2 ^ 63 - 1) :
    tc.tick2ns tick = tick * tc.toNs.val / 2 ^ 32 := by
  have hlt := h.tick_lt hfit
  obtain ⟨n, rfl⟩ := Int.eq_ofNat_of_zero_le h0
  have hu : u64 n = n := u64_natCast (by omega)
  have hn : n * tc.toNs.val / 2 ^ 32 < 2 ^ 63 := by zify; omega
  rw [tick2ns, hu, convert_eq (by omega), i64_of_lt hn]
  push_cast
  rfl

/-- The back conversion of a shifted time point whose exact product is known. -/
theorem i64_convert_eq {y : ℤ} {k : TimeConversionFactor} (h0 : 0 ≤ y) (h1 : y < 2 ^ 64)
    (hfit : y * k.val < 2 ^ 95) :
    i64 (convert (u64 y) k) = y * k.val / 2 ^ 32 := by
  obtain ⟨n, rfl⟩ := Int.eq_ofNat_of_zero_le h0
  have hu : u64 n = n := u64_natCast (by omega)
  have hn : n * k.val < 2 ^ 95 := by zify; omega
  rw [hu, convert_eq (by omega), i64_of_lt (by omega)]
  push_cast
  rfl

/-- A calibrated converter with a bounded drift and a centred cache converts a tick to and fro with
an error below two ticks. -/
theorem ns2tick_close {tc : TimeConversion} (h : tc.Calibrated) (hc : ∃ x, tc.Centred x)
    (hdb : tc.DriftBounded) {tick : ℤ} (h0 : 0 ≤ tick)
    (hns : NsOk (tick * tc.toNs.val / 2 ^ 32)) :
    |(tc.ns2tick (tc.tick2ns tick)).1 - tick| < 2 := by
  have hA := h.toNs_ge
  have hB := h.toTick_pos
  have hI := h.interval_le
  have hlt := h.tick_lt hns.2
  rw [h.tick2ns_eq h0 hns.2]
  set ns := tick * (tc.toNs.val : ℤ) / 2 ^ 32 with hnsdef
  obtain ⟨hsf, ⟨x, hx⟩, hd⟩ := adjusted_centred h hc hns.1 hns.2
  have hlast := hx.last_eq
  have hoff := hx.offset_eq
  have hxlt := hx.lt
  rw [hsf.1, hsf.2.1] at hlast
  obtain ⟨h1, h2⟩ := back_mem (by omega) (by omega) hdb hlast hnsdef hd
  have hu : (u64 ns : ℤ) = ns := u64_of_mem (by have := hns.1; omega) (by have := hns.2; omega)
  have hpos : 0 < tick := by
    rcases h0.lt_or_eq with h | h
    · exact h
    · rw [← h, zero_mul, Int.zero_ediv] at hnsdef
      have := hns.1
      omega
  have hshift : ns + (tc.adjusted ns).adjustOffsetNs =
      x + (ns - (tc.adjusted ns).lastAdjustTimeNs) := by rw [hoff]; ring
  have hy0 : 0 ≤ x + (ns - (tc.adjusted ns).lastAdjustTimeNs) := by
    refine le_of_mul_le_mul_right (a := (tc.toTick.val : ℤ)) ?_ (by omega)
    rw [zero_mul]
    linarith [mul_nonneg (by omega : 0 ≤ tick - 1) (by norm_num : (0 : ℤ) ≤ 2 ^ 32)]
  have hres : (tc.ns2tick ns).1 =
      (x + (ns - (tc.adjusted ns).lastAdjustTimeNs)) * tc.toTick.val / 2 ^ 32 := by
    rw [ns2tick, hsf.2.1, hu, hshift]
    exact i64_convert_eq hy0 (by have := abs_le.mp hd; omega) (by omega)
  rw [hres, abs_lt]
  generalize (x + (ns - (tc.adjusted ns).lastAdjustTimeNs)) * (tc.toTick.val : ℤ) = z at h1 h2 ⊢
  constructor <;> omega

/-- **The round trip error stays below two ticks**, in every state that `ns2tick` calls lead to from
a constructed converter whose drift over one adjust interval is bounded. -/
theorem ns2tick_tick2ns_close {toNs toTick : TimeConversionFactor} {hz fuel : ℕ}
    (h : Approximates toNs toTick hz) (hfuel : 2 ^ 18 ≤ fuel) :
    ∃ tc, construct toNs toTick fuel = .ok tc ∧ (tc.DriftBounded →
      ∀ calls : List ℤ, (∀ ns ∈ calls, NsOk ns) →
      ∀ tick : ℤ, 0 ≤ tick → NsOk (tick * toNs.val / 2 ^ 32) →
        |((tc.after calls).ns2tick ((tc.after calls).tick2ns tick)).1 - tick| < 2) := by
  obtain ⟨tc, htc, hcal, hns, hlast, hoff⟩ := construct_calibrated h hfuel
  refine ⟨tc, htc, fun hdb calls hcalls tick h0 hrange => ?_⟩
  -- the empty cache is the round trip around `0`
  have hc : tc.Centred 0 := ⟨le_rfl, by norm_num, by rw [hlast]; simp [centre], by rw [hlast, hoff]; rfl⟩
  obtain ⟨hsf, hx⟩ := after_centred calls tc hcal ⟨0, hc⟩ hcalls
  have hdb' : (tc.after calls).DriftBounded := by
    unfold DriftBounded at hdb ⊢
    rwa [hsf.1, hsf.2.1, hsf.2.2]
  exact ns2tick_close (hsf.calibrated hcal) hx hdb' h0 (by rwa [hsf.1, hns])

/-! ## At 48 MHz and at 180 MHz -/

/-- What the float computation gives for 48 MHz. -/
def toNs48MHz : TimeConversionFactor := ⟨20, 3579142144, by norm_num, by norm_num⟩

def toTick48MHz : TimeConversionFactor := ⟨0, 206158432, u32_pos, by norm_num⟩

theorem approximates_48MHz : Approximates toNs48MHz toTick48MHz 48000000 := by
  constructor <;> norm_num [TimeConversionFactor.val, toNs48MHz, toTick48MHz, abs_lt]

/-- At 48 MHz the drift is bounded, so a round trip after 31 years of uptime is exact to a tick. -/
theorem ns2tick_tick2ns_close_48MHz :
    ∃ tc, construct toNs48MHz toTick48MHz (2 ^ 18) = .ok tc ∧ tc.DriftBounded ∧
      |((tc.after [10 ^ 18]).ns2tick ((tc.after [10 ^ 18]).tick2ns 48000000000000123)).1 -
        48000000000000123| < 2 := by
  obtain ⟨tc, htc, h⟩ := ns2tick_tick2ns_close approximates_48MHz le_rfl
  have hc : construct toNs48MHz toTick48MHz (2 ^ 18) =
      .ok ⟨toNs48MHz, toTick48MHz.add (-8), 32000000000, 0, 0⟩ := by decide +kernel
  have hdb : tc.DriftBounded := by
    rw [hc] at htc
    cases htc
    decide +kernel
  refine ⟨tc, htc, hdb, h hdb [10 ^ 18] ?_ _ (by norm_num) ?_⟩
  · simp [NsOk]
  · norm_num [NsOk, TimeConversionFactor.val, toNs48MHz]

/-- What the float computation gives for 180 MHz. -/
def toNs180MHz : TimeConversionFactor := ⟨5, 2386092032, by norm_num, by norm_num⟩

def toTick180MHz : TimeConversionFactor := ⟨0, 773094144, u32_pos, by norm_num⟩

/-- The converter that the constructor builds for 180 MHz. -/
def tc180MHz : TimeConversion :=
  ⟨toNs180MHz, toTick180MHz.add (-1), 16000000000, 0, 0⟩

/-- **At 180 MHz the drift is not bounded**: after a call at 7.8 days of uptime, a tick 16 s earlier
comes back two ticks too low. -/
theorem ns2tick_tick2ns_off_180MHz :
    Approximates toNs180MHz toTick180MHz 180000000 ∧
      construct toNs180MHz toTick180MHz (2 ^ 18) = .ok tc180MHz ∧ NsOk 676707915947862 ∧
      NsOk (121804549562511 * toNs180MHz.val / 2 ^ 32) ∧
      ¬ |((tc180MHz.after [676707915947862]).ns2tick
        ((tc180MHz.after [676707915947862]).tick2ns 121804549562511)).1 - 121804549562511| < 2 := by
  refine ⟨?_, by decide +kernel, by norm_num [NsOk], ?_, by decide +kernel⟩
  · constructor <;> norm_num [TimeConversionFactor.val, toNs180MHz, toTick180MHz, abs_lt]
  · norm_num [NsOk, TimeConversionFactor.val, toNs180MHz]

end TimeConversion

end Miosix
