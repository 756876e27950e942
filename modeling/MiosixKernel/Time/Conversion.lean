import MiosixKernel.Lib.Word
import MiosixKernel.Lib.Loop

/-!
# Time conversion: the model

`TimeConversion` converts between ticks and nanoseconds with 32.32 fixed point factors, and corrects
the way back by a cached round trip offset. The constructor improves the back factor by bisection
and chooses for how long an offset is kept.

* `mul64x32d32`, `TimeConversionFactor`, `convert`;
* `TimeConversion`: `tick2ns`, `ns2tick` (with `readjust`), `computeRoundTripError`;
* the integer part of the constructor: `bisect`, `bestDelta`, `adjustInterval`, `construct`;
* **`mul64x32d32_eq`**: the product is the exact floor modulo `2 ^ 64`.
-/

namespace Miosix

open Lib

/-! ## Fixed point products -/

/-- The lower 32 bits of a 64 bit number. -/
def lo (x : ℕ) : ℕ := x % 2 ^ 32

/-- The upper 32 bits of a 64 bit number. -/
def hi (x : ℕ) : ℕ := x / 2 ^ 32

/-- The 64 bit product of two 32 bit numbers. -/
def mul32x32to64 (a b : ℕ) : ℕ := a * b

/-- Multiply a 64 bit integer by a 32.32 fixed point number and drop the fraction. -/
def mul64x32d32 (a bi bf : ℕ) : ℕ :=
  let aLo := lo a
  let aHi := hi a
  let result := mul32x32to64 bi aLo
  let result := (result + mul32x32to64 bf aHi) % 2 ^ 64
  let bfaLo := mul32x32to64 bf aLo
  let result := (result + hi bfaLo) % 2 ^ 64
  -- a 32x32 -> 32 product, moved to the upper word
  (result + bi * aHi % 2 ^ 32 * 2 ^ 32) % 2 ^ 64

/-- A 32.32 fixed point number. -/
structure TimeConversionFactor where
  integerPart : ℕ
  fractionalPart : ℕ
  integerPart_lt : integerPart < 2 ^ 32
  fractionalPart_lt : fractionalPart < 2 ^ 32
deriving DecidableEq

namespace TimeConversionFactor

/-- Correct the fractional part by `delta`; the integer part does not see a carry. -/
def add (k : TimeConversionFactor) (delta : ℤ) : TimeConversionFactor where
  integerPart := k.integerPart
  fractionalPart := u32 (k.fractionalPart + delta)
  integerPart_lt := k.integerPart_lt
  fractionalPart_lt := u32_lt _

/-- The factor in units of `2 ^ -32`. -/
def val (k : TimeConversionFactor) : ℕ := k.integerPart * 2 ^ 32 + k.fractionalPart

end TimeConversionFactor

/-- Convert a time point with a factor. -/
def convert (x : ℕ) (tcf : TimeConversionFactor) : ℕ :=
  mul64x32d32 x tcf.integerPart tcf.fractionalPart

/-- The magnitude of a signed number, as an unsigned one. -/
def uabs (x : ℤ) : ℕ := u64 (if 0 ≤ x then x else -x)

/-! ## The converter -/

/-- The state of a converter. -/
structure TimeConversion where
  toNs : TimeConversionFactor
  toTick : TimeConversionFactor
  adjustIntervalNs : ℕ
  lastAdjustTimeNs : ℕ
  adjustOffsetNs : ℤ
deriving DecidableEq

namespace TimeConversion

theorem u32_pos : 0 < 2 ^ 32 := by norm_num

theorem thousand_lt_u32 : 1000 < 2 ^ 32 := by norm_num

theorem u32_div_thousand_lt : 4294967 < 2 ^ 32 := by norm_num

/-- The default constructor: one tick is one nanosecond. -/
def ofDefault : TimeConversion :=
  ⟨⟨1, 0, by norm_num, by norm_num⟩, ⟨1, 0, by norm_num, by norm_num⟩, 2 ^ 64 - 1, 0, 0⟩

/-- Ticks to nanoseconds. -/
def tick2ns (tc : TimeConversion) (tick : ℤ) : ℤ := i64 (convert (u64 tick) tc.toNs)

/-- The distance from `uns` to the centre of the cached offset. -/
def adjustDistance (tc : TimeConversion) (uns : ℕ) : ℕ :=
  uabs (i64 (u64 ((uns : ℤ) - tc.lastAdjustTimeNs)))

/-- Replace the cached round trip. -/
def recache (tc : TimeConversion) (last : ℕ) (offset : ℤ) : TimeConversion :=
  { tc with lastAdjustTimeNs := last, adjustOffsetNs := offset }

/-- One round trip around `uns + adjustOffsetNs`. -/
def readjust (tc : TimeConversion) (uns : ℕ) : TimeConversion :=
  let shifted := u64 (uns + tc.adjustOffsetNs)
  let last := convert (convert shifted tc.toTick) tc.toNs
  tc.recache last (i64 (u64 ((shifted : ℤ) - last)))

/-- The readjustment loop, left early once the centre is within half the interval. -/
def readjustLoop (uns : ℕ) : ℕ → TimeConversion → TimeConversion
  | 0, tc => tc
  | i + 1, tc =>
    let tc := tc.readjust uns
    if tc.adjustDistance uns < tc.adjustIntervalNs / 2 then tc else readjustLoop uns i tc

/-- The converter `ns2tick` leaves behind: the offset is recomputed when `ns` is far away. -/
def adjusted (tc : TimeConversion) (ns : ℤ) : TimeConversion :=
  let uns := u64 ns
  if tc.adjustIntervalNs < tc.adjustDistance uns then
    readjustLoop uns 5 (tc.recache tc.lastAdjustTimeNs 0)
  else tc

/-- Nanoseconds to ticks, and the converter afterwards. -/
def ns2tick (tc : TimeConversion) (ns : ℤ) : ℤ × TimeConversion :=
  let tc := tc.adjusted ns
  (i64 (convert (u64 (u64 ns + tc.adjustOffsetNs)) tc.toTick), tc)

/-- The error in ticks of an uncorrected round trip with the back factor moved by `delta`. -/
def computeRoundTripError (toNs toTick : TimeConversionFactor) (tick : ℕ) (delta : ℤ) : ℤ :=
  let adjustedToTick := toTick.add delta
  let ns := convert tick toNs
  let roundTrip := convert ns adjustedToTick
  i64 (u64 ((tick : ℤ) - roundTrip))

/-! ## The constructor -/

/-- The state of the bisection. -/
structure Bisection where
  aDelta : ℤ
  bDelta : ℤ
  aError : ℤ
  bError : ℤ
deriving DecidableEq

/-- One pass of the bisection. -/
def bisectStep (roundTripError : ℤ → ℤ) (s : Bisection) : Except Unit (Flow Bisection Bisection) :=
  let cDelta := (s.aDelta + s.bDelta).tdiv 2
  if cDelta = s.aDelta ∨ cDelta = s.bDelta then .ok (.done s)
  else
    let cError := roundTripError cDelta
    if (0 ≤ s.aError) = (0 ≤ cError) then .ok (.next { s with aDelta := cDelta, aError := cError })
    else .ok (.next { s with bDelta := cDelta, bError := cError })

/-- The binary search between two corrections whose errors have different signs. -/
def bisect (roundTripError : ℤ → ℤ) (fuel : ℕ) (s : Bisection) : Except Unit Bisection :=
  forever () (bisectStep roundTripError) fuel s

/-- The correction of the back factor that the constructor settles on. -/
def bestDelta (toNs toTick : TimeConversionFactor) (fuel : ℕ) : Except Unit ℤ := do
  let longUptimeNs := 2 ^ 62
  let longUptimeTick := convert longUptimeNs toTick
  let err := computeRoundTripError toNs toTick longUptimeTick
  let aDelta : ℤ := toTick.fractionalPart / 40000
  let s : Bisection := ⟨aDelta, -aDelta, err aDelta, err (-aDelta)⟩
  let s ← if (0 ≤ s.aError) ≠ (0 ≤ s.bError) then bisect err fuel s else pure s
  pure (if uabs s.aError < uabs s.bError then s.aDelta else s.bDelta)

/-- Halve the interval until the round trip error over it is below two ticks, at most `n` times. -/
def adjustInterval (toNs toTick : TimeConversionFactor) : ℕ → ℕ → ℕ → ℕ
  | 0, _, interval => interval
  | n + 1, tick, interval =>
    if uabs (computeRoundTripError toNs toTick tick 0) < 2 then interval
    else adjustInterval toNs toTick n (tick / 2) (interval / 2)

/-- The constructor, from the factors that the float computation gives. -/
def construct (toNs toTick : TimeConversionFactor) (fuel : ℕ) : Except Unit TimeConversion := do
  let delta ← bestDelta toNs toTick fuel
  let toTick := toTick.add delta
  let interval := adjustInterval toNs toTick 9 (convert 128000000000 toTick) 128000000000
  pure ⟨toNs, toTick, interval / 2, 0, 0⟩

end TimeConversion

/-! ## Exactness of the product -/

theorem lo_add_hi (x : ℕ) : lo x + 2 ^ 32 * hi x = x := Nat.mod_add_div _ _

/-- The exact product splits along the words of `a`. -/
theorem mul_split (a bi bf : ℕ) :
    a * (bi * 2 ^ 32 + bf) =
      2 ^ 32 * (bi * lo a + bf * hi a + hi (bf * lo a) + bi * hi a * 2 ^ 32) + lo (bf * lo a) := by
  have ha := lo_add_hi a
  have hb := lo_add_hi (bf * lo a)
  calc a * (bi * 2 ^ 32 + bf) = (lo a + 2 ^ 32 * hi a) * (bi * 2 ^ 32 + bf) := by rw [ha]
    _ = 2 ^ 32 * (bi * lo a + bf * hi a + bi * hi a * 2 ^ 32) + bf * lo a := by ring
    _ = 2 ^ 32 * (bi * lo a + bf * hi a + bi * hi a * 2 ^ 32) +
          (lo (bf * lo a) + 2 ^ 32 * hi (bf * lo a)) := by rw [hb]
    _ = _ := by ring

/-- **The product is exact modulo `2 ^ 64`.** -/
theorem mul64x32d32_eq (a bi bf : ℕ) :
    mul64x32d32 a bi bf = a * (bi * 2 ^ 32 + bf) / 2 ^ 32 % 2 ^ 64 := by
  have hlo : lo (bf * lo a) < 2 ^ 32 := Nat.mod_lt _ (by norm_num)
  rw [mul_split, Nat.mul_add_div (by norm_num), Nat.div_eq_of_lt hlo, Nat.add_zero]
  simp only [mul64x32d32, mul32x32to64]
  generalize bi * lo a + bf * hi a = p
  generalize hi (bf * lo a) = q
  generalize bi * hi a = r
  omega

/-- A conversion whose exact result fits in 64 bits is the floor of the exact product. -/
theorem convert_eq {x : ℕ} {k : TimeConversionFactor} (h : x * k.val < 2 ^ 96) :
    convert x k = x * k.val / 2 ^ 32 := by
  have hlt : x * k.val / 2 ^ 32 < 2 ^ 64 := Nat.div_lt_of_lt_mul (by omega)
  rw [convert, mul64x32d32_eq, ← TimeConversionFactor.val, Nat.mod_eq_of_lt hlt]

namespace TimeConversion

/-- A time point whose nanoseconds fit in 63 bits. -/
structure InRange (tc : TimeConversion) (tick : ℤ) : Prop where
  nonneg : 0 ≤ tick
  lt : tick < 2 ^ 63
  ns_lt : tick * tc.toNs.val / 2 ^ 32 < 2 ^ 63

theorem tick2ns_eq {tc : TimeConversion} {tick : ℤ} (h : tc.InRange tick) :
    tc.tick2ns tick = tick * tc.toNs.val / 2 ^ 32 := by
  obtain ⟨h0, hlt, hns⟩ := h
  obtain ⟨n, rfl⟩ := Int.eq_ofNat_of_zero_le h0
  have hnat : n * tc.toNs.val / 2 ^ 32 < 2 ^ 63 := by exact_mod_cast hns
  have hprod : n * tc.toNs.val < 2 ^ 96 := by omega
  rw [tick2ns, u64_natCast (by omega), convert_eq hprod, i64_of_lt hnat]
  norm_num

/-- A later tick is not an earlier time. -/
theorem tick2ns_mono {tc : TimeConversion} {t t' : ℤ} (ht : tc.InRange t) (ht' : tc.InRange t') (h : t ≤ t') :
    tc.tick2ns t ≤ tc.tick2ns t' := by
  rw [tick2ns_eq ht, tick2ns_eq ht']
  exact Int.ediv_le_ediv (by norm_num) (mul_le_mul_of_nonneg_right h (Int.natCast_nonneg _))

end TimeConversion

/-- **The product** is the floor of the exact one modulo `2 ^ 64`, and is that floor where it fits; the
conversion of ticks keeps their order where it does not overflow. -/
theorem mul64x32d32_exact :
    (∀ a bi bf : ℕ, mul64x32d32 a bi bf = a * (bi * 2 ^ 32 + bf) / 2 ^ 32 % 2 ^ 64) ∧
      (∀ a bi bf : ℕ, a * (bi * 2 ^ 32 + bf) / 2 ^ 32 < 2 ^ 64 →
        mul64x32d32 a bi bf = a * (bi * 2 ^ 32 + bf) / 2 ^ 32) ∧
      ∀ (tc : TimeConversion) (t t' : ℤ), tc.InRange t → tc.InRange t' → t ≤ t' → tc.tick2ns t ≤ tc.tick2ns t' := by
  refine ⟨mul64x32d32_eq, fun a bi bf h => ?_, fun tc t t' ht ht' h => TimeConversion.tick2ns_mono ht ht' h⟩
  rw [mul64x32d32_eq, Nat.mod_eq_of_lt h]

/-- The floor of 7 times 1.5, and two ticks of the converter with factor one. -/
theorem mul64x32d32_exact_small :
    mul64x32d32 7 1 (2 ^ 31) = 10 ∧ TimeConversion.ofDefault.tick2ns 5 ≤ TimeConversion.ofDefault.tick2ns 8 := by
  obtain ⟨-, hexact, hmono⟩ := mul64x32d32_exact
  refine ⟨hexact 7 1 (2 ^ 31) (by norm_num), hmono _ 5 8 ?_ ?_ (by norm_num)⟩
  · exact ⟨by norm_num, by norm_num, by norm_num [TimeConversion.ofDefault, TimeConversionFactor.val]⟩
  · exact ⟨by norm_num, by norm_num, by norm_num [TimeConversion.ofDefault, TimeConversionFactor.val]⟩

end Miosix
