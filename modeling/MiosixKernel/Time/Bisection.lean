import MiosixKernel.Time.Calibrate
import Mathlib.Logic.Relation

/-!
# Time conversion: the bisection

The constructor looks for the correction of the back factor between two corrections of 25 ppm whose round trip
errors have different signs. The corrected factor has a fraction of 32 bits, and close to one it wraps around.

* `Bracket`: the invariant of the loop; `bisect_bracket`: what the loop returns;
* `ExactSum`: the corrected factor is the sum;
* `Converges`: what the constructor should do; **`converges_iff`**: when it does.
-/

namespace Miosix

open Lib

namespace TimeConversion

variable {toNs toTick : TimeConversionFactor} {err : ℤ → ℤ} {s s' r : Bisection} {D : ℤ}

/-- The corrected factor denotes the sum. -/
def ExactSum (k : TimeConversionFactor) (delta : ℤ) : Prop := ((k.add delta).val : ℤ) = k.val + delta

/-- One more pass through the loop. -/
def Pass (err : ℤ → ℤ) (s s' : Bisection) : Prop := bisectStep err s = .ok (.next s')

/-- Two corrections in range whose errors have different signs. -/
structure Bracket (err : ℤ → ℤ) (D : ℤ) (s : Bisection) : Prop where
  aError : s.aError = err s.aDelta
  bError : s.bError = err s.bDelta
  sign : (0 ≤ s.aError) ≠ (0 ≤ s.bError)
  aDelta_le : |s.aDelta| ≤ D
  bDelta_le : |s.bDelta| ≤ D

theorem Bracket.ne (h : Bracket err D s) : s.aDelta ≠ s.bDelta := by
  intro heq
  exact h.sign (by rw [h.aError, h.bError, heq])

/-- **One pass** keeps the bracket. -/
theorem Bracket.pass (h : Bracket err D s) (hstep : Pass err s s') : Bracket err D s' := by
  have hmid := midpoint_abs_le h.aDelta_le h.bDelta_le
  unfold Pass at hstep
  obtain ⟨-, heq⟩ | ⟨-, hsign, heq⟩ | ⟨-, hsign, heq⟩ := bisectStep_cases err s rfl <;> rw [heq] at hstep <;> cases hstep
  · exact ⟨rfl, h.bError, fun heq => h.sign (hsign.trans heq), hmid, h.bDelta_le⟩
  · exact ⟨h.aError, rfl, hsign, h.aDelta_le, hmid⟩

/-- **Every pass** does. -/
theorem Bracket.passes (h : Bracket err D s) (hrun : Relation.ReflTransGen (Pass err) s s') : Bracket err D s' := by
  induction hrun with
  | refl => exact h
  | tail _ hstep ih => exact ih.pass hstep

/-- The loop is left when the corrections are next to each other. -/
theorem Bracket.done (h : Bracket err D s) (hstep : bisectStep err s = .ok (.done r)) :
    r = s ∧ |s.aDelta - s.bDelta| = 1 := by
  have hne := h.ne
  obtain ⟨hend, heq⟩ | ⟨-, -, heq⟩ | ⟨-, -, heq⟩ := bisectStep_cases err s rfl <;> rw [heq] at hstep <;> cases hstep
  refine ⟨rfl, ?_⟩
  rw [Int.tdiv_eq_ediv, show (2 : ℤ).sign = 1 from rfl] at hend
  have habs := abs_cases (s.aDelta - s.bDelta)
  split_ifs at hend <;> omega

/-- What the loop returns was reached by passes. -/
theorem bisect_passes : ∀ (fuel : ℕ) (s r : Bisection), bisect err fuel s = .ok r →
    Relation.ReflTransGen (Pass err) s r ∧ bisectStep err r = .ok (.done r)
  | 0, _, _, h => by cases h
  | fuel + 1, s, r, h => by
    rw [bisect, forever] at h
    cases hstep : bisectStep err s with
    | error e =>
      rw [hstep] at h
      cases h
    | ok flow =>
      rw [hstep] at h
      cases flow with
      | next s' =>
        obtain ⟨hrun, hdone⟩ := bisect_passes fuel s' r h
        exact ⟨.head hstep hrun, hdone⟩
      | done r' =>
        obtain rfl : r' = r := Except.ok.inj h
        have hr : r' = s := by
          obtain ⟨-, heq⟩ | ⟨-, -, heq⟩ | ⟨-, -, heq⟩ := bisectStep_cases err s rfl <;> rw [heq] at hstep <;> cases hstep
          rfl
        subst hr
        exact ⟨.refl, hstep⟩

/-! ## The constructor -/

/-- The round trip error at the time point of the constructor, for a correction. -/
def longUptimeError (toNs toTick : TimeConversionFactor) : ℤ → ℤ :=
  computeRoundTripError toNs toTick (convert (2 ^ 62) toTick)

/-- The two corrections of 25 ppm. -/
def firstBracket (toNs toTick : TimeConversionFactor) : Bisection :=
  ⟨toTick.fractionalPart / 40000, -(toTick.fractionalPart / 40000),
    longUptimeError toNs toTick (toTick.fractionalPart / 40000),
    longUptimeError toNs toTick (-(toTick.fractionalPart / 40000))⟩

/-- The errors of two corrections have different signs. -/
def SignsDiffer (err : ℤ → ℤ) (s : Bisection) : Prop := (0 ≤ err s.aDelta) ≠ (0 ≤ err s.bDelta)

/-- The corrections that are tried: a pass replaces one of the two by the midpoint that it tries. There are no
passes if the errors of the first two have the same sign. -/
def Reached (toNs toTick : TimeConversionFactor) (s : Bisection) : Prop :=
  s = firstBracket toNs toTick ∨ SignsDiffer (longUptimeError toNs toTick) (firstBracket toNs toTick) ∧
    Relation.ReflTransGen (Pass (longUptimeError toNs toTick)) (firstBracket toNs toTick) s

/-- The better one of two corrections. -/
def Better (err : ℤ → ℤ) (s : Bisection) (delta : ℤ) : Prop :=
  (delta = s.aDelta ∨ delta = s.bDelta) ∧ |err delta| ≤ |err s.aDelta| ∧ |err delta| ≤ |err s.bDelta|

/-- What the constructor should do. -/
structure Converges (toNs toTick : TimeConversionFactor) : Prop where
  terminates : ∀ fuel, 2 ^ 18 ≤ fuel → ∃ delta, bestDelta toNs toTick fuel = .ok delta
  /-- While the loop runs the errors have different signs. -/
  sign : ∀ s, Relation.ReflTransGen (Pass (longUptimeError toNs toTick)) (firstBracket toNs toTick) s →
    SignsDiffer (longUptimeError toNs toTick) (firstBracket toNs toTick) → SignsDiffer (longUptimeError toNs toTick) s
  /-- The loop is left with corrections next to each other, and the better one is chosen. -/
  chosen : ∀ fuel delta, bestDelta toNs toTick fuel = .ok delta → ∃ s, Reached toNs toTick s ∧
    Better (longUptimeError toNs toTick) s delta ∧
    (SignsDiffer (longUptimeError toNs toTick) (firstBracket toNs toTick) → |s.aDelta - s.bDelta| ≤ 1)
  /-- Nothing that is tried or applied wraps around. -/
  exact : ∀ s, Reached toNs toTick s → ExactSum toTick s.aDelta ∧ ExactSum toTick s.bDelta
  applied : ∀ fuel delta, bestDelta toNs toTick fuel = .ok delta →
    ExactSum toTick delta ∧ ExactSum (toTick.add delta) 0

/-- A sum is exact if its fraction fits in 32 bits. -/
theorem exactSum_iff {k : TimeConversionFactor} {delta : ℤ} :
    ExactSum k delta ↔ 0 ≤ k.fractionalPart + delta ∧ k.fractionalPart + delta < 2 ^ 32 := by
  have hu := u32_lt (k.fractionalPart + delta)
  refine ⟨fun h => ?_, fun h => val_add h.1 h.2⟩
  unfold ExactSum TimeConversionFactor.val TimeConversionFactor.add at h
  push_cast at h
  have heq : (u32 (k.fractionalPart + delta) : ℤ) = k.fractionalPart + delta := by linarith
  omega

theorem uabs_i64 (x : ℤ) : (uabs (i64 (u64 x)) : ℤ) = |i64 (u64 x)| := by
  have hlo : -2 ^ 63 ≤ i64 (u64 x) ∧ i64 (u64 x) < 2 ^ 63 := by
    have := u64_lt x
    unfold i64
    split_ifs <;> omega
  have habs := abs_cases (i64 (u64 x))
  unfold uabs
  rw [u64_of_mem] <;> split_ifs <;> omega

/-- The comparison of the constructor finds the better correction. -/
theorem better_of_uabs (s : Bisection) (ha : s.aError = longUptimeError toNs toTick s.aDelta)
    (hb : s.bError = longUptimeError toNs toTick s.bDelta) :
    Better (longUptimeError toNs toTick) s (if uabs s.aError < uabs s.bError then s.aDelta else s.bDelta) := by
  have habs : ∀ delta, (uabs (longUptimeError toNs toTick delta) : ℤ) = |longUptimeError toNs toTick delta| :=
    fun delta => uabs_i64 _
  rw [ha, hb]
  by_cases h : uabs (longUptimeError toNs toTick s.aDelta) < uabs (longUptimeError toNs toTick s.bDelta)
  · rw [if_pos h]
    refine ⟨.inl rfl, le_rfl, ?_⟩
    rw [← habs, ← habs]
    exact_mod_cast h.le
  · rw [if_neg h]
    refine ⟨.inr rfl, ?_, le_rfl⟩
    rw [← habs, ← habs]
    exact_mod_cast not_lt.1 h

theorem firstBracket_abs_le (toNs toTick : TimeConversionFactor) :
    |(firstBracket toNs toTick).aDelta| ≤ toTick.fractionalPart / 40000 ∧
      |(firstBracket toNs toTick).bDelta| ≤ toTick.fractionalPart / 40000 := by
  have hD : (0 : ℤ) ≤ toTick.fractionalPart / 40000 := by positivity
  exact ⟨(abs_of_nonneg hD).le, (abs_neg _).trans_le (abs_of_nonneg hD).le⟩

theorem firstBracket_bracket (h : SignsDiffer (longUptimeError toNs toTick) (firstBracket toNs toTick)) :
    Bracket (longUptimeError toNs toTick) (toTick.fractionalPart / 40000) (firstBracket toNs toTick) where
  aError := rfl
  bError := rfl
  sign := h
  aDelta_le := (firstBracket_abs_le toNs toTick).1
  bDelta_le := (firstBracket_abs_le toNs toTick).2

theorem Reached.abs_le (h : Reached toNs toTick s) :
    |s.aDelta| ≤ toTick.fractionalPart / 40000 ∧ |s.bDelta| ≤ toTick.fractionalPart / 40000 := by
  rcases h with rfl | ⟨hsign, hrun⟩
  · exact firstBracket_abs_le toNs toTick
  · have hs := (firstBracket_bracket hsign).passes hrun
    exact ⟨hs.aDelta_le, hs.bDelta_le⟩

/-- The correction that is applied. -/
theorem bestDelta_chosen {fuel : ℕ} {delta : ℤ} (h : bestDelta toNs toTick fuel = .ok delta) :
    ∃ s, Reached toNs toTick s ∧ Better (longUptimeError toNs toTick) s delta ∧
      (SignsDiffer (longUptimeError toNs toTick) (firstBracket toNs toTick) → |s.aDelta - s.bDelta| ≤ 1) := by
  simp only [bestDelta] at h
  split_ifs at h with hsign
  · obtain ⟨s, hs, h⟩ := bind_eq_ok h
    obtain ⟨hrun, hdone⟩ := bisect_passes fuel _ s hs
    have hbracket := (firstBracket_bracket hsign).passes hrun
    obtain rfl := Except.ok.inj h
    exact ⟨s, .inr ⟨hsign, hrun⟩, better_of_uabs s hbracket.aError hbracket.bError, fun _ => (hbracket.done hdone).2.le⟩
  · obtain rfl := Except.ok.inj h
    exact ⟨_, .inl rfl, better_of_uabs (firstBracket toNs toTick) rfl rfl, fun hd => absurd hd hsign⟩

/-- **The bisection** ends, keeps errors of different signs, and finds the better one of two corrections next to
each other, for all factors. The corrections can be added exactly when the fraction is not within 25 ppm of the
end of its range. -/
theorem converges_iff (toNs toTick : TimeConversionFactor) :
    Converges toNs toTick ↔ toTick.fractionalPart + toTick.fractionalPart / 40000 < 2 ^ 32 := by
  constructor
  · intro h
    have hexact := (h.exact _ (.inl rfl)).1
    have hlt := (exactSum_iff.1 hexact).2
    change (toTick.fractionalPart : ℤ) + toTick.fractionalPart / 40000 < 2 ^ 32 at hlt
    omega
  · intro hlt
    have hsum : ∀ delta : ℤ, |delta| ≤ toTick.fractionalPart / 40000 → ExactSum toTick delta := by
      intro delta hd
      obtain ⟨hlo, hhi⟩ := abs_le.1 hd
      exact exactSum_iff.2 ⟨by omega, by omega⟩
    refine ⟨fun fuel hfuel => bestDelta_terminates toNs toTick hfuel, fun s hrun hsign => ?_,
      fun fuel delta h => bestDelta_chosen h, fun s hs => ⟨hsum _ hs.abs_le.1, hsum _ hs.abs_le.2⟩, fun fuel delta h => ?_⟩
    · have hs := (firstBracket_bracket hsign).passes hrun
      have := hs.sign
      rwa [hs.aError, hs.bError] at this
    · have hf := (toTick.add delta).fractionalPart_lt
      exact ⟨hsum delta (bestDelta_abs_le h), exactSum_iff.2 ⟨by positivity, by rw [add_zero]; exact_mod_cast hf⟩⟩

/-- What the float computation gives for 999.99 MHz. -/
def toNs999990kHz : TimeConversionFactor := ⟨1, 43008, by decide, by decide⟩

def toTick999990kHz : TimeConversionFactor := ⟨0, 4294924288, u32_pos, by decide⟩

/-- At 999.99 MHz the first correction wraps around. Both errors then have the same sign, and the back factor
is made smaller by 25 ppm. -/
theorem not_converges_999990kHz : ¬ Converges toNs999990kHz toTick999990kHz ∧
    bestDelta toNs999990kHz toTick999990kHz (2 ^ 18) = .ok (-107373) := by
  refine ⟨fun h => ?_, by decide +kernel⟩
  have hlt := (exactSum_iff.1 (h.exact _ (.inl rfl)).1).2
  revert hlt
  decide +kernel

end TimeConversion

end Miosix
