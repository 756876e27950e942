import MiosixKernel.Timer.Irq

/-!
# The os timer: setting the time

`IRQsetTimeNs` stops the timer, moves the time forward, and moves the interrupt that is armed.

* `irqSetTimeNs`: the code;
* `readTick`, `irqTick`: the time and the armed tick, as they are read while no tick passes;
* `SetTimeOk`: the time is not moved back, and the interrupt stays armed at the same tick or is pending;
* `KeepsArmed`: when it is so;
* **`setTimeOk_iff`**, **`setTimes_ok_iff`**: one jump, and any number of them.
-/

namespace Miosix

namespace TimerAdapter

variable {ω : Type} {bits quirkAdvance : ℕ}

/-! ## The code -/

section Code

variable (bits quirkAdvance : ℕ)

/-- No tick passes until the timer is started again. -/
def irqStopTimer (s : TimerAdapter ω) : TimerAdapter ω := { s.wait bits with delays := [] }

def irqStartTimer (s : TimerAdapter ω) (delays : List ℕ) : TimerAdapter ω := { s with delays := delays }

/-- Write the counter register. The true time is what the software reads from now on. -/
def irqSetTimerCounter (s : TimerAdapter ω) (v : ℕ) : TimerAdapter ω :=
  (s.wait bits).setHw fun hw => { hw with now := s.upperTimeTick ||| v }

/-- The part of `irqSetTimeNs` that moves the time from `oldTick` forward to `tick`. -/
def moveTime (s : TimerAdapter ω) (oldTick tick : ℕ) : TimerAdapter ω :=
  let s := { s with upperTimeTick := upperPart bits tick }
  let s := s.irqSetTimerCounter bits (lowerPart bits tick)
  let s := s.irqClearOverflowFlag bits
  let (nextIrqTick, s) := s.irqGetIrqTick bits
  if oldTick < nextIrqTick then
    let tick2 := nextIrqTick + quirkAdvance
    let s := { s with upperIrqTick := upperPart bits tick2 }
    let s := s.irqSetTimerMatchReg bits (lowerPart bits tick2)
    if nextIrqTick ≤ tick then { s.irqForcePendingIrq bits with lateIrq := true } else s
  else s

/-- Set the current time. -/
def irqSetTimeNs (s : TimerAdapter ω) (ns : ℤ) : TimerAdapter ω :=
  let delays := (s.wait bits).delays
  let s := s.irqStopTimer bits
  let (oldTick, s) := s.irqGetTimeTick bits
  let (tick, tc) := s.tc.ns2tick ns
  let s := { s with tc := tc }
  let s := if (oldTick : ℤ) < tick then s.moveTime bits quirkAdvance oldTick tick.toNat else s
  s.irqStartTimer delays

/-- The time that is read while no tick passes. -/
def readTick (s : TimerAdapter ω) : ℕ := ({ s with delays := [] }.irqGetTimeTick bits).1

/-- The tick at which the interrupt is armed, as it is read. -/
def irqTick (s : TimerAdapter ω) : ℕ := s.upperIrqTick ||| s.hw.matchReg

end Code

/-! ## While the timer is stopped -/

theorem wait_of_nil {s : TimerAdapter ω} (h : s.delays = []) : s.wait bits = s := by
  rw [wait, h]
  change { s with hw := s.hw, delays := [] } = s
  rw [← h]

theorem irqGetTimeTick_of_nil {s : TimerAdapter ω} (h : s.delays = []) :
    s.irqGetTimeTick bits = (readTick bits s, s) := by
  have hs : { s with delays := [] } = s := by rw [← h]
  rw [readTick, hs]
  simp only [irqGetTimeTick, irqGetTimerCounter, irqGetOverflowFlag, wait_of_nil h]
  split_ifs <;> rfl

/-- The time is read from the counter and from the overflow flag. -/
theorem readTick_eq (s : TimerAdapter ω) : readTick bits s =
    if s.hw.overflowFlag then (s.upperTimeTick ||| s.hw.counter bits) + 2 ^ bits
    else s.upperTimeTick ||| s.hw.counter bits := by
  have h : ({ s with delays := [] } : TimerAdapter ω).delays = [] := rfl
  simp only [readTick, irqGetTimeTick, irqGetTimerCounter, irqGetOverflowFlag, wait_of_nil h, le_refl,
    if_true]
  split_ifs <;> rfl

/-! ## Moving the time -/

/-- The registers after the time was moved forward. -/
theorem moveTime_eq {s : TimerAdapter ω} (h : s.delays = []) (oldTick tick : ℕ) :
    s.moveTime bits quirkAdvance oldTick tick =
      let hw := { s.hw with now := upperPart bits tick ||| lowerPart bits tick, overflowFlag := false }
      let s₁ := { s with upperTimeTick := upperPart bits tick, hw := hw }
      let tick2 := s.irqTick + quirkAdvance
      let s₂ := { s₁ with
        upperIrqTick := upperPart bits tick2
        hw := { hw with matchReg := lowerPart bits tick2 } }
      if oldTick < s.irqTick then
        if s.irqTick ≤ tick then { s₂ with hw := { s₂.hw with forced := true }, lateIrq := true } else s₂
      else s₁ := by
  simp only [moveTime, irqSetTimerCounter, irqClearOverflowFlag, irqGetIrqTick, irqGetTimerMatchReg,
    irqSetTimerMatchReg, irqForcePendingIrq, setHw, wait_of_nil, h, irqTick]

/-- The time is `tick` if the registers say so. -/
theorem readTick_of_parts {s : TimerAdapter ω} {tick : ℕ} (hup : s.upperTimeTick = upperPart bits tick)
    (hnow : s.hw.now = upperPart bits tick ||| lowerPart bits tick) (hov : s.hw.overflowFlag = false) :
    readTick bits s = tick := by
  rw [readTick_eq, hov, if_neg Bool.false_ne_true, HwTimer.counter, hup, hnow, upperPart_or_lowerPart,
    ← Nat.and_two_pow_sub_one_eq_mod]
  exact upperPart_or_lowerPart tick

/-- **The time after a jump forward**, and where the interrupt is armed. -/
theorem moveTime_spec (bits quirkAdvance : ℕ) {s : TimerAdapter ω} (h : s.delays = [])
    (oldTick tick : ℕ) :
    readTick bits (s.moveTime bits quirkAdvance oldTick tick) = tick ∧
      (s.moveTime bits quirkAdvance oldTick tick).irqTick =
        (if oldTick < s.irqTick then s.irqTick + quirkAdvance else s.irqTick) ∧
      (oldTick < s.irqTick → s.irqTick ≤ tick →
        (s.moveTime bits quirkAdvance oldTick tick).hw.forced = true ∧
          (s.moveTime bits quirkAdvance oldTick tick).lateIrq = true) := by
  rw [moveTime_eq h]
  dsimp only
  split_ifs with hold hlate
  · exact ⟨readTick_of_parts rfl rfl rfl, upperPart_or_lowerPart _, fun _ _ => ⟨rfl, rfl⟩⟩
  · exact ⟨readTick_of_parts rfl rfl rfl, upperPart_or_lowerPart _, fun _ hle => absurd hle hlate⟩
  · exact ⟨readTick_of_parts rfl rfl rfl, rfl, fun hlt => absurd hlt hold⟩

/-! ## One jump -/

/-- Set the time to `ns`: the time that is read is the larger of the two, an interrupt armed in the future
stays armed at the same tick, and one that the jump reaches is late and pending. The state `s₀` is that in
which the timer has just been stopped. -/
def SetTimeOk (bits quirkAdvance : ℕ) (s : TimerAdapter ω) (ns : ℤ) : Prop :=
  let s₀ := s.irqStopTimer bits
  let s' := s.irqSetTimeNs bits quirkAdvance ns
  let tick := (s.tc.ns2tick ns).1
  (readTick bits s' : ℤ) = max (readTick bits s₀ : ℤ) tick ∧
    (readTick bits s' < s₀.irqTick → s'.irqTick = s₀.irqTick) ∧
    (readTick bits s₀ < s₀.irqTick → s₀.irqTick ≤ readTick bits s' →
      s'.hw.forced = true ∧ s'.lateIrq = true)

/-- There is no advance, or the clock is not moved, or the armed tick is reached. -/
def KeepsArmed (bits quirkAdvance : ℕ) (s : TimerAdapter ω) (ns : ℤ) : Prop :=
  let s₀ := s.irqStopTimer bits
  let tick := (s.tc.ns2tick ns).1
  quirkAdvance = 0 ∨ tick ≤ readTick bits s₀ ∨ (s₀.irqTick : ℤ) ≤ tick

theorem irqSetTimeNs_eq (s : TimerAdapter ω) (ns : ℤ) : s.irqSetTimeNs bits quirkAdvance ns =
    let s₀ := { s.irqStopTimer bits with tc := (s.tc.ns2tick ns).2 }
    let oldTick := readTick bits (s.irqStopTimer bits)
    let tick := (s.tc.ns2tick ns).1
    (if (oldTick : ℤ) < tick then s₀.moveTime bits quirkAdvance oldTick tick.toNat
      else s₀).irqStartTimer (s.wait bits).delays := by
  have hnil : (s.irqStopTimer bits).delays = [] := rfl
  rw [irqSetTimeNs, irqGetTimeTick_of_nil hnil]
  rfl

theorem readTick_irqStartTimer (s : TimerAdapter ω) (l : List ℕ) :
    readTick bits (s.irqStartTimer l) = readTick bits s := by
  simp only [readTick_eq, irqStartTimer]

/-- **One jump** is right in exactly these cases, whatever the state. -/
theorem setTimeOk_iff (s : TimerAdapter ω) (ns : ℤ) :
    SetTimeOk bits quirkAdvance s ns ↔ KeepsArmed bits quirkAdvance s ns := by
  unfold SetTimeOk KeepsArmed
  rw [irqSetTimeNs_eq]
  dsimp only
  set tick := (s.tc.ns2tick ns).1
  set oldTick := readTick bits (s.irqStopTimer bits) with hold
  set s₀ : TimerAdapter ω := { s.irqStopTimer bits with tc := (s.tc.ns2tick ns).2 } with hs₀
  have hread : readTick bits s₀ = oldTick := by simp only [hold, readTick_eq, hs₀]
  have hirq : (s.irqStopTimer bits).irqTick = s₀.irqTick := rfl
  rw [readTick_irqStartTimer, hirq]
  by_cases hlt : (oldTick : ℤ) < tick
  · obtain ⟨n, hn⟩ : ∃ n : ℕ, tick = n := Int.eq_ofNat_of_zero_le (by omega)
    obtain ⟨h1, h2, h3⟩ := moveTime_spec bits quirkAdvance (show s₀.delays = [] from rfl) oldTick n
    rw [if_pos hlt, hn, Int.toNat_natCast, h1]
    have hlt' : oldTick < n := by omega
    have hirq' : ∀ r : TimerAdapter ω, (r.irqStartTimer (s.wait bits).delays).irqTick = r.irqTick :=
      fun _ => rfl
    rw [hirq', h2]
    constructor
    · rintro ⟨-, hsame, -⟩
      by_cases hA : n < s₀.irqTick
      · have := hsame hA
        rw [if_pos (hlt'.trans hA)] at this
        omega
      · omega
    · intro hk
      refine ⟨by omega, fun hA => ?_, h3⟩
      split_ifs <;> omega
  · rw [if_neg hlt, hread]
    refine iff_of_true ⟨by omega, fun _ => rfl, fun h1 h2 => absurd h2 (not_le.2 h1)⟩ (Or.inr (Or.inl ?_))
    omega

/-! ## Any number of jumps -/

/-- Something holds of each jump of a sequence. Before each jump some ticks may pass. -/
def EachJump (bits quirkAdvance : ℕ) (P : TimerAdapter ω → ℤ → Prop) :
    TimerAdapter ω → List (List ℕ × ℤ) → Prop
  | _, [] => True
  | s, (delays, ns) :: moves => P { s with delays := delays } ns ∧
    EachJump bits quirkAdvance P ({ s with delays := delays }.irqSetTimeNs bits quirkAdvance ns) moves

/-- **Any number of jumps** after an interrupt was armed: each of them is right if and only if each of them
keeps the interrupt armed where it is. -/
theorem setTimes_ok_iff (bits quirkAdvance tick : ℕ) (s : TimerAdapter ω) (moves : List (List ℕ × ℤ)) :
    EachJump bits quirkAdvance (SetTimeOk bits quirkAdvance) (s.irqSetIrqTick bits quirkAdvance tick)
        moves ↔
      EachJump bits quirkAdvance (KeepsArmed bits quirkAdvance) (s.irqSetIrqTick bits quirkAdvance tick)
        moves := by
  generalize s.irqSetIrqTick bits quirkAdvance tick = s
  induction moves generalizing s with
  | nil => exact Iff.rfl
  | cons m moves ih => exact and_congr (setTimeOk_iff _ _) (ih _)

/-- The interrupt of a 32 bit timer with an advance of 2 is armed at 1000, and the time is set to 500: the
interrupt is moved from 1002 to 1004. -/
theorem setTimes_moves_armed :
    (TimerSystem.atStart.dev.irqSetIrqTick 32 2 1000).irqTick = 1002 ∧
      ((TimerSystem.atStart.dev.irqSetIrqTick 32 2 1000).irqSetTimeNs 32 2 500).irqTick = 1004 ∧
      ¬ EachJump 32 2 (SetTimeOk 32 2) (TimerSystem.atStart.dev.irqSetIrqTick 32 2 1000) [([], 500)] := by
  refine ⟨by decide +kernel, by decide +kernel, fun h => ?_⟩
  exact absurd (h.1.2.1 (by decide +kernel)) (by decide +kernel)

end TimerAdapter

end Miosix
