import MiosixKernel.Timer.Driver
import MiosixKernel.Timer.SetTime

/-!
# The os timer: the driver of a settable counter

The model of the os timer has the registers of a settable counter in its state. Here they are those of a driver, and the
adapter over it is that model.

* `CounterDriver`: the registers, and the ticks that pass before each access to them;
* `driven`: the adapter over the driver;
* **`irqGetTimeTick_driven`**, **`irqSetIrqTick_driven`**, **`irqHandler_driven`**: its functions are those of the model;
* **`irqSetTimeNs_driven`**: so is the one that sets the time, but for the part of the true time that no register has.
-/

namespace Miosix

/-- The registers of a settable counter. No tick passes while it is stopped. -/
structure CounterDriver (bits : ℕ) where
  hw : HwTimer
  delays : List ℕ
  /- The delays once it is started again. -/
  resumed : List ℕ

namespace CounterDriver

open TimerAdapter (upperPart)

variable {bits : ℕ}

def wait (d : CounterDriver bits) : CounterDriver bits :=
  { d with hw := d.hw.elapse bits (d.delays.headD 0), delays := d.delays.tail }

/-- Write to the registers. -/
def setHw (d : CounterDriver bits) (f : HwTimer → HwTimer) : CounterDriver bits := { d.wait with hw := f d.wait.hw }

instance : TimerDriver (CounterDriver bits) where
  irqGetTimerCounter d := some (d.wait.hw.counter bits, d.wait)
  irqSetTimerCounter v d := some (d.setHw fun hw => { hw with now := upperPart bits hw.now ||| v })
  irqGetTimerMatchReg d := some (d.wait.hw.matchReg, d.wait)
  irqSetTimerMatchReg v d := some (d.setHw fun hw => { hw with matchReg := v })
  irqGetOverflowFlag d := some (d.wait.hw.overflowFlag, d.wait)
  irqClearOverflowFlag d := some (d.setHw fun hw => { hw with overflowFlag := false })
  irqGetMatchFlag d := some (d.wait.hw.matchFlag, d.wait)
  irqClearMatchFlag d := some (d.setHw fun hw => { hw with matchFlag := false })
  irqForcePendingIrq d := some (d.setHw fun hw => { hw with forced := true })
  irqStopTimer d := some { d.wait with delays := [], resumed := d.wait.delays }
  irqStartTimer d := some { d with delays := d.resumed, resumed := [] }

end CounterDriver

namespace TimerAdapter

variable {ω : Type} {bits quirkAdvance : ℕ}

/-- The adapter over the driver with these registers. -/
def driven (bits : ℕ) (s : TimerAdapter ω) (resumed : List ℕ := []) : Adapter (CounterDriver bits) where
  drv := ⟨s.hw, s.delays, resumed⟩
  upperTimeTick := s.upperTimeTick
  upperIrqTick := s.upperIrqTick
  lateIrq := s.lateIrq
  tc := s.tc

/-! ## The functions that leave the time alone -/

theorem irqGetTimeTick_driven (s : TimerAdapter ω) (l : List ℕ) : (s.driven bits l).irqGetTimeTick bits =
    some ((s.irqGetTimeTick bits).1, (s.irqGetTimeTick bits).2.driven bits l) := by
  have hrun : (s.driven bits l).irqGetTimeTick bits =
      if ((s.wait bits).wait bits).hw.overflowFlag = true then
        if (s.wait bits).hw.counter bits ≤ (((s.wait bits).wait bits).wait bits).hw.counter bits then
          some ((s.upperTimeTick ||| (s.wait bits).hw.counter bits) + 2 ^ bits,
            (((s.wait bits).wait bits).wait bits).driven bits l)
        else some (s.upperTimeTick ||| (s.wait bits).hw.counter bits, (((s.wait bits).wait bits).wait bits).driven bits l)
      else some (s.upperTimeTick ||| (s.wait bits).hw.counter bits, ((s.wait bits).wait bits).driven bits l) := rfl
  obtain ⟨ho, h⟩ | ⟨ho, hc, h⟩ | ⟨ho, hc, h⟩ := irqGetTimeTick_cases bits s
  · rw [hrun, h, ho, if_neg Bool.false_ne_true]
  · rw [hrun, h, if_pos ho, if_pos hc]
  · rw [hrun, h, if_pos ho, if_neg (not_le.2 hc)]

theorem irqGetIrqTick_driven (s : TimerAdapter ω) (l : List ℕ) : (s.driven bits l).irqGetIrqTick =
    some ((s.irqGetIrqTick bits).1, (s.irqGetIrqTick bits).2.driven bits l) := rfl

/-- The match register is written. -/
theorem writeIrqTick_driven (s : TimerAdapter ω) (l : List ℕ) (tick : ℕ) :
    (s.driven bits l).writeIrqTick bits quirkAdvance tick =
      some (({ s with upperIrqTick := upperPart bits (tick + quirkAdvance) }.irqSetTimerMatchReg bits
        (lowerPart bits (tick + quirkAdvance))).driven bits l) := rfl

theorem forceLate_driven (s : TimerAdapter ω) (l : List ℕ) :
    (s.driven bits l).forceLate = some ({ s.irqForcePendingIrq bits with lateIrq := true }.driven bits l) := rfl

theorem irqSetIrqTick_driven (s : TimerAdapter ω) (l : List ℕ) (tick : ℕ) :
    (s.driven bits l).irqSetIrqTick bits quirkAdvance tick =
      some ((s.irqSetIrqTick bits quirkAdvance tick).driven bits l) := by
  simp only [Adapter.irqSetIrqTick, writeIrqTick_driven, irqGetTimeTick_driven, Option.bind_eq_bind, Option.bind_some]
  unfold irqSetIrqTick
  dsimp only
  split_ifs
  · exact forceLate_driven _ l
  · rfl

/-- `IRQtimerInterrupt`, as far as the timer sees it. -/
theorem rearmAll_driven (rearm : List ℕ) (s : TimerAdapter ω) (l : List ℕ) :
    (s.driven bits l).rearmAll bits quirkAdvance rearm =
      some ((TimerSystem.rearmAll bits quirkAdvance rearm s).driven bits l) := by
  induction rearm generalizing s with
  | nil => rfl
  | cons tick rearm ih =>
    rw [Adapter.rearmAll, irqSetIrqTick_driven, Option.bind_eq_bind, Option.bind_some, ih]
    rfl

/-! ## The interrupt routine -/

section Handler

variable {irqTimerInterrupt : ℤ → TimerAdapter ω → TimerAdapter ω}
  {irqTimerInterrupt' : ℤ → Adapter (CounterDriver bits) → Option (Adapter (CounterDriver bits))} {l : List ℕ}

theorem irqHandleMatch_driven
    (hint : ∀ ns s, irqTimerInterrupt' ns (s.driven bits l) = some ((irqTimerInterrupt ns s).driven bits l))
    (s : TimerAdapter ω) : (s.driven bits l).irqHandleMatch bits irqTimerInterrupt' =
      some ((s.irqHandleMatch bits irqTimerInterrupt).2.driven bits l) := by
  have hrun : (s.driven bits l).irqHandleMatch bits irqTimerInterrupt' =
      if ((s.wait bits).hw.matchFlag || (s.wait bits).lateIrq) = true then
        (((s.wait bits).irqClearMatchFlag bits).driven bits l).irqGetTimeTick bits >>= fun (tick, a) =>
          a.irqGetIrqTick >>= fun (irqTick, a) =>
            if (decide (irqTick ≤ tick) || a.lateIrq) = true then
              irqTimerInterrupt' (a.tc.tick2ns tick) { a with lateIrq := false }
            else some a
      else some ((s.wait bits).driven bits l) := rfl
  rw [hrun]
  unfold irqHandleMatch irqGetMatchFlag
  dsimp only
  by_cases hmatch : ((s.wait bits).hw.matchFlag || (s.wait bits).lateIrq) = true
  · rw [if_pos hmatch, if_pos hmatch]
    simp only [irqGetTimeTick_driven, irqGetIrqTick_driven, Option.bind_eq_bind, Option.bind_some]
    split_ifs with hlate hlate' hlate'
    · exact hint _ { (((((s.wait bits).irqClearMatchFlag bits).irqGetTimeTick bits).2).irqGetIrqTick bits).2 with
        lateIrq := false }
    · exact absurd hlate hlate'
    · exact absurd hlate' hlate
    · rfl
  · rw [if_neg hmatch, if_neg hmatch]

theorem irqHandleOverflow_driven (s : TimerAdapter ω) :
    (s.driven bits l).irqHandleOverflow bits = some ((s.irqHandleOverflow bits).driven bits l) := by
  have hrun : (s.driven bits l).irqHandleOverflow bits = if (s.wait bits).hw.overflowFlag = true then
      some ({ (s.wait bits).irqClearOverflowFlag bits with upperTimeTick := s.upperTimeTick + 2 ^ bits }.driven bits l)
    else some ((s.wait bits).driven bits l) := rfl
  rw [hrun]
  unfold irqHandleOverflow irqGetOverflowFlag
  dsimp only
  split_ifs <;> rfl

/-- The interrupt routine, once a forced interrupt is acknowledged. -/
theorem irqHandler_driven
    (hint : ∀ ns s, irqTimerInterrupt' ns (s.driven bits l) = some ((irqTimerInterrupt ns s).driven bits l))
    (s : TimerAdapter ω) :
    ((s.setHw fun hw => { hw with forced := false }).driven bits l).irqHandler bits irqTimerInterrupt' =
      some ((s.irqHandler bits irqTimerInterrupt).2.driven bits l) := by
  rw [Adapter.irqHandler, irqHandleMatch_driven hint, Option.bind_eq_bind, Option.bind_some, irqHandleOverflow_driven]
  rfl

end Handler

/-! ## Setting the time -/

/-- The same registers at another time. -/
def withNow (s : TimerAdapter ω) (now : ℕ) : TimerAdapter ω := { s with hw := { s.hw with now := now } }

/-- The timer is started again. -/
def resume (a : Adapter (CounterDriver bits)) : Adapter (CounterDriver bits) :=
  { a with drv := { a.drv with delays := a.drv.resumed, resumed := [] } }

/-- The counter and all that was written are the same. -/
theorem moveTime_driven {s : TimerAdapter ω} (h : s.delays = []) (l : List ℕ) (oldTick tick : ℕ) :
    (s.driven bits l).moveTime bits quirkAdvance oldTick tick =
      some (((s.moveTime bits quirkAdvance oldTick tick).withNow
        (upperPart bits s.hw.now ||| lowerPart bits tick)).driven bits l) := by
  rw [moveTime_eq h]
  obtain ⟨hw, delays, upperTimeTick, upperIrqTick, lateIrq, tc, os⟩ := s
  obtain rfl : delays = [] := h
  change (if oldTick < upperIrqTick ||| hw.matchReg then
    (if upperIrqTick ||| hw.matchReg ≤ tick then some _ else some _) else some _) = _
  unfold irqTick
  dsimp only
  split_ifs <;> rfl

theorem moveForward_driven {s : TimerAdapter ω} (h : s.delays = []) (l : List ℕ) (oldTick : ℕ) (tick : ℤ) : ∃ now,
    (s.driven bits l).moveForward bits quirkAdvance oldTick tick =
      some (((if (oldTick : ℤ) < tick then s.moveTime bits quirkAdvance oldTick tick.toNat else s).withNow now).driven
        bits l) ∧
    now % 2 ^ bits =
      (if (oldTick : ℤ) < tick then s.moveTime bits quirkAdvance oldTick tick.toNat else s).hw.counter bits := by
  unfold Adapter.moveForward
  split_ifs
  · refine ⟨_, moveTime_driven h l oldTick tick.toNat, ?_⟩
    have hlow : lowerPart bits tick.toNat < 2 ^ bits := by
      rw [lowerPart, Nat.and_two_pow_sub_one_eq_mod]
      exact Nat.mod_lt _ (by positivity)
    have hmod : ∀ x, (upperPart bits x ||| lowerPart bits tick.toNat) % 2 ^ bits = lowerPart bits tick.toNat := fun x => by
      have hdvd := Adapter.dvd_upperPart bits x
      rw [or_eq_add hdvd hlow, Nat.add_mod, Nat.mod_eq_zero_of_dvd hdvd, Nat.zero_add, Nat.mod_mod, Nat.mod_eq_of_lt hlow]
    rw [moveTime_eq h]
    dsimp only
    split_ifs <;> exact (hmod _).trans (hmod _).symm
  · exact ⟨s.hw.now, rfl, rfl⟩

/-- **Setting the time.** The registers are the same, but for the part of the true time that no register has. -/
theorem irqSetTimeNs_driven (s : TimerAdapter ω) (ns : ℤ) : ∃ now,
    (s.driven bits).irqSetTimeNs bits quirkAdvance ns =
      some (((s.irqSetTimeNs bits quirkAdvance ns).withNow now).driven bits) ∧
      now % 2 ^ bits = (s.irqSetTimeNs bits quirkAdvance ns).hw.counter bits := by
  have hnil : (s.irqStopTimer bits).delays = [] := rfl
  have hrun : (s.driven bits).irqSetTimeNs bits quirkAdvance ns =
      (((s.irqStopTimer bits).driven bits (s.wait bits).delays).irqGetTimeTick bits).bind fun p =>
        ({ p.2 with tc := (p.2.tc.ns2tick ns).2 }.moveForward bits quirkAdvance p.1 (p.2.tc.ns2tick ns).1).bind fun a =>
          some (resume a) := rfl
  have hread : ∀ l, ((s.irqStopTimer bits).driven bits l).irqGetTimeTick bits =
      some (readTick bits (s.irqStopTimer bits), (s.irqStopTimer bits).driven bits l) := fun l => by
    rw [irqGetTimeTick_driven, irqGetTimeTick_of_nil hnil]
  obtain ⟨now, hmove, hnow⟩ := @moveForward_driven _ bits quirkAdvance
    { s.irqStopTimer bits with tc := (s.tc.ns2tick ns).2 } hnil (s.wait bits).delays
    (readTick bits (s.irqStopTimer bits)) (s.tc.ns2tick ns).1
  have hresume : ∀ (a : TimerAdapter ω) (l : List ℕ), resume ((a.withNow now).driven bits l) =
      ((a.irqStartTimer l).withNow now).driven bits := fun _ _ => rfl
  have hstart : ∀ (a : TimerAdapter ω) (l : List ℕ), (a.irqStartTimer l).hw = a.hw := fun _ _ => rfl
  have hset := @irqSetTimeNs_eq _ bits quirkAdvance s ns
  dsimp only at hset
  refine ⟨now, ?_, ?_⟩
  · rw [hrun, hread, Option.bind_some, hset, ← hresume]
    exact congrArg (fun o => o.bind fun a => some (resume a)) hmove
  · rw [hset, hstart]
    exact hnow

end TimerAdapter

end Miosix
