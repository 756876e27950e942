import MiosixKernel.Timer.Model

/-!
# The os timer: adapter and driver

`TimerAdapter<D, bits, quirkAdvance>` is written over the static functions of a driver class `D`. Here it is so in
the model, for drivers whose registers are not simply those of a settable counter.

* `TimerDriver`, `Adapter`: the driver, and the software state over it;
* `irqGetTimeTick`, `irqGetIrqTick`, `irqSetTimeNs`, `irqSetIrqTick`, `irqHandler`: the code;
* `DriverRel`, `Frame`: what all functions of a driver do that leave the time alone, and then the code that calls
  them.
-/

namespace Miosix

/-- The functions that a driver provides, on the state `D` of its registers and variables. `none`: the function has
not returned before the end of what is known to happen in the hardware. -/
class TimerDriver (D : Type) where
  irqGetTimerCounter : D → Option (ℕ × D)
  irqSetTimerCounter : ℕ → D → Option D
  irqGetTimerMatchReg : D → Option (ℕ × D)
  irqSetTimerMatchReg : ℕ → D → Option D
  irqGetOverflowFlag : D → Option (Bool × D)
  irqClearOverflowFlag : D → Option D
  irqGetMatchFlag : D → Option (Bool × D)
  irqClearMatchFlag : D → Option D
  irqForcePendingIrq : D → Option D
  irqStopTimer : D → Option D
  irqStartTimer : D → Option D

/-- The software state over a driver. -/
structure Adapter (D : Type) where
  drv : D
  upperTimeTick : ℕ
  upperIrqTick : ℕ
  lateIrq : Bool
  tc : TimeConversion

namespace Adapter

open TimerDriver
open TimerAdapter (upperPart lowerPart)

variable {D : Type} [TimerDriver D]

/-! ## The code -/

section Code

variable (bits quirkAdvance : ℕ)

/-- The current time in ticks: the overflow flag is an extra timer bit. -/
def irqGetTimeTick (s : Adapter D) : Option (ℕ × Adapter D) := do
  let (counter, d) ← irqGetTimerCounter s.drv
  let (overflow, d) ← irqGetOverflowFlag d
  if overflow then
    let (counter2, d) ← irqGetTimerCounter d
    -- the counter may have rolled over between the first read and the flag
    if counter ≤ counter2 then pure ((s.upperTimeTick ||| counter) + 2 ^ bits, { s with drv := d })
    else pure (s.upperTimeTick ||| counter, { s with drv := d })
  else pure (s.upperTimeTick ||| counter, { s with drv := d })

/-- The time of the next interrupt in ticks. -/
def irqGetIrqTick (s : Adapter D) : Option (ℕ × Adapter D) := do
  let (reg, d) ← irqGetTimerMatchReg s.drv
  pure (s.upperIrqTick ||| reg, { s with drv := d })

/-- Write the time of the next interrupt, after `quirkAdvance`. -/
def writeIrqTick (s : Adapter D) (tick : ℕ) : Option (Adapter D) := do
  let tick2 := tick + quirkAdvance
  let d ← irqSetTimerMatchReg (lowerPart bits tick2) s.drv
  pure { s with drv := d, upperIrqTick := upperPart bits tick2 }

/-- The interrupt is late, so it is forced. -/
def forceLate (s : Adapter D) : Option (Adapter D) := do
  let d ← irqForcePendingIrq s.drv
  pure { s with drv := d, lateIrq := true }

/-- The part of `irqSetTimeNs` that moves the time from `oldTick` forward to `tick`. -/
def moveTime (s : Adapter D) (oldTick tick : ℕ) : Option (Adapter D) := do
  let d ← irqSetTimerCounter (lowerPart bits tick) s.drv
  let d ← irqClearOverflowFlag d
  let (nextIrqTick, s) ← { s with drv := d, upperTimeTick := upperPart bits tick }.irqGetIrqTick
  if oldTick < nextIrqTick then
    let s ← s.writeIrqTick bits quirkAdvance nextIrqTick
    if nextIrqTick ≤ tick then s.forceLate else pure s
  else pure s

/-- The time cannot be moved back. -/
def moveForward (s : Adapter D) (oldTick : ℕ) (tick : ℤ) : Option (Adapter D) :=
  if (oldTick : ℤ) < tick then s.moveTime bits quirkAdvance oldTick tick.toNat else some s

/-- Set the current time. The timer is stopped meanwhile. -/
def irqSetTimeNs (s : Adapter D) (ns : ℤ) : Option (Adapter D) := do
  let d ← irqStopTimer s.drv
  let (oldTick, s) ← { s with drv := d }.irqGetTimeTick bits
  let (tick, tc) := s.tc.ns2tick ns
  let s ← { s with tc := tc }.moveForward bits quirkAdvance oldTick tick
  let d ← irqStartTimer s.drv
  pure { s with drv := d }

/-- Schedule the next interrupt at `tick`, at once if it is in the past. -/
def irqSetIrqTick (s : Adapter D) (tick : ℕ) : Option (Adapter D) := do
  let s ← s.writeIrqTick bits quirkAdvance tick
  let (now, s) ← s.irqGetTimeTick bits
  if tick ≤ now then s.forceLate else pure s

/-- The match half of the interrupt routine. -/
def irqHandleMatch (irqTimerInterrupt : ℤ → Adapter D → Option (Adapter D)) (s : Adapter D) : Option (Adapter D) := do
  let (matched, d) ← irqGetMatchFlag s.drv
  let s := { s with drv := d }
  if matched || s.lateIrq then
    let d ← irqClearMatchFlag s.drv
    let (tick, s) ← { s with drv := d }.irqGetTimeTick bits
    let (irqTick, s) ← s.irqGetIrqTick
    if irqTick ≤ tick || s.lateIrq then irqTimerInterrupt (s.tc.tick2ns tick) { s with lateIrq := false }
    else pure s
  else pure s

/-- The overflow half of the interrupt routine. -/
def irqHandleOverflow (s : Adapter D) : Option (Adapter D) := do
  let (overflow, d) ← irqGetOverflowFlag s.drv
  if overflow then
    let d ← irqClearOverflowFlag d
    pure { s with drv := d, upperTimeTick := s.upperTimeTick + 2 ^ bits }
  else pure { s with drv := d }

/-- The interrupt routine. -/
def irqHandler (irqTimerInterrupt : ℤ → Adapter D → Option (Adapter D)) (s : Adapter D) : Option (Adapter D) := do
  let s ← s.irqHandleMatch bits irqTimerInterrupt
  s.irqHandleOverflow bits

/-- `IRQtimerInterrupt`, as far as the timer sees it: it schedules interrupts. -/
def rearmAll : List ℕ → Adapter D → Option (Adapter D)
  | [], s => pure s
  | tick :: rearm, s => do
    let s ← s.irqSetIrqTick bits quirkAdvance tick
    rearmAll rearm s

end Code

/-! ## Functions that leave the time alone -/

/-- A relation that every function of the driver keeps, except those that write the counter or the overflow flag or
start the timer. -/
structure DriverRel (R : D → D → Prop) : Prop where
  refl : ∀ d, R d d
  trans : ∀ {a b c}, R a b → R b c → R a c
  getTimerCounter : ∀ {d v d'}, irqGetTimerCounter d = some (v, d') → R d d'
  getTimerMatchReg : ∀ {d v d'}, irqGetTimerMatchReg d = some (v, d') → R d d'
  setTimerMatchReg : ∀ {v d d'}, irqSetTimerMatchReg v d = some d' → R d d'
  getOverflowFlag : ∀ {d v d'}, irqGetOverflowFlag d = some (v, d') → R d d'
  getMatchFlag : ∀ {d v d'}, irqGetMatchFlag d = some (v, d') → R d d'
  clearMatchFlag : ∀ {d d'}, irqClearMatchFlag d = some d' → R d d'
  forcePendingIrq : ∀ {d d'}, irqForcePendingIrq d = some d' → R d d'

/-- The driver's states are related, and the upper bits of the time are the same, those of the next interrupt being
upper bits still. -/
structure Frame (R : D → D → Prop) (bits : ℕ) (s s' : Adapter D) : Prop where
  drv : R s.drv s'.drv
  upper : s'.upperTimeTick = s.upperTimeTick
  upperIrq : 2 ^ bits ∣ s.upperIrqTick → 2 ^ bits ∣ s'.upperIrqTick

variable {R : D → D → Prop} {bits quirkAdvance : ℕ} {s s' s'' : Adapter D}

theorem dvd_upperPart (bits x : ℕ) : 2 ^ bits ∣ upperPart bits x := by
  rw [upperPart, Nat.shiftLeft_eq]
  exact Dvd.intro_left _ rfl

/-- The outcomes of a read: no overflow, or an overflow before or after the first read of the counter. -/
theorem irqGetTimeTick_cases {v : ℕ} (h : s.irqGetTimeTick bits = some (v, s')) :
    ∃ counter d₁ d₂, irqGetTimerCounter s.drv = some (counter, d₁) ∧
      (irqGetOverflowFlag d₁ = some (false, d₂) ∧ v = s.upperTimeTick ||| counter ∧ s' = { s with drv := d₂ } ∨
        irqGetOverflowFlag d₁ = some (true, d₂) ∧ ∃ counter2 d₃, irqGetTimerCounter d₂ = some (counter2, d₃) ∧
          v = (s.upperTimeTick ||| counter) + (if counter ≤ counter2 then 2 ^ bits else 0) ∧
          s' = { s with drv := d₃ }) := by
  simp only [irqGetTimeTick, Option.bind_eq_bind, Option.bind_eq_some_iff, Prod.exists] at h
  obtain ⟨counter, d₁, h₁, overflow, d₂, h₂, h⟩ := h
  refine ⟨counter, d₁, d₂, h₁, ?_⟩
  cases overflow with
  | false =>
    cases h
    exact .inl ⟨h₂, rfl, rfl⟩
  | true =>
    simp only [if_true, Option.bind_eq_some_iff, Prod.exists] at h
    obtain ⟨counter2, d₃, h₃, h⟩ := h
    refine .inr ⟨h₂, counter2, d₃, h₃, ?_⟩
    split_ifs at h ⊢ <;> cases h <;> exact ⟨rfl, rfl⟩

namespace DriverRel

theorem frame_trans (hR : DriverRel R) (h : Frame R bits s s') (h' : Frame R bits s' s'') : Frame R bits s s'' :=
  ⟨hR.trans h.drv h'.drv, h'.upper.trans h.upper, h'.upperIrq ∘ h.upperIrq⟩

theorem irqGetTimeTick (hR : DriverRel R) {v : ℕ} (h : s.irqGetTimeTick bits = some (v, s')) : Frame R bits s s' := by
  obtain ⟨counter, d₁, d₂, h₁, ⟨h₂, -, rfl⟩ | ⟨h₂, counter2, d₃, h₃, -, rfl⟩⟩ := irqGetTimeTick_cases h
  · exact ⟨hR.trans (hR.getTimerCounter h₁) (hR.getOverflowFlag h₂), rfl, id⟩
  · exact ⟨hR.trans (hR.trans (hR.getTimerCounter h₁) (hR.getOverflowFlag h₂)) (hR.getTimerCounter h₃), rfl, id⟩

theorem irqGetIrqTick (hR : DriverRel R) {v : ℕ} (h : s.irqGetIrqTick = some (v, s')) : Frame R bits s s' := by
  simp only [Adapter.irqGetIrqTick, Option.bind_eq_bind, Option.bind_eq_some_iff, Prod.exists] at h
  obtain ⟨reg, d, h₁, h⟩ := h
  cases h
  exact ⟨hR.getTimerMatchReg h₁, rfl, id⟩

theorem writeIrqTick (hR : DriverRel R) {tick : ℕ} (h : s.writeIrqTick bits quirkAdvance tick = some s') :
    Frame R bits s s' := by
  simp only [Adapter.writeIrqTick, Option.bind_eq_bind, Option.bind_eq_some_iff] at h
  obtain ⟨d, h₁, h⟩ := h
  cases h
  exact ⟨hR.setTimerMatchReg h₁, rfl, fun _ => dvd_upperPart _ _⟩

theorem forceLate (hR : DriverRel R) (h : s.forceLate = some s') : Frame R bits s s' := by
  simp only [Adapter.forceLate, Option.bind_eq_bind, Option.bind_eq_some_iff] at h
  obtain ⟨d, h₁, h⟩ := h
  cases h
  exact ⟨hR.forcePendingIrq h₁, rfl, id⟩

theorem irqSetIrqTick (hR : DriverRel R) {tick : ℕ} (h : s.irqSetIrqTick bits quirkAdvance tick = some s') :
    Frame R bits s s' := by
  simp only [Adapter.irqSetIrqTick, Option.bind_eq_bind, Option.bind_eq_some_iff, Prod.exists] at h
  obtain ⟨s₁, h₁, now, s₂, h₂, h⟩ := h
  have hf := hR.frame_trans (hR.writeIrqTick h₁) (hR.irqGetTimeTick h₂)
  split_ifs at h
  · exact hR.frame_trans hf (hR.forceLate h)
  · cases h
    exact hf

theorem rearmAll (hR : DriverRel R) (rearm : List ℕ) (h : rearmAll bits quirkAdvance rearm s = some s') :
    Frame R bits s s' := by
  induction rearm generalizing s with
  | nil =>
    cases h
    exact ⟨hR.refl _, rfl, id⟩
  | cons tick rearm ih =>
    simp only [Adapter.rearmAll, Option.bind_eq_bind, Option.bind_eq_some_iff] at h
    obtain ⟨s₁, h₁, h⟩ := h
    exact hR.frame_trans (hR.irqSetIrqTick h₁) (ih h)

theorem irqHandleMatch (hR : DriverRel R) {irqTimerInterrupt : ℤ → Adapter D → Option (Adapter D)}
    (hint : ∀ ns s s', irqTimerInterrupt ns s = some s' → Frame R bits s s')
    (h : s.irqHandleMatch bits irqTimerInterrupt = some s') : Frame R bits s s' := by
  simp only [Adapter.irqHandleMatch, Option.bind_eq_bind, Option.bind_eq_some_iff, Prod.exists] at h
  obtain ⟨matched, d, h₁, h⟩ := h
  have hf : Frame R bits s { s with drv := d } := ⟨hR.getMatchFlag h₁, rfl, id⟩
  split_ifs at h
  · simp only [Option.bind_eq_some_iff, Prod.exists] at h
    obtain ⟨d₁, h₂, tick, s₂, h₃, irqTick, s₃, h₄, h⟩ := h
    have hf₁ : Frame R bits s { s with drv := d₁ } := ⟨hR.trans hf.drv (hR.clearMatchFlag h₂), rfl, id⟩
    have hf₃ := hR.frame_trans (hR.frame_trans hf₁ (hR.irqGetTimeTick h₃)) (hR.irqGetIrqTick h₄)
    split_ifs at h
    · have := hint _ _ _ h
      exact hR.frame_trans hf₃ ⟨this.drv, this.upper, this.upperIrq⟩
    · cases h
      exact hf₃
  · cases h
    exact hf

end DriverRel

end Adapter

end Miosix
