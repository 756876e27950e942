import MiosixKernel.Lib.PendingBit
import MiosixKernel.Timer.Driver

/-!
# The os timer: the timer/counter of the ATsam4l

The counter of this timer cannot be written and restarts from zero, so the driver adds `counterAdd` to all that it
reads, and subtracts it from the match register that it writes. The sum may exceed 16 bits. The flags are cleared by
reading them, so the driver keeps a copy.

`delays` lists how many ticks pass before each of the next accesses to a register.

* `Tc`: the timer, with the variables of the driver;
* `Waits`: what time passing does, `raw` being the counter with the pending overflow as a further bit;
* **`irqGetTimeTick_mem`**: the value read, when no bit of the sum meets the upper bits.
-/

namespace Miosix

open Lib

/-- The registers of a channel, and the variables `sr` and `counterAdd` of the driver. `ticks` counts the ticks since
the beginning; `lost` records that the counter wrapped while the previous overflow was still unhandled. -/
structure Tc where
  cv : ℕ
  rc : ℕ
  covfs : Bool
  cpcs : Bool
  srCovfs : Bool
  srCpcs : Bool
  counterAdd : ℕ
  enabled : Bool
  forced : Bool
  lost : Bool
  ticks : ℕ
  delays : List ℕ
deriving DecidableEq

namespace Tc

/-! ## The hardware -/

/-- One tick of the clock. -/
def tick (d : Tc) : Tc :=
  if d.enabled then
    let c := (d.cv + 1) % 2 ^ 16
    { d with
      cv := c
      covfs := d.covfs || decide (c = 0)
      cpcs := d.cpcs || decide (c = d.rc)
      lost := d.lost || ((d.covfs || d.srCovfs) && decide (c = 0))
      ticks := d.ticks + 1 }
  else d

/-- `n` ticks of the clock. -/
def elapse (n : ℕ) (d : Tc) : Tc := tick^[n] d

/-- The ticks that pass before a register access. -/
def wait (d : Tc) : Tc := { d.elapse (d.delays.headD 0) with delays := d.delays.tail }

/-! ## The driver -/

/-- The counter register, with the offset. -/
def irqGetTimerCounter (d : Tc) : ℕ × Tc := (d.wait.cv + d.wait.counterAdd, d.wait)

def irqSetTimerCounter (v : ℕ) (d : Tc) : Tc := { d with counterAdd := v % 2 ^ 16 }

def irqGetTimerMatchReg (d : Tc) : ℕ × Tc := (d.wait.rc + d.wait.counterAdd, d.wait)

/-- The register has 16 bits. -/
def irqSetTimerMatchReg (v : ℕ) (d : Tc) : Tc := { d.wait with rc := u32 (v - d.wait.counterAdd) % 2 ^ 16 }

/-- `sr |= TC1->TC_CHANNEL[0].TC_SR`, which clears the register. -/
def readSr (d : Tc) : Tc :=
  let d := d.wait
  { d with srCovfs := d.srCovfs || d.covfs, srCpcs := d.srCpcs || d.cpcs, covfs := false, cpcs := false }

def irqGetOverflowFlag (d : Tc) : Bool × Tc := (d.readSr.srCovfs, d.readSr)

def irqClearOverflowFlag (d : Tc) : Tc := { d with srCovfs := false }

def irqGetMatchFlag (d : Tc) : Bool × Tc := (d.readSr.srCpcs, d.readSr)

def irqClearMatchFlag (d : Tc) : Tc := { d with srCpcs := false }

def irqForcePendingIrq (d : Tc) : Tc := { d.wait with forced := true }

def irqStopTimer (d : Tc) : Tc := { d.wait with enabled := false }

/-- Starting the timer resets it, and then some time passes. -/
def irqStartTimer (d : Tc) : Tc := { d.wait with enabled := true, cv := 0 }.wait

instance : TimerDriver Tc where
  irqGetTimerCounter d := some d.irqGetTimerCounter
  irqSetTimerCounter v d := some (d.irqSetTimerCounter v)
  irqGetTimerMatchReg d := some d.irqGetTimerMatchReg
  irqSetTimerMatchReg v d := some (d.irqSetTimerMatchReg v)
  irqGetOverflowFlag d := some d.irqGetOverflowFlag
  irqClearOverflowFlag d := some d.irqClearOverflowFlag
  irqGetMatchFlag d := some d.irqGetMatchFlag
  irqClearMatchFlag d := some d.irqClearMatchFlag
  irqForcePendingIrq d := some d.irqForcePendingIrq
  irqStopTimer d := some d.irqStopTimer
  irqStartTimer d := some d.irqStartTimer

/-! ## Time passing -/

/-- An overflow is pending, in the register or in the copy. -/
def pending (d : Tc) : Bool := d.covfs || d.srCovfs

/-- The counter, with the pending overflow as a further bit. -/
def raw (d : Tc) : ℕ := 2 ^ 16 * d.pending.toNat + d.cv

/-- `d'` is `d` after some time, with the overflow flag not cleared in between. -/
structure Waits (d d' : Tc) : Prop where
  ticks_le : d.ticks ≤ d'.ticks
  counterAdd : d'.counterAdd = d.counterAdd
  enabled : d'.enabled = d.enabled
  stopped : d.enabled = false → d'.ticks = d.ticks
  lost : d'.lost = false → d.lost = false
  flag : d.pending = true → d'.pending = true
  cv_lt : d.cv < 2 ^ 16 → d'.cv < 2 ^ 16
  rc_lt : d.rc < 2 ^ 16 → d'.rc < 2 ^ 16
  raw : d'.lost = false → d.cv < 2 ^ 16 → d'.raw = d.raw + (d'.ticks - d.ticks)

theorem Waits.refl (d : Tc) : Waits d d := ⟨le_rfl, rfl, rfl, fun _ => rfl, id, id, id, id, fun _ _ => by omega⟩

theorem Waits.trans {a b c : Tc} (h : Waits a b) (h' : Waits b c) : Waits a c where
  ticks_le := h.ticks_le.trans h'.ticks_le
  counterAdd := h'.counterAdd.trans h.counterAdd
  enabled := h'.enabled.trans h.enabled
  stopped hs := (h'.stopped (h.enabled.trans hs)).trans (h.stopped hs)
  lost hl := h.lost (h'.lost hl)
  flag hf := h'.flag (h.flag hf)
  cv_lt hc := h'.cv_lt (h.cv_lt hc)
  rc_lt hr := h'.rc_lt (h.rc_lt hr)
  raw hl hc := by
    have h1 := h.raw (h'.lost hl) hc
    have h2 := h'.raw hl (h.cv_lt hc)
    have := h.ticks_le
    have := h'.ticks_le
    omega

variable {d d' : Tc}

/-- The counter and the pending overflow are as before. -/
theorem waits_of_eq (hcv : d'.cv = d.cv) (hp : d'.pending = d.pending) (ha : d'.counterAdd = d.counterAdd)
    (hen : d'.enabled = d.enabled) (hl : d'.lost = d.lost) (ht : d'.ticks = d.ticks)
    (hrc : d.rc < 2 ^ 16 → d'.rc < 2 ^ 16) : Waits d d' where
  ticks_le := ht.ge
  counterAdd := ha
  enabled := hen
  stopped _ := ht
  lost h := hl ▸ h
  flag h := hp ▸ h
  cv_lt h := hcv ▸ h
  rc_lt := hrc
  raw _ _ := by simp only [Tc.raw, hcv, hp, ht]; omega

theorem waits_tick (d : Tc) : Waits d d.tick := by
  unfold tick
  split_ifs with hen
  · refine ⟨Nat.le_succ _, rfl, rfl, fun hs => ?_, fun hl => (Bool.or_eq_false_iff.mp hl).1, fun hf => ?_,
      fun _ => Nat.mod_lt _ (by positivity), id, fun hl hc => ?_⟩
    · rw [hen] at hs
      cases hs
    · simp only [pending, Bool.or_eq_true] at hf ⊢
      tauto
    · simp only [raw, pending]
      by_cases hw : (d.cv + 1) % 2 ^ 16 = 0
      · -- the counter wraps, and no overflow was pending
        have hnp := (Bool.or_eq_false_iff.mp hl).2
        rw [decide_eq_true hw, Bool.and_true] at hnp
        rw [decide_eq_true hw, Bool.or_true, Bool.true_or, hnp, Bool.toNat_true, Bool.toNat_false]
        omega
      · rw [decide_eq_false hw, Bool.or_false]
        omega
  · exact .refl d

theorem elapse_succ (n : ℕ) (d : Tc) : d.elapse (n + 1) = (d.elapse n).tick := Function.iterate_succ_apply' _ n d

theorem waits_elapse (n : ℕ) (d : Tc) : Waits d (d.elapse n) := by
  induction n with
  | zero => exact .refl d
  | succ n ih =>
    rw [elapse_succ]
    exact ih.trans (waits_tick _)

theorem rc_elapse (n : ℕ) (d : Tc) : (d.elapse n).rc = d.rc := by
  induction n with
  | zero => rfl
  | succ n ih =>
    rw [elapse_succ, tick]
    split_ifs <;> exact ih

theorem cv_elapse (hen : d.enabled = true) (hcv : d.cv < 2 ^ 16) (n : ℕ) : (d.elapse n).cv = (d.cv + n) % 2 ^ 16 := by
  induction n with
  | zero => exact (Nat.mod_eq_of_lt hcv).symm
  | succ n ih =>
    rw [elapse_succ, tick, if_pos ((waits_elapse n d).enabled.trans hen)]
    dsimp only
    omega

/-- The compare flag is set when the counter comes to the register. -/
theorem cpcs_elapse (hen : d.enabled = true) (hcv : d.cv < 2 ^ 16) {n : ℕ} (hn : 0 < n)
    (hrc : (d.cv + n) % 2 ^ 16 = d.rc) : (d.elapse n).cpcs = true := by
  obtain ⟨n, rfl⟩ := Nat.exists_eq_succ_of_ne_zero hn.ne'
  have hcv' := cv_elapse hen hcv (n + 1)
  rw [elapse_succ, tick, if_pos ((waits_elapse n d).enabled.trans hen)] at hcv' ⊢
  dsimp only at hcv' ⊢
  rw [rc_elapse, hcv', Bool.or_eq_true, decide_eq_true_eq]
  exact .inr hrc

theorem waits_wait (d : Tc) : Waits d d.wait := (waits_elapse _ d).trans (waits_of_eq rfl rfl rfl rfl rfl rfl id)

theorem waits_readSr (d : Tc) : Waits d d.readSr := by
  refine (waits_wait d).trans ?_
  unfold readSr
  generalize d.wait = d
  exact waits_of_eq rfl (by simp [pending, Bool.or_comm]) rfl rfl rfl rfl id

theorem pending_readSr (d : Tc) : d.readSr.pending = d.readSr.srCovfs := by simp [pending, readSr]

theorem raw_irqClearOverflowFlag (h : d.covfs = false) : d.irqClearOverflowFlag.raw = d.cv := by
  simp [raw, pending, irqClearOverflowFlag, h]

theorem waits_irqSetTimerMatchReg (v : ℕ) (d : Tc) : Waits d (d.irqSetTimerMatchReg v) := by
  refine (waits_wait d).trans ?_
  unfold irqSetTimerMatchReg
  have hreg : u32 (v - d.wait.counterAdd) % 2 ^ 16 < 2 ^ 16 := Nat.mod_lt _ (by positivity)
  generalize u32 (v - d.wait.counterAdd) % 2 ^ 16 = reg at hreg
  exact waits_of_eq rfl rfl rfl rfl rfl rfl fun _ => hreg

theorem waits_irqForcePendingIrq (d : Tc) : Waits d d.irqForcePendingIrq :=
  (waits_wait d).trans (waits_of_eq rfl rfl rfl rfl rfl rfl id)

theorem driverRel_waits : Adapter.DriverRel Waits where
  refl := .refl
  trans := .trans
  getTimerCounter h := by
    cases h
    exact waits_wait _
  getTimerMatchReg h := by
    cases h
    exact waits_wait _
  setTimerMatchReg h := Option.some.inj h ▸ waits_irqSetTimerMatchReg _ _
  getOverflowFlag h := by
    cases h
    exact waits_readSr _
  getMatchFlag h := by
    cases h
    exact waits_readSr _
  clearMatchFlag h := by
    cases h
    exact waits_of_eq rfl rfl rfl rfl rfl rfl id
  forcePendingIrq h := Option.some.inj h ▸ waits_irqForcePendingIrq _

end Tc

/-! ## Reading the time -/

/-- The counter, with the offset, has a seventeenth bit that is set in the upper bits too. -/
def Carry (upper counter : ℕ) : Prop := 2 ^ 16 ≤ counter ∧ upper / 2 ^ 16 % 2 = 1

instance (upper counter : ℕ) : Decidable (Carry upper counter) := instDecidableAnd

/-- The seventeenth bit is lost if it is set in the upper bits too. -/
theorem or_add_carry {upper counter : ℕ} (hdvd : 2 ^ 16 ∣ upper) (hlt : counter < 2 ^ 17) :
    (upper ||| counter) + (if Carry upper counter then 2 ^ 16 else 0) = upper + counter := by
  have hmod : (upper ||| counter) % 2 ^ 16 = counter % 2 ^ 16 := by
    rw [Nat.or_mod_two_pow, Nat.mod_eq_zero_of_dvd hdvd, Nat.zero_or]
  have hdiv : (upper ||| counter) / 2 ^ 16 = upper / 2 ^ 16 ||| counter / 2 ^ 16 := Nat.or_div_two_pow
  have hup := Nat.mod_eq_zero_of_dvd hdvd
  rcases Nat.lt_or_ge counter (2 ^ 16) with hc | hc
  · rw [Nat.div_eq_of_lt hc, Nat.or_zero] at hdiv
    rw [if_neg fun h => absurd h.1 (not_le.mpr hc)]
    omega
  · have hone : counter / 2 ^ 16 = 1 := by omega
    rw [hone] at hdiv
    -- setting the lowest bit
    have h2 : (upper / 2 ^ 16 ||| 1) / 2 = upper / 2 ^ 16 / 2 := by rw [Nat.or_div_two, Nat.or_zero]
    have h1 : (upper / 2 ^ 16 ||| 1) % 2 = 1 := by simp
    split_ifs with hcarry <;> unfold Carry at hcarry <;> omega

namespace Adapter

open Tc

variable {s s' : Adapter Tc} {v now : ℕ}

/-- At the time `now` the upper bits are right, up to one pending overflow, and `counterAdd` makes up the rest. -/
structure InTime (s : Adapter Tc) (now : ℕ) : Prop where
  dvd : 2 ^ 16 ∣ s.upperTimeTick
  dvdIrq : 2 ^ 16 ∣ s.upperIrqTick
  cv_lt : s.drv.cv < 2 ^ 16
  rc_lt : s.drv.rc < 2 ^ 16
  add_lt : s.drv.counterAdd < 2 ^ 16
  time : s.upperTimeTick + s.drv.raw + s.drv.counterAdd = now

theorem InTime.frame (h : s.InTime now) (hf : Frame Waits 16 s s') (hl : s'.drv.lost = false) :
    s'.InTime (now + (s'.drv.ticks - s.drv.ticks)) where
  dvd := hf.upper ▸ h.dvd
  dvdIrq := hf.upperIrq h.dvdIrq
  cv_lt := hf.drv.cv_lt h.cv_lt
  rc_lt := hf.drv.rc_lt h.rc_lt
  add_lt := hf.drv.counterAdd ▸ h.add_lt
  time := by
    rw [hf.upper, hf.drv.counterAdd, hf.drv.raw hl h.cv_lt, ← h.time]
    omega

/-- What the first access of a read sees, with `counterAdd`. -/
def counterSeen (s : Adapter Tc) : ℕ := s.drv.wait.cv + s.drv.wait.counterAdd

/-- **The value read** is a time of the read, but for one period of the counter when the seventeenth bit is lost. -/
theorem irqGetTimeTick_carry (hs : s.InTime now) (h : s.irqGetTimeTick 16 = some (v, s')) (hl : s'.drv.lost = false) :
    let c := if Carry s.upperTimeTick s.counterSeen then 2 ^ 16 else 0
    now ≤ v + c ∧ v + c ≤ now + (s'.drv.ticks - s.drv.ticks) := by
  have hadd := hs.add_lt
  have htime := hs.time
  have hup := Nat.mod_eq_zero_of_dvd hs.dvd
  have w₁ := waits_wait s.drv
  have hcv := w₁.cv_lt hs.cv_lt
  have hseen : s.counterSeen = s.drv.wait.cv + s.drv.counterAdd := by rw [counterSeen, w₁.counterAdd]
  have hcarry := @or_add_carry _ s.counterSeen hs.dvd (by omega)
  obtain ⟨counter, d₁, d₂, h₁, h⟩ := irqGetTimeTick_cases h
  obtain ⟨hc₁, rfl⟩ := Prod.mk.inj (Option.some.inj h₁)
  obtain rfl : s.counterSeen = counter := hc₁
  have w₂ := waits_readSr s.drv.wait
  obtain ⟨h₂, rfl, rfl⟩ | ⟨h₂, counter2, d₃, h₃, rfl, rfl⟩ := h
  · obtain ⟨hf, rfl⟩ := Prod.mk.inj (Option.some.inj h₂)
    have hp : s.drv.wait.pending = false := by
      by_contra hcon
      have := w₂.flag (by simpa using hcon)
      rw [pending_readSr, hf] at this
      cases this
    have hraw := w₁.raw (w₂.lost hl) hs.cv_lt
    rw [raw, hp, Bool.toNat_false] at hraw
    have := w₁.ticks_le
    have := w₂.ticks_le
    dsimp only
    omega
  · obtain ⟨hf, rfl⟩ := Prod.mk.inj (Option.some.inj h₂)
    obtain ⟨rfl, rfl⟩ := Prod.mk.inj (Option.some.inj h₃)
    have w₃ := waits_wait s.drv.wait.readSr
    have w₂₃ := w₂.trans w₃
    have hraw₁ := w₁.raw (w₂₃.lost hl) hs.cv_lt
    have hraw₃ := (w₁.trans w₂₃).raw hl hs.cv_lt
    have hcv₃ := w₂₃.cv_lt hcv
    have hadd₃ := (w₁.trans w₂₃).counterAdd
    have hp₃ : s.drv.wait.readSr.wait.pending = true := w₃.flag (by rw [pending_readSr, hf])
    rw [raw, hp₃, Bool.toNat_true] at hraw₃
    have ht₁ := w₁.ticks_le
    have ht₃ := w₂₃.ticks_le
    have hbool := Bool.toNat_le s.drv.wait.pending
    rw [raw] at hraw₁
    have hmem := @pendingBit_mem (2 ^ 16) s.upperTimeTick
      (s.upperTimeTick + s.drv.raw + (s.drv.wait.ticks - s.drv.ticks))
      (s.upperTimeTick + s.drv.raw + (s.drv.wait.readSr.wait.ticks - s.drv.ticks)) true hs.dvd (by omega) (by omega)
      (by omega) (by rw [if_pos rfl]; omega)
    have hm₁ : (s.upperTimeTick + s.drv.raw + (s.drv.wait.ticks - s.drv.ticks)) % 2 ^ 16 = s.drv.wait.cv := by omega
    have hm₃ : (s.upperTimeTick + s.drv.raw + (s.drv.wait.readSr.wait.ticks - s.drv.ticks)) % 2 ^ 16 =
        s.drv.wait.readSr.wait.cv := by omega
    rw [hm₁, hm₃] at hmem
    simp only [Bool.true_and, decide_eq_true_eq] at hmem
    dsimp only
    rw [hadd₃]
    split_ifs at hmem hcarry ⊢ <;> omega

end Adapter

/-! ## While the timer is stopped -/

namespace Tc

variable {d d' d'' : Tc}

theorem elapse_of_stopped (h : d.enabled = false) (n : ℕ) : d.elapse n = d := by
  induction n with
  | zero => rfl
  | succ n ih => rw [elapse_succ, ih, tick, if_neg (by rw [h]; exact Bool.false_ne_true)]

theorem wait_of_stopped (h : d.enabled = false) : d.wait = { d with delays := d.delays.tail } := by
  rw [wait, elapse_of_stopped h]

theorem lost_irqStartTimer (hl : d.irqStartTimer.lost = false) : d.lost = false :=
  (waits_wait d).lost ((waits_wait { d.wait with enabled := true, cv := 0 }).lost hl)

/-- Nothing happens to the time. -/
structure Still (d d' : Tc) : Prop where
  enabled : d'.enabled = false
  rc : d'.rc = d.rc
  counterAdd : d'.counterAdd = d.counterAdd
  ticks : d'.ticks = d.ticks
  lost : d'.lost = d.lost
  pending : d'.pending = d.pending
  covfs : d.covfs = false → d'.covfs = false

theorem Still.trans (h : Still d d') (h' : Still d' d'') : Still d d'' :=
  ⟨h'.enabled, h'.rc.trans h.rc, h'.counterAdd.trans h.counterAdd, h'.ticks.trans h.ticks, h'.lost.trans h.lost,
    h'.pending.trans h.pending, fun hc => h'.covfs (h.covfs hc)⟩

theorem still_wait (h : d.enabled = false) : Still d d.wait := by
  rw [wait_of_stopped h]
  exact ⟨h, rfl, rfl, rfl, rfl, rfl, id⟩

theorem still_readSr (h : d.enabled = false) : Still d d.readSr := by
  refine (still_wait h).trans ?_
  have hw := (still_wait h).enabled
  unfold readSr
  generalize d.wait = d at hw
  exact ⟨hw, rfl, rfl, rfl, rfl, by simp [Tc.pending, Bool.or_comm], fun _ => rfl⟩

theorem still_irqForcePendingIrq (h : d.enabled = false) : Still d d.irqForcePendingIrq := by
  have hw := still_wait h
  unfold irqForcePendingIrq
  generalize d.wait = d' at hw
  exact ⟨hw.enabled, hw.rc, hw.counterAdd, hw.ticks, hw.lost, hw.pending, hw.covfs⟩

end Tc

namespace Adapter

open Tc
open TimerAdapter (upperPart lowerPart)

variable {s s' : Adapter Tc} {v now oldTick tick : ℕ}

/-- The armed tick, as it is read. -/
def irqTick (s : Adapter Tc) : ℕ := s.upperIrqTick ||| (s.drv.rc + s.drv.counterAdd)

theorem irqGetTimeTick_still (hs : s.drv.enabled = false) (h : s.irqGetTimeTick 16 = some (v, s')) :
    Still s.drv s'.drv ∧ s'.drv.covfs = false ∧ s' = { s with drv := s'.drv } := by
  obtain ⟨counter, d₁, d₂, h₁, h⟩ := irqGetTimeTick_cases h
  obtain ⟨-, rfl⟩ := Prod.mk.inj (Option.some.inj h₁)
  have h12 := (still_wait hs).trans (still_readSr (still_wait hs).enabled)
  obtain ⟨h₂, rfl, rfl⟩ | ⟨h₂, counter2, d₃, h₃, rfl, rfl⟩ := h
  · obtain ⟨-, rfl⟩ := Prod.mk.inj (Option.some.inj h₂)
    exact ⟨h12, rfl, rfl⟩
  · obtain ⟨-, rfl⟩ := Prod.mk.inj (Option.some.inj h₂)
    obtain ⟨-, rfl⟩ := Prod.mk.inj (Option.some.inj h₃)
    have h3 := still_wait h12.enabled
    exact ⟨h12.trans h3, h3.covfs rfl, rfl⟩

/-- The register that is written back holds what it held. -/
theorem matchReg_back {upper r a : ℕ} (hdvd : 2 ^ 16 ∣ upper) (hr : r < 2 ^ 16) (_ha : a < 2 ^ 16) :
    u32 ((lowerPart 16 (upper ||| (r + a)) : ℕ) - (a : ℕ)) % 2 ^ 16 = r := by
  have hlow : lowerPart 16 (upper ||| (r + a)) = (r + a) % 2 ^ 16 := by
    rw [lowerPart, Nat.and_two_pow_sub_one_eq_mod, Nat.or_mod_two_pow, Nat.mod_eq_zero_of_dvd hdvd, Nat.zero_or]
  rw [hlow]
  unfold u32
  omega

/-- Nor do the upper bits that are written back change what is read. -/
theorem upperPart_or_back {upper x : ℕ} (hdvd : 2 ^ 16 ∣ upper) : upperPart 16 (upper ||| x) ||| x = upper ||| x := by
  obtain ⟨k, rfl⟩ := hdvd
  rw [upperPart, Nat.shiftRight_eq_div_pow, Nat.or_div_two_pow, Nat.mul_div_cancel_left _ (by positivity), mul_comm,
    ← Nat.shiftLeft_eq]
  refine Nat.eq_of_testBit_eq fun i => ?_
  simp only [Nat.testBit_or, Nat.testBit_shiftLeft, Nat.testBit_div_two_pow]
  by_cases hi : 16 ≤ i
  · simp [hi]
  · simp [hi]

/-- The state after the time was moved forward, while the timer is stopped. -/
structure Moved (s s' : Adapter Tc) (tick : ℕ) : Prop where
  upper : s'.upperTimeTick = upperPart 16 tick
  counterAdd : s'.drv.counterAdd = lowerPart 16 tick
  pending : s'.drv.pending = false
  enabled : s'.drv.enabled = false
  ticks : s'.drv.ticks = s.drv.ticks
  lost : s'.drv.lost = s.drv.lost
  dvdIrq : 2 ^ 16 ∣ s.upperIrqTick → 2 ^ 16 ∣ s'.upperIrqTick
  rc_lt : s.drv.rc < 2 ^ 16 → s'.drv.rc < 2 ^ 16

theorem lowerPart_eq (tick : ℕ) : lowerPart 16 tick = tick % 2 ^ 16 := Nat.and_two_pow_sub_one_eq_mod _ _

theorem upperPart_add_lowerPart (tick : ℕ) : upperPart 16 tick + lowerPart 16 tick = tick := by
  rw [lowerPart_eq, upperPart, Nat.shiftLeft_eq, Nat.shiftRight_eq_div_pow, Nat.div_add_mod']

/-- The next interrupt is written while the timer is stopped. -/
theorem writeIrqTick_moved (hs : Moved s s' tick) {s'' : Adapter Tc} {t : ℕ}
    (h : s'.writeIrqTick 16 0 t = some s'') :
    Moved s s'' tick ∧ s''.upperIrqTick = upperPart 16 t ∧
      s''.drv.rc = u32 (lowerPart 16 t - s'.drv.counterAdd) % 2 ^ 16 := by
  simp only [writeIrqTick, Option.bind_eq_bind, Option.bind_eq_some_iff] at h
  obtain ⟨d, h₁, h⟩ := h
  cases h
  obtain rfl := Option.some.inj h₁
  have hw := still_wait hs.enabled
  have hreg : u32 (lowerPart 16 t - s'.drv.wait.counterAdd) % 2 ^ 16 < 2 ^ 16 := Nat.mod_lt _ (by positivity)
  rw [Nat.add_zero]
  refine ⟨⟨hs.upper, hw.counterAdd.trans hs.counterAdd, hw.pending.trans hs.pending, hw.enabled, hw.ticks.trans hs.ticks,
    hw.lost.trans hs.lost, fun _ => dvd_upperPart _ _, fun _ => hreg⟩, rfl, ?_⟩
  rw [irqSetTimerMatchReg, hw.counterAdd]

theorem forceLate_moved (hs : Moved s s' tick) {s'' : Adapter Tc} (h : s'.forceLate = some s'') :
    Moved s s'' tick ∧ s''.upperIrqTick = s'.upperIrqTick ∧ s''.drv.rc = s'.drv.rc := by
  simp only [forceLate, Option.bind_eq_bind, Option.bind_eq_some_iff] at h
  obtain ⟨d, h₁, h⟩ := h
  cases h
  obtain rfl := Option.some.inj h₁
  have hw := still_irqForcePendingIrq hs.enabled
  exact ⟨⟨hs.upper, hw.counterAdd.trans hs.counterAdd, hw.pending.trans hs.pending, hw.enabled, hw.ticks.trans hs.ticks,
    hw.lost.trans hs.lost, hs.dvdIrq, fun hr => hw.rc ▸ hs.rc_lt hr⟩, rfl, hw.rc⟩

/-- **The time is moved forward.** The armed tick stays where it is if `counterAdd` does not change. -/
theorem moveTime_spec (hen : s.drv.enabled = false) (hcov : s.drv.covfs = false)
    (h : s.moveTime 16 0 oldTick tick = some s') :
    Moved s s' tick ∧ (2 ^ 16 ∣ s.upperIrqTick → s.drv.rc < 2 ^ 16 → s.drv.counterAdd = lowerPart 16 tick →
      s'.irqTick = s.irqTick ∧ s'.drv.rc = s.drv.rc) := by
  have hlow : lowerPart 16 tick % 2 ^ 16 = lowerPart 16 tick := by rw [lowerPart_eq, Nat.mod_mod]
  simp only [moveTime, irqGetIrqTick, Option.bind_eq_bind, Option.bind_eq_some_iff, Prod.exists] at h
  obtain ⟨d₁, h₁, d₂, h₂, next, s₁, ⟨reg, d₃, h₃, h₄⟩, h⟩ := h
  obtain rfl := Option.some.inj h₁
  obtain rfl := Option.some.inj h₂
  obtain ⟨rfl, rfl⟩ := Prod.mk.inj (Option.some.inj h₃)
  obtain ⟨rfl, rfl⟩ := Prod.mk.inj (Option.some.inj h₄)
  have hw := still_wait (d := (s.drv.irqSetTimerCounter (lowerPart 16 tick)).irqClearOverflowFlag) hen
  generalize ((s.drv.irqSetTimerCounter (lowerPart 16 tick)).irqClearOverflowFlag).wait = d at h hw
  have hadd : d.counterAdd = lowerPart 16 tick := hw.counterAdd.trans hlow
  have hmoved : Moved s { s with drv := d, upperTimeTick := upperPart 16 tick } tick := by
    refine ⟨rfl, hadd, hw.pending.trans ?_, hw.enabled, hw.ticks, hw.lost, id, fun hr => hw.rc ▸ hr⟩
    simp [pending, irqClearOverflowFlag, irqSetTimerCounter, hcov]
  by_cases hold : oldTick < s.upperIrqTick ||| (d.rc + d.counterAdd)
  · rw [if_pos hold] at h
    simp only [Option.bind_eq_some_iff] at h
    obtain ⟨s₂, hwrite, h⟩ := h
    obtain ⟨hm₂, hup₂, hrc₂⟩ := writeIrqTick_moved hmoved hwrite
    -- the register and the upper bits read as before
    have hkept : 2 ^ 16 ∣ s.upperIrqTick → s.drv.rc < 2 ^ 16 → s.drv.counterAdd = lowerPart 16 tick →
        s₂.irqTick = s.irqTick ∧ s₂.drv.rc = s.drv.rc := by
      intro hdvd hr hsame
      have hrc : s₂.drv.rc = s.drv.rc := by
        rw [hrc₂, hw.rc]
        dsimp only
        rw [hadd]
        exact matchReg_back hdvd hr (by rw [lowerPart_eq]; exact Nat.mod_lt _ (by positivity))
      refine ⟨?_, hrc⟩
      rw [irqTick, irqTick, hrc, hup₂, hm₂.counterAdd, hsame, hw.rc, hadd]
      exact upperPart_or_back hdvd
    split_ifs at h with hlate
    · obtain ⟨hm₃, hup₃, hrc₃⟩ := forceLate_moved hm₂ h
      refine ⟨hm₃, fun hdvd hr hsame => ?_⟩
      obtain ⟨hi, hrc⟩ := hkept hdvd hr hsame
      rw [irqTick, hup₃, hrc₃, hm₃.counterAdd, ← hm₂.counterAdd]
      exact ⟨hi, hrc⟩
    · cases h
      exact ⟨hm₂, hkept⟩
  · rw [if_neg hold] at h
    cases h
    refine ⟨hmoved, fun _ _ hsame => ⟨?_, hw.rc⟩⟩
    rw [irqTick, irqTick, hsame]
    dsimp only
    rw [hadd, hw.rc]
    rfl

/-- The timer is stopped. -/
def stopped (s : Adapter Tc) : Adapter Tc := { s with drv := s.drv.irqStopTimer }

theorem InTime.stopped (hs : s.InTime now) (hl : s.stopped.drv.lost = false) :
    s.stopped.InTime (now + (s.stopped.drv.ticks - s.drv.ticks)) := by
  have h : InTime { s with drv := s.drv.wait } _ := hs.frame ⟨waits_wait _, rfl, id⟩ hl
  exact ⟨h.dvd, h.dvdIrq, h.cv_lt, h.rc_lt, h.add_lt, h.time⟩

/-- The timer is started again: the time goes on from `tick`, and the armed tick is where it was. -/
theorem Moved.start (h : Moved s s' tick) (hdvd : 2 ^ 16 ∣ s.upperIrqTick) (hrc : s.drv.rc < 2 ^ 16)
    {s'' : Adapter Tc} (hs : s'' = { s' with drv := s'.drv.irqStartTimer }) (hl : s''.drv.lost = false) :
    s''.InTime (tick + (s''.drv.ticks - s.drv.ticks)) ∧ s''.drv.enabled = true ∧ s.drv.ticks ≤ s''.drv.ticks ∧
      s''.irqTick = s'.irqTick := by
  subst hs
  have hw := still_wait h.enabled
  unfold irqStartTimer at hl ⊢
  have hrc' := h.rc_lt hrc
  rw [← hw.rc] at hrc'
  have hpend : s'.drv.wait.pending = false := hw.pending.trans h.pending
  generalize hd : s'.drv.wait = d at hl hw hpend hrc' ⊢
  have w := waits_wait { d with enabled := true, cv := 0 }
  have hticks : d.ticks = s.drv.ticks := hw.ticks.trans h.ticks
  have hin : InTime { s' with drv := { d with enabled := true, cv := 0 } } tick := by
    refine ⟨h.upper ▸ dvd_upperPart _ _, h.dvdIrq hdvd, by positivity, hrc', ?_, ?_⟩
    · change d.counterAdd < _
      rw [hw.counterAdd, h.counterAdd, lowerPart_eq]
      exact Nat.mod_lt _ (by positivity)
    · have hraw : ({ d with enabled := true, cv := 0 } : Tc).raw = 0 := by
        change 2 ^ 16 * d.pending.toNat + 0 = 0
        rw [hpend]
        rfl
      change s'.upperTimeTick + ({ d with enabled := true, cv := 0 } : Tc).raw + d.counterAdd = tick
      rw [hraw, h.upper, hw.counterAdd, h.counterAdd]
      exact upperPart_add_lowerPart tick
  have hframe : InTime { s' with drv := { d with enabled := true, cv := 0 }.wait } _ := hin.frame ⟨w, rfl, id⟩ hl
  refine ⟨?_, w.enabled, hticks ▸ w.ticks_le, ?_⟩
  · rw [← hticks]
    exact hframe
  · change s'.upperIrqTick ||| ({ d with enabled := true, cv := 0 }.wait.rc + _) = _
    rw [irqTick, w.counterAdd, ← hw.counterAdd, ← hw.rc, wait, rc_elapse]

theorem lost_irqSetTimeNs {ns : ℤ} (h : s.irqSetTimeNs 16 0 ns = some s') (hl : s'.drv.lost = false) :
    s.drv.lost = false := by
  simp only [irqSetTimeNs, Option.bind_eq_bind, Option.bind_eq_some_iff, Prod.exists] at h
  obtain ⟨d₀, h₀, oldTick, s₁, h₁, s₂, h₂, d₃, h₃, h⟩ := h
  obtain rfl := Option.some.inj h₀
  obtain rfl := Option.some.inj h₃
  obtain rfl := Option.some.inj h
  obtain ⟨hstill, hcov, -⟩ := irqGetTimeTick_still (s := s.stopped) rfl h₁
  have hlost₂ : s₂.drv.lost = false := lost_irqStartTimer hl
  refine (waits_wait s.drv).lost (hstill.lost.symm.trans ?_)
  unfold moveForward at h₂
  split_ifs at h₂ with hcond
  · exact (moveTime_spec (s := { s₁ with tc := (s₁.tc.ns2tick ns).2 }) hstill.enabled hcov h₂).1.lost.symm.trans hlost₂
  · obtain rfl := Option.some.inj h₂
    exact hlost₂

/-- The interrupt routine reads the flags, and may clear the copy. -/
theorem irqHandleOverflow_drv (h : s.irqHandleOverflow 16 = some s') :
    ∃ f, s'.drv = { s.drv.readSr with srCovfs := f } := by
  simp only [irqHandleOverflow, Option.bind_eq_bind, Option.bind_eq_some_iff, Prod.exists] at h
  obtain ⟨overflow, d, h₁, h⟩ := h
  obtain ⟨-, rfl⟩ := Prod.mk.inj (Option.some.inj h₁)
  split_ifs at h <;> obtain rfl := Option.some.inj h <;> exact ⟨_, rfl⟩

theorem lost_irqHandleOverflow (h : s.irqHandleOverflow 16 = some s') (hl : s'.drv.lost = false) :
    s.drv.lost = false := by
  obtain ⟨f, he⟩ := irqHandleOverflow_drv h
  rw [he] at hl
  exact (waits_readSr s.drv).lost hl

theorem enabled_irqHandleOverflow (h : s.irqHandleOverflow 16 = some s') : s'.drv.enabled = s.drv.enabled := by
  obtain ⟨f, he⟩ := irqHandleOverflow_drv h
  rw [he]
  exact (waits_readSr s.drv).enabled

theorem ticks_irqHandleOverflow (h : s.irqHandleOverflow 16 = some s') : s.drv.ticks ≤ s'.drv.ticks := by
  obtain ⟨f, he⟩ := irqHandleOverflow_drv h
  rw [he]
  exact (waits_readSr s.drv).ticks_le

theorem toNat_mod {t : ℤ} {a : ℕ} (h0 : 0 ≤ t) (h : t % 2 ^ 16 = a) : a = t.toNat % 2 ^ 16 := by omega

/-- **The time is set** to a later tick. -/
theorem irqSetTimeNs_spec {ns : ℤ} (hs : s.InTime now) (h : s.irqSetTimeNs 16 0 ns = some s')
    (hl : s'.drv.lost = false)
    (hlt : ((now + (s.stopped.drv.ticks - s.drv.ticks) : ℕ) : ℤ) < (s.tc.ns2tick ns).1) :
    s'.InTime ((s.tc.ns2tick ns).1.toNat + (s'.drv.ticks - s.stopped.drv.ticks)) ∧ s'.drv.enabled = true ∧
      s.stopped.drv.ticks ≤ s'.drv.ticks ∧
      ((s.tc.ns2tick ns).1 % 2 ^ 16 = s.stopped.drv.counterAdd → s'.irqTick = s.stopped.irqTick) := by
  simp only [irqSetTimeNs, Option.bind_eq_bind, Option.bind_eq_some_iff, Prod.exists] at h
  obtain ⟨d₀, h₀, oldTick, s₁, h₁, s₂, h₂, d₃, h₃, h⟩ := h
  obtain rfl := Option.some.inj h₀
  obtain rfl := Option.some.inj h₃
  have hs' : s' = { s₂ with drv := s₂.drv.irqStartTimer } := (Option.some.inj h).symm
  have h₁ : s.stopped.irqGetTimeTick 16 = some (oldTick, s₁) := h₁
  obtain ⟨hstill, hcov, hs₁⟩ := irqGetTimeTick_still (s := s.stopped) rfl h₁
  have htc : s₁.tc = s.tc := by rw [hs₁]; rfl
  rw [htc] at h₂
  -- the time that was read is not later than the time is
  have hold : s.stopped.drv.lost = false → oldTick ≤ now + (s.stopped.drv.ticks - s.drv.ticks) := by
    intro hl₀
    have hmem := (irqGetTimeTick_carry (hs.stopped hl₀) h₁ (hstill.lost.trans hl₀)).2
    rw [hstill.ticks] at hmem
    omega
  have hlost₂ : s₂.drv.lost = false := lost_irqStartTimer (by rw [hs'] at hl; exact hl)
  unfold moveForward at h₂
  split_ifs at h₂ with hcond
  · obtain ⟨hm, hkeep⟩ := moveTime_spec (s := { s₁ with tc := (s.tc.ns2tick ns).2 }) hstill.enabled hcov h₂
    have hl₀ : s.stopped.drv.lost = false := hstill.lost.symm.trans (hm.lost.symm.trans hlost₂)
    have hin := hs.stopped hl₀
    have hdvd : 2 ^ 16 ∣ s₁.upperIrqTick := by
      rw [hs₁]
      exact hin.dvdIrq
    have hrc : s₁.drv.rc < 2 ^ 16 := hstill.rc ▸ hin.rc_lt
    obtain ⟨h1, h2, h3, h5⟩ := hm.start hdvd hrc hs' hl
    have hticks : s₁.drv.ticks = s.stopped.drv.ticks := hstill.ticks
    refine ⟨hticks ▸ h1, h2, hticks ▸ h3, fun hsame => ?_⟩
    have hirq : s₁.irqTick = s.stopped.irqTick := by
      rw [irqTick, irqTick, hstill.rc, hstill.counterAdd, hs₁]
    have hadd : s₁.drv.counterAdd = lowerPart 16 (s.tc.ns2tick ns).1.toNat := by
      rw [hstill.counterAdd, lowerPart_eq]
      exact toNat_mod (le_trans (Int.natCast_nonneg _) hcond.le) hsame
    exact h5.trans ((hkeep hdvd hrc hadd).1.trans hirq)
  · obtain rfl := Option.some.inj h₂
    have := hold (hstill.lost.symm.trans hlost₂)
    omega

/-- The interrupt routine adds the wrap to the upper bits. -/
theorem InTime.irqHandleOverflow (hs : s.InTime now) (h : s.irqHandleOverflow 16 = some s')
    (hl : s'.drv.lost = false) : s'.InTime (now + (s'.drv.ticks - s.drv.ticks)) := by
  have w := waits_readSr s.drv
  simp only [Adapter.irqHandleOverflow, Option.bind_eq_bind, Option.bind_eq_some_iff, Prod.exists] at h
  obtain ⟨overflow, d, h₁, h⟩ := h
  obtain ⟨hov, rfl⟩ := Prod.mk.inj (Option.some.inj h₁)
  have hf : Frame Waits 16 s { s with drv := s.drv.readSr } := ⟨w, rfl, id⟩
  split_ifs at h with hov'
  · obtain rfl := Option.some.inj h
    have hin := hs.frame hf hl
    refine ⟨Nat.dvd_add hin.dvd (dvd_refl _), hin.dvdIrq, hin.cv_lt, hin.rc_lt, hin.add_lt, ?_⟩
    have htime : s.upperTimeTick + s.drv.readSr.raw + s.drv.readSr.counterAdd =
      now + (s.drv.readSr.ticks - s.drv.ticks) := hin.time
    have hraw : s.drv.readSr.raw = 2 ^ 16 + s.drv.readSr.cv := by
      rw [raw, pending_readSr, hov, hov', Bool.toNat_true, Nat.mul_one]
    rw [raw_irqClearOverflowFlag rfl]
    have hadd : s.drv.readSr.irqClearOverflowFlag.counterAdd = s.drv.readSr.counterAdd := rfl
    have hticks : s.drv.readSr.irqClearOverflowFlag.ticks = s.drv.readSr.ticks := rfl
    dsimp only
    omega
  · obtain rfl := Option.some.inj h
    exact hs.frame hf hl

/-! ## Every function returns -/

theorem irqGetTimeTick_some (s : Adapter Tc) : ∃ v s', s.irqGetTimeTick 16 = some (v, s') := by
  change ∃ v s', (if s.drv.wait.readSr.srCovfs = true then _ else _) = some (v, s')
  split_ifs
  · change ∃ v s', (if _ ≤ _ then _ else _) = some (v, s')
    split_ifs <;> exact ⟨_, _, rfl⟩
  · exact ⟨_, _, rfl⟩

theorem irqSetIrqTick_some (s : Adapter Tc) (tick : ℕ) : ∃ s', s.irqSetIrqTick 16 0 tick = some s' := by
  obtain ⟨v, s', h⟩ := irqGetTimeTick_some
    { s with drv := s.drv.irqSetTimerMatchReg (lowerPart 16 (tick + 0)), upperIrqTick := upperPart 16 (tick + 0) }
  change ∃ s', (Option.bind (irqGetTimeTick 16 _) _) = some s'
  rw [h, Option.bind_some]
  dsimp only
  split_ifs <;> exact ⟨_, rfl⟩

theorem rearmAll_some (rearm : List ℕ) (s : Adapter Tc) : ∃ s', rearmAll 16 0 rearm s = some s' := by
  induction rearm generalizing s with
  | nil => exact ⟨s, rfl⟩
  | cons tick rearm ih =>
    obtain ⟨s₁, h₁⟩ := irqSetIrqTick_some s tick
    rw [rearmAll, h₁]
    exact ih s₁

theorem irqHandleOverflow_some (s : Adapter Tc) : ∃ s', s.irqHandleOverflow 16 = some s' := by
  change ∃ s', (if s.drv.readSr.srCovfs = true then _ else _) = some s'
  split_ifs <;> exact ⟨_, rfl⟩

theorem irqHandler_some (rearm : List ℕ) (s : Adapter Tc) :
    ∃ s', s.irqHandler 16 (fun _ => rearmAll 16 0 rearm) = some s' := by
  have hmatch : ∃ s', s.irqHandleMatch 16 (fun _ => rearmAll 16 0 rearm) = some s' := by
    change ∃ s', (if (s.drv.readSr.srCpcs || s.lateIrq) = true then _ else _) = some s'
    split_ifs
    · obtain ⟨v, s', h⟩ := irqGetTimeTick_some { s with drv := s.drv.readSr.irqClearMatchFlag }
      change ∃ s', (Option.bind (irqGetTimeTick 16 _) _) = some s'
      rw [h, Option.bind_some]
      change ∃ s', (if _ = true then _ else _) = some s'
      split_ifs
      · exact rearmAll_some rearm _
      · exact ⟨_, rfl⟩
    · exact ⟨_, rfl⟩
  obtain ⟨s', h⟩ := hmatch
  rw [irqHandler, h]
  exact irqHandleOverflow_some s'

theorem moveTime_some (oldTick tick : ℕ) (s : Adapter Tc) : ∃ s', s.moveTime 16 0 oldTick tick = some s' := by
  change ∃ s' : Adapter Tc, (if oldTick < (_ : ℕ) then _ else _) = some s'
  split_ifs <;> exact ⟨_, rfl⟩

theorem irqSetTimeNs_some (ns : ℤ) (s : Adapter Tc) : ∃ s', s.irqSetTimeNs 16 0 ns = some s' := by
  obtain ⟨v, s₁, h⟩ := irqGetTimeTick_some s.stopped
  have hmove : ∃ s', { s₁ with tc := (s₁.tc.ns2tick ns).2 }.moveForward 16 0 v (s₁.tc.ns2tick ns).1 = some s' := by
    unfold moveForward
    split_ifs
    · exact moveTime_some _ _ _
    · exact ⟨_, rfl⟩
  obtain ⟨s', h'⟩ := hmove
  refine ⟨{ s' with drv := s'.drv.irqStartTimer }, ?_⟩
  change Option.bind (s.stopped.irqGetTimeTick 16) _ = _
  rw [h, Option.bind_some]
  change Option.bind (moveForward 16 0 { s₁ with tc := (s₁.tc.ns2tick ns).2 } v (s₁.tc.ns2tick ns).1) _ = _
  rw [h']
  rfl

end Adapter

end Miosix
