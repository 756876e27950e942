import MiosixKernel.Timer.AtsamTc

/-!
# The os timer: runs of the timer/counter of the ATsam4l

The time is the tick that was last set and the ticks since then.

* `TcSystem`, `TcEvent`: the timer, and what can happen;
* `Meets`: when a call does what it should;
* **`run_settable`**: along every run whose events all do, the timer behaves as a settable counter;
* `run_backwards`, `run_movesIrq`: without that, the time goes back and an armed interrupt is moved.
-/

namespace Miosix

open Lib Adapter

/-- The timer, the tick that was last set and the count of ticks at that moment, and the values read. -/
structure TcSystem where
  dev : Adapter Tc
  lastSet : ℕ
  since : ℕ
  reads : List ClockRead

/-- What can happen: ticks, a read, a jump of the time, scheduling, and the interrupt routine, in which
`IRQtimerInterrupt` schedules `rearm`. -/
inductive TcEvent where
  | elapse (n : ℕ)
  | read (delays : List ℕ)
  | setTime (ns : ℤ) (delays : List ℕ)
  | setIrq (tick : ℕ) (delays : List ℕ)
  | irq (rearm : List ℕ) (delays : List ℕ)

namespace Adapter

/-- A call in which these ticks pass. -/
def withDelays (s : Adapter Tc) (delays : List ℕ) : Adapter Tc := { s with drv := { s.drv with delays := delays } }

/-- A forced interrupt is acknowledged. -/
def acknowledge (s : Adapter Tc) : Adapter Tc := { s with drv := { s.drv with forced := false } }

end Adapter

namespace TcSystem

/-- The tick that was last set and the ticks since then. -/
def timeOf (s : TcSystem) (dev : Adapter Tc) : ℕ := s.lastSet + (dev.drv.ticks - s.since)

def time (s : TcSystem) : ℕ := s.timeOf s.dev

/-- The time is set to `tick` when the timer is stopped, if it is later. -/
def setLast (s : TcSystem) (stopped : Adapter Tc) (tick : ℤ) : TcSystem :=
  if (s.timeOf stopped : ℤ) < tick then { s with lastSet := tick.toNat, since := stopped.drv.ticks } else s

def step (s : TcSystem) : TcEvent → Option TcSystem
  | .elapse n => some { s with dev := { s.dev with drv := s.dev.drv.elapse n } }
  | .read delays => do
    let (v, dev) ← (s.dev.withDelays delays).irqGetTimeTick 16
    pure { s with dev := dev, reads := s.reads ++ [⟨s.time, v, s.timeOf dev⟩] }
  | .setTime ns delays => do
    let dev ← (s.dev.withDelays delays).irqSetTimeNs 16 0 ns
    pure { s.setLast (s.dev.withDelays delays).stopped (s.dev.tc.ns2tick ns).1 with dev := dev }
  | .setIrq tick delays => do
    let dev ← (s.dev.withDelays delays).irqSetIrqTick 16 0 tick
    pure { s with dev := dev }
  | .irq rearm delays => do
    let dev ← (s.dev.acknowledge.withDelays delays).irqHandler 16 fun _ => rearmAll 16 0 rearm
    pure { s with dev := dev }

def run : TcSystem → List TcEvent → Option TcSystem
  | s, [] => some s
  | s, e :: es => do
    let s ← s.step e
    run s es

/-- Something holds of each event of a run, in the state in which it happens. -/
def EachEvent (P : TcSystem → TcEvent → Prop) : TcSystem → List TcEvent → Prop
  | _, [] => True
  | s, e :: es => P s e ∧ ∀ s', s.step e = some s' → EachEvent P s' es

/-- A jump is to a later tick and, while an interrupt is armed in the future, does not change `counterAdd`. -/
def JumpMeets (now : ℕ) (tick : ℤ) (irqTick counterAdd : ℕ) : Prop :=
  (now : ℤ) < tick ∧ (now < irqTick → tick % 2 ^ 16 = counterAdd)

instance (now : ℕ) (tick : ℤ) (irqTick counterAdd : ℕ) : Decidable (JumpMeets now tick irqTick counterAdd) :=
  instDecidableAnd

/-- No read loses a bit of the counter, and each jump is as it should be. -/
def Meets (s : TcSystem) : TcEvent → Prop
  | .read delays => ¬Carry s.dev.upperTimeTick (s.dev.withDelays delays).counterSeen
  | .setTime ns delays =>
    let s₀ := (s.dev.withDelays delays).stopped
    JumpMeets (s.timeOf s₀) (s.dev.tc.ns2tick ns).1 s₀.irqTick s₀.drv.counterAdd
  | _ => True

instance decidableMeets (s : TcSystem) : (e : TcEvent) → Decidable (s.Meets e)
  | .elapse _ => instDecidableTrue
  | .read _ => instDecidableNot
  | .setTime _ _ => instDecidableJumpMeets _ _ _ _
  | .setIrq _ _ => instDecidableTrue
  | .irq _ _ => instDecidableTrue

instance decidableEachEvent : (s : TcSystem) → (es : List TcEvent) → Decidable (s.EachEvent Meets es)
  | _, [] => instDecidableTrue
  | s, e :: es =>
    have : Decidable (∀ s', s.step e = some s' → EachEvent Meets s' es) :=
      match h : s.step e with
      | none => .isTrue fun s' h' => by cases h'
      | some s₁ => @decidable_of_iff _ (EachEvent Meets s₁ es)
          ⟨fun hP s' h' => Option.some.inj h' ▸ hP, fun hP => hP s₁ rfl⟩ (decidableEachEvent s₁ es)
    instDecidableAnd

/-- An interrupt that is armed in the future when the time is set stays armed at the same tick, at which the hardware
matches. -/
def KeepsIrq (s : TcSystem) : TcEvent → Prop
  | .setTime ns delays =>
    let s₀ := (s.dev.withDelays delays).stopped
    s.timeOf s₀ < s₀.irqTick → ∀ s', s.step (.setTime ns delays) = some s' →
      s'.dev.irqTick = s₀.irqTick ∧ ∀ n, s'.time + n = s₀.irqTick →
        (s'.dev.drv.elapse n).cv = s'.dev.drv.rc ∧ (0 < n → (s'.dev.drv.elapse n).cpcs = true)
  | _ => True

/-- The timer is on, its time is right, and so were the reads. -/
structure Ok (s : TcSystem) : Prop where
  enabled : s.dev.drv.enabled = true
  since_le : s.since ≤ s.dev.drv.ticks
  inTime : s.dev.InTime s.time
  reads : ReadsOk s.reads s.time

variable {s s' : TcSystem} {dev : Adapter Tc}

theorem frame_withDelays (s : Adapter Tc) (l : List ℕ) : Frame Tc.Waits 16 s (s.withDelays l) :=
  ⟨Tc.waits_of_eq rfl rfl rfl rfl rfl rfl id, rfl, id⟩

theorem frame_acknowledge (s : Adapter Tc) : Frame Tc.Waits 16 s s.acknowledge :=
  ⟨Tc.waits_of_eq rfl rfl rfl rfl rfl rfl id, rfl, id⟩

theorem Ok.timeOf_eq (h : s.Ok) (hle : s.dev.drv.ticks ≤ dev.drv.ticks) :
    s.timeOf dev = s.time + (dev.drv.ticks - s.dev.drv.ticks) := by
  have := h.since_le
  unfold time timeOf
  omega

/-- Some time passes, and the flag is not cleared. -/
theorem Ok.waits (h : s.Ok) (hw : Frame Tc.Waits 16 s.dev dev) (hl : dev.drv.lost = false) :
    Ok { s with dev := dev } := by
  have ht := h.timeOf_eq hw.drv.ticks_le
  have hin := h.inTime.frame hw hl
  rw [← ht] at hin
  exact ⟨hw.drv.enabled.trans h.enabled, h.since_le.trans hw.drv.ticks_le, hin, h.reads.later (by
    change s.time ≤ s.timeOf dev
    omega)⟩

theorem step_lost (e : TcEvent) (hs : s.step e = some s') (hl : s'.dev.drv.lost = false) :
    s.dev.drv.lost = false := by
  have hR := Tc.driverRel_waits
  cases e with
  | elapse n =>
    cases hs
    exact (Tc.waits_elapse n _).lost hl
  | read delays =>
    simp only [step, Option.bind_eq_bind, Option.bind_eq_some_iff, Prod.exists] at hs
    obtain ⟨v, dev, hd, hs⟩ := hs
    cases hs
    exact (hR.irqGetTimeTick hd).drv.lost hl
  | setTime ns delays =>
    simp only [step, Option.bind_eq_bind, Option.bind_eq_some_iff] at hs
    obtain ⟨dev, hd, hs⟩ := hs
    cases hs
    have hl₀ : (s.dev.withDelays delays).drv.lost = false := lost_irqSetTimeNs hd hl
    exact hl₀
  | setIrq tick delays =>
    simp only [step, Option.bind_eq_bind, Option.bind_eq_some_iff] at hs
    obtain ⟨dev, hd, hs⟩ := hs
    cases hs
    exact (hR.irqSetIrqTick hd).drv.lost hl
  | irq rearm delays =>
    simp only [step, irqHandler, Option.bind_eq_bind, Option.bind_eq_some_iff] at hs
    obtain ⟨dev, ⟨dev₁, hd, ho⟩, hs⟩ := hs
    cases hs
    exact (hR.irqHandleMatch (fun _ _ _ => hR.rearmAll rearm) hd).drv.lost (lost_irqHandleOverflow ho hl)

/-- The hardware matches at the armed tick. -/
theorem Ok.matches (h : s.Ok) {n : ℕ} (hn : s.time + n = s.dev.irqTick) :
    (s.dev.drv.elapse n).cv = s.dev.drv.rc ∧ (0 < n → (s.dev.drv.elapse n).cpcs = true) := by
  have hmod : s.dev.irqTick % 2 ^ 16 = (s.dev.drv.rc + s.dev.drv.counterAdd) % 2 ^ 16 := by
    rw [irqTick, Nat.or_mod_two_pow, Nat.mod_eq_zero_of_dvd h.inTime.dvdIrq, Nat.zero_or]
  have hup := Nat.mod_eq_zero_of_dvd h.inTime.dvd
  have htime := h.inTime.time
  have hrc := h.inTime.rc_lt
  rw [Tc.raw] at htime
  have hcv : (s.dev.drv.cv + n) % 2 ^ 16 = s.dev.drv.rc := by omega
  exact ⟨(Tc.cv_elapse h.enabled h.inTime.cv_lt n).trans hcv,
    fun hpos => Tc.cpcs_elapse h.enabled h.inTime.cv_lt hpos hcv⟩

/-- The time is set. -/
theorem Ok.setTime {ns : ℤ} {delays : List ℕ} (h : s.Ok) (hm : s.Meets (.setTime ns delays))
    (hs : s.step (.setTime ns delays) = some s') (hl : s'.dev.drv.lost = false) :
    s'.Ok ∧ s.KeepsIrq (.setTime ns delays) := by
  obtain ⟨hlt, hkeep⟩ := hm
  have hs' := hs
  simp only [step, Option.bind_eq_bind, Option.bind_eq_some_iff] at hs
  obtain ⟨dev, hd, hs⟩ := hs
  have hs := Option.some.inj hs
  rw [setLast, if_pos hlt] at hs
  subst hs
  have hwd := frame_withDelays s.dev delays
  have hin : (s.dev.withDelays delays).InTime s.time := by
    have := h.inTime.frame hwd ((lost_irqSetTimeNs hd hl))
    rwa [show (s.dev.withDelays delays).drv.ticks = s.dev.drv.ticks from rfl, Nat.sub_self, Nat.add_zero] at this
  have hstop : s.dev.drv.ticks ≤ (s.dev.withDelays delays).stopped.drv.ticks := (Tc.waits_wait (s.dev.withDelays delays).drv).ticks_le
  have htime := h.timeOf_eq hstop
  obtain ⟨h1, h2, h3, h4⟩ := irqSetTimeNs_spec hin hd hl (by
    rw [show (s.dev.withDelays delays).drv.ticks = s.dev.drv.ticks from rfl, ← htime]
    exact hlt)
  have hok : Ok ⟨dev, (s.dev.tc.ns2tick ns).1.toNat, (s.dev.withDelays delays).stopped.drv.ticks, s.reads⟩ := by
    refine ⟨h2, h3, h1, h.reads.later ?_⟩
    have : s.time < (s.dev.tc.ns2tick ns).1.toNat := by omega
    exact this.le.trans (Nat.le_add_right _ _)
  refine ⟨hok, fun hfuture s'' hs'' => ?_⟩
  obtain rfl := Option.some.inj (hs'.symm.trans hs'')
  have hirq := h4 (hkeep hfuture)
  exact ⟨hirq, fun n hn => hok.matches (hn.trans hirq.symm)⟩

theorem Ok.step {e : TcEvent} (h : s.Ok) (hm : s.Meets e) (hs : s.step e = some s') (hl : s'.dev.drv.lost = false) :
    s'.Ok ∧ s.KeepsIrq e := by
  have hR := Tc.driverRel_waits
  cases e with
  | elapse n =>
    cases hs
    exact ⟨h.waits ⟨Tc.waits_elapse n _, rfl, id⟩ hl, trivial⟩
  | read delays =>
    simp only [TcSystem.step, Option.bind_eq_bind, Option.bind_eq_some_iff, Prod.exists] at hs
    obtain ⟨v, dev, hd, hs⟩ := hs
    cases hs
    have hwd := frame_withDelays s.dev delays
    have hw := hR.frame_trans hwd (hR.irqGetTimeTick hd)
    have hin := h.inTime.frame hwd ((hR.irqGetTimeTick hd).drv.lost hl)
    have hmem := irqGetTimeTick_carry hin hd hl
    have ht := h.timeOf_eq hw.drv.ticks_le
    rw [show (s.dev.withDelays delays).drv.ticks = s.dev.drv.ticks from rfl, Nat.sub_self, Nat.add_zero] at hmem
    dsimp only at hmem
    rw [show (s.dev.withDelays delays).upperTimeTick = s.dev.upperTimeTick from rfl, if_neg hm, Nat.add_zero, ← ht] at hmem
    have hok := h.waits hw hl
    exact ⟨⟨hok.enabled, hok.since_le, hok.inTime, h.reads.append hmem.1 hmem.2⟩, trivial⟩
  | setTime ns delays => exact h.setTime hm hs hl
  | setIrq tick delays =>
    simp only [TcSystem.step, Option.bind_eq_bind, Option.bind_eq_some_iff] at hs
    obtain ⟨dev, hd, hs⟩ := hs
    cases hs
    exact ⟨h.waits (hR.frame_trans (frame_withDelays s.dev delays) (hR.irqSetIrqTick hd)) hl, trivial⟩
  | irq rearm delays =>
    simp only [TcSystem.step, irqHandler, Option.bind_eq_bind, Option.bind_eq_some_iff] at hs
    obtain ⟨dev, ⟨dev₁, hd, ho⟩, hs⟩ := hs
    cases hs
    have hw := hR.frame_trans (hR.frame_trans (frame_acknowledge s.dev) (frame_withDelays _ delays))
      (hR.irqHandleMatch (fun _ _ _ => hR.rearmAll rearm) hd)
    have hok := h.waits hw (lost_irqHandleOverflow ho hl)
    have hle := ticks_irqHandleOverflow ho
    have ht := @Ok.timeOf_eq _ dev hok hle
    have hin := hok.inTime.irqHandleOverflow ho hl
    rw [← ht] at hin
    refine ⟨⟨(enabled_irqHandleOverflow ho).trans hok.enabled, hok.since_le.trans hle, hin, hok.reads.later ?_⟩, trivial⟩
    change TcSystem.time { s with dev := dev₁ } ≤ TcSystem.timeOf { s with dev := dev₁ } dev
    rw [ht]
    exact Nat.le_add_right _ _

theorem step_some (s : TcSystem) (e : TcEvent) : ∃ s', s.step e = some s' := by
  cases e with
  | elapse n => exact ⟨_, rfl⟩
  | read delays =>
    obtain ⟨v, dev, h⟩ := irqGetTimeTick_some (s.dev.withDelays delays)
    rw [step, h]
    exact ⟨_, rfl⟩
  | setTime ns delays =>
    obtain ⟨dev, h⟩ := irqSetTimeNs_some ns (s.dev.withDelays delays)
    rw [step, h]
    exact ⟨_, rfl⟩
  | setIrq tick delays =>
    obtain ⟨dev, h⟩ := irqSetIrqTick_some (s.dev.withDelays delays) tick
    rw [step, h]
    exact ⟨_, rfl⟩
  | irq rearm delays =>
    obtain ⟨dev, h⟩ := irqHandler_some rearm (s.dev.acknowledge.withDelays delays)
    rw [step, h]
    exact ⟨_, rfl⟩

theorem run_lost (es : List TcEvent) (hs : s.run es = some s') (hl : s'.dev.drv.lost = false) :
    s.dev.drv.lost = false := by
  induction es generalizing s with
  | nil =>
    cases hs
    exact hl
  | cons e es ih =>
    simp only [run, Option.bind_eq_bind, Option.bind_eq_some_iff] at hs
    obtain ⟨s₁, h₁, hs⟩ := hs
    exact step_lost e h₁ (ih hs)

theorem Ok.run {es : List TcEvent} (h : s.Ok) (hm : s.EachEvent Meets es) (hs : s.run es = some s')
    (hl : s'.dev.drv.lost = false) : s'.Ok ∧ s.EachEvent KeepsIrq es := by
  induction es generalizing s with
  | nil =>
    cases hs
    exact ⟨h, trivial⟩
  | cons e es ih =>
    simp only [TcSystem.run, Option.bind_eq_bind, Option.bind_eq_some_iff] at hs
    obtain ⟨s₁, h₁, hs⟩ := hs
    obtain ⟨hok, hkeep⟩ := h.step hm.1 h₁ (run_lost es hs hl)
    obtain ⟨hok', hkeep'⟩ := ih hok (hm.2 s₁ h₁) hs
    refine ⟨hok', hkeep, fun s₂ h₂ => ?_⟩
    obtain rfl := Option.some.inj (h₁.symm.trans h₂)
    exact hkeep'

theorem run_some (s : TcSystem) (es : List TcEvent) : ∃ s', s.run es = some s' := by
  induction es generalizing s with
  | nil => exact ⟨s, rfl⟩
  | cons e es ih =>
    obtain ⟨s₁, h₁⟩ := step_some s e
    rw [run, h₁]
    exact ih s₁

/-- **A settable counter.** Along every run whose events all meet the conditions, and that loses no overflow, each
read returns the tick that was last set and the ticks since then, so that the values never decrease, and each jump
keeps the interrupt that is armed in the future. -/
theorem run_settable (s : TcSystem) (es : List TcEvent) (hen : s.dev.drv.enabled = true)
    (hsince : s.since ≤ s.dev.drv.ticks) (hin : s.dev.InTime s.time) (hr : s.reads = [])
    (hm : s.EachEvent Meets es) :
    ∃ s', s.run es = some s' ∧ (s'.dev.drv.lost = false →
      (∀ r ∈ s'.reads, r.start ≤ r.value ∧ r.value ≤ r.finish) ∧
        s'.reads.Pairwise (fun r r' => r.value ≤ r'.value) ∧ s.EachEvent KeepsIrq es) := by
  obtain ⟨s', hs⟩ := run_some s es
  refine ⟨s', hs, fun hl => ?_⟩
  obtain ⟨hok, hkeep⟩ := Ok.run ⟨hen, hsince, hin, hr ▸ .nil _⟩ hm hs hl
  exact ⟨hok.reads.mem, hok.reads.monotone, hkeep⟩

/-- The timer at 1 MHz when it has just been started. -/
def atStart : TcSystem where
  dev :=
    { drv := ⟨0, 0, false, false, false, false, 0, true, false, false, 0, []⟩
      upperTimeTick := 0
      upperIrqTick := 0
      lateIrq := false
      tc := ⟨⟨1000, 0, TimeConversion.thousand_lt_u32, TimeConversion.u32_pos⟩, ⟨0, 4294967, TimeConversion.u32_pos, TimeConversion.u32_div_thousand_lt⟩, 4000000000, 0, 0⟩ }
  lastSet := 0
  since := 0
  reads := []

/-- An interrupt is armed at tick 70000, and the time is set to tick 65536. -/
def jump : List TcEvent := [.setIrq 70000 [], .read [3], .setTime 65536500 [], .read [5]]

theorem run_settable_jump : ∃ s', atStart.run jump = some s' ∧
    s'.reads = [⟨0, 3, 3⟩, ⟨65536, 65541, 65541⟩] ∧ s'.reads.Pairwise (fun r r' => r.value ≤ r'.value) := by
  have hin : atStart.dev.InTime atStart.time :=
    ⟨by decide, by decide, by decide, by decide, by decide, by decide⟩
  have hm : atStart.EachEvent Meets jump := by decide +kernel
  obtain ⟨s', hs, h⟩ := run_settable atStart jump rfl (by decide) hin rfl hm
  have hreads : s'.reads = [⟨0, 3, 3⟩, ⟨65536, 65541, 65541⟩] ∧ s'.dev.drv.lost = false := by
    have : (atStart.run jump).map (fun s => (s.reads, s.dev.drv.lost)) =
        some ([⟨0, 3, 3⟩, ⟨65536, 65541, 65541⟩], false) := by decide +kernel
    rw [hs] at this
    exact Prod.mk.inj (Option.some.inj this)
  exact ⟨s', hs, hreads.1, (h hreads.2).2.1⟩

/-- After a jump to tick 131071, the first tick takes the time back to 65536. And a jump to tick 1000 moves an
interrupt from 70000 to 71000. -/
theorem run_unsettable :
    (atStart.run [.setTime 131071500 [], .read [1]]).map (fun s => (s.reads, s.dev.drv.lost)) =
        some ([⟨131071, 65536, 131072⟩], false) ∧
      ∃ s, atStart.run [.setIrq 70000 []] = some s ∧ s.dev.irqTick = 70000 ∧
        (s.step (.setTime 1000500 [])).map (fun s => (s.time, s.dev.irqTick)) = some (1000, 71000) ∧
        ¬s.KeepsIrq (.setTime 1000500 []) := by
  refine ⟨by decide +kernel, ?_⟩
  have harmed : ∃ s, atStart.run [.setIrq 70000 []] = some s ∧ s.dev.irqTick = 70000 ∧
      s.timeOf (s.dev.withDelays []).stopped < (s.dev.withDelays []).stopped.irqTick ∧
      (s.dev.withDelays []).stopped.irqTick = 70000 ∧
      (s.step (.setTime 1000500 [])).map (fun s => (s.time, s.dev.irqTick)) = some (1000, 71000) :=
    ⟨_, rfl, by decide +kernel, by decide +kernel, by decide +kernel, by decide +kernel⟩
  obtain ⟨s, hs, hirq, hfuture, hstop, hjump⟩ := harmed
  refine ⟨s, hs, hirq, hjump, fun hkeep => ?_⟩
  obtain ⟨s', hs'⟩ := step_some s (.setTime 1000500 [])
  have hsame := (hkeep hfuture s' hs').1
  rw [hs'] at hjump
  have hmoved : s'.dev.irqTick = 71000 := (Prod.mk.inj (Option.some.inj hjump)).2
  omega

end TcSystem

end Miosix
