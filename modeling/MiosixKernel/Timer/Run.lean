import MiosixKernel.Timer.Read

/-!
# The os timer: runs

A run interleaves hardware ticks with reads of the time, scheduling of interrupts and executions of
the interrupt routine. The trace remembers the values read, the interrupt that is scheduled, and
whether `IRQtimerInterrupt` has been called for it.

* `TimerSystem`, `TimerEvent`, `step`, `run`;
* `Keeps`: what every operation does to the clock, with one lemma for each operation;
* **`irqGetTimeTick_linearizable`**: every read returns a time between its start and its end, and
  along a run that loses no overflow the values read never decrease.
-/

namespace Miosix

/-- The device and the trace of a run. -/
structure TimerSystem (ω : Type) where
  dev : TimerAdapter ω
  armed : Option ℕ
  served : Bool
  reads : List ℕ
  calls : List (TimerCall × Option ℕ)

/-- What can happen: ticks, a read, scheduling, and the interrupt routine, in which
`IRQtimerInterrupt` schedules `rearm`. -/
inductive TimerEvent where
  | elapse (n : ℕ)
  | read (delays : List ℕ)
  | setIrq (tick : ℕ) (delays : List ℕ)
  | irq (rearm : List ℕ) (delays : List ℕ)

namespace TimerSystem

variable {ω : Type} (bits quirkAdvance : ℕ)

/-- `IRQtimerInterrupt`, as far as the timer sees it: it schedules interrupts. -/
def rearmAll (rearm : List ℕ) (d : TimerAdapter ω) : TimerAdapter ω :=
  rearm.foldl (fun d tick => d.irqSetIrqTick bits quirkAdvance tick) d

/-- The trace after a call of `IRQtimerInterrupt` that schedules `rearm`. -/
def noteCall (s : TimerSystem ω) (c : TimerCall) (rearm : List ℕ) : TimerSystem ω :=
  { s with
    armed := (rearm.getLast?).or s.armed
    served := rearm.isEmpty && (s.served || decide (∃ a ∈ s.armed, a ≤ c.time))
    reads := s.reads ++ [c.tick]
    calls := s.calls ++ [(c, s.armed)] }

def step (s : TimerSystem ω) : TimerEvent → TimerSystem ω
  | .elapse n => { s with dev := s.dev.setHw (HwTimer.elapse bits n) }
  | .read delays =>
    let (v, dev) := { s.dev with delays := delays }.irqGetTimeTick bits
    { s with dev := dev, reads := s.reads ++ [v] }
  | .setIrq tick delays =>
    { s with
      dev := { s.dev with delays := delays }.irqSetIrqTick bits quirkAdvance tick
      armed := some tick
      served := false }
  | .irq rearm delays =>
    let (call, dev) := { s.dev with delays := delays }.irqHandler bits
      fun _ d => rearmAll bits quirkAdvance rearm d
    match call with
    | none => { s with dev := dev }
    | some c => { s with dev := dev }.noteCall c rearm

def run (s : TimerSystem ω) (es : List TimerEvent) : TimerSystem ω :=
  es.foldl (step bits quirkAdvance) s

end TimerSystem

namespace TimerAdapter

variable {ω : Type} {bits quirkAdvance : ℕ}

/-! ## What every operation does to the clock -/

/-- Time does not go back, lost overflows are not forgotten, and the upper bits stay right unless an
overflow was lost. -/
structure Keeps (bits : ℕ) (s s' : TimerAdapter ω) : Prop where
  now_le : s.hw.now ≤ s'.hw.now
  lost : s'.hw.lost = false → s.hw.lost = false
  synced : s'.hw.lost = false → s.hw.Synced bits s.upperTimeTick →
    s'.hw.Synced bits s'.upperTimeTick

theorem Keeps.refl (s : TimerAdapter ω) : Keeps bits s s := ⟨le_rfl, id, fun _ h => h⟩

theorem Keeps.trans {a b c : TimerAdapter ω} (h : Keeps bits a b) (h' : Keeps bits b c) :
    Keeps bits a c :=
  ⟨h.now_le.trans h'.now_le, fun hl => h.lost (h'.lost hl),
    fun hl hs => h'.synced hl (h.synced (h'.lost hl) hs)⟩

theorem Waits.keeps {s s' : TimerAdapter ω} (h : Waits bits s s') : Keeps bits s s' := by
  obtain ⟨n, l, rfl⟩ := h
  exact ⟨by simp, HwTimer.lost_elapse n, fun hl hs => hs.elapse n hl⟩

/-- A write that leaves the time and the overflow flag alone. -/
theorem keeps_setHw (s : TimerAdapter ω) {f : HwTimer → HwTimer}
    (hf : ∀ hw, (f hw).now = hw.now ∧ (f hw).overflowFlag = hw.overflowFlag ∧
      (f hw).lost = hw.lost) : Keeps bits s (s.setHw f) := by
  obtain ⟨h1, h2, h3⟩ := hf s.hw
  refine ⟨h1.ge, fun hl => h3 ▸ hl, fun _ hs => ?_⟩
  unfold HwTimer.Synced at hs ⊢
  simp only [setHw, h1, h2]
  exact hs

theorem keeps_irqForcePendingIrq (s : TimerAdapter ω) : Keeps bits s (s.irqForcePendingIrq bits) :=
  (waits_wait bits s).keeps.trans (keeps_setHw _ fun _ => ⟨rfl, rfl, rfl⟩)

theorem keeps_irqSetTimerMatchReg (s : TimerAdapter ω) (v : ℕ) :
    Keeps bits s (s.irqSetTimerMatchReg bits v) :=
  (waits_wait bits s).keeps.trans (keeps_setHw _ fun _ => ⟨rfl, rfl, rfl⟩)

theorem keeps_irqClearMatchFlag (s : TimerAdapter ω) : Keeps bits s (s.irqClearMatchFlag bits) :=
  (waits_wait bits s).keeps.trans (keeps_setHw _ fun _ => ⟨rfl, rfl, rfl⟩)

theorem keeps_irqGetTimeTick (bits : ℕ) (s : TimerAdapter ω) : Keeps bits s (s.irqGetTimeTick bits).2 :=
  (waits_irqGetTimeTick bits s).keeps

/-- Fields that neither the clock nor the hardware see. -/
theorem Keeps.congr {s s' t : TimerAdapter ω} (h : Keeps bits s s') (hw : t.hw = s'.hw)
    (hu : t.upperTimeTick = s'.upperTimeTick) : Keeps bits s t := by
  refine ⟨hw ▸ h.now_le, fun hl => h.lost (hw ▸ hl), fun hl hs => ?_⟩
  rw [hw] at hl ⊢
  rw [hu]
  exact h.synced hl hs

theorem keeps_irqSetIrqTick (s : TimerAdapter ω) (tick : ℕ) :
    Keeps bits s (s.irqSetIrqTick bits quirkAdvance tick) := by
  unfold irqSetIrqTick
  dsimp only
  set s1 : TimerAdapter ω := { s with upperIrqTick := upperPart bits (tick + quirkAdvance) }
  have h1 : Keeps bits s s1 := (Keeps.refl s).congr rfl rfl
  have h2 := h1.trans (keeps_irqSetTimerMatchReg s1 (lowerPart bits (tick + quirkAdvance)))
  have h3 := h2.trans (keeps_irqGetTimeTick bits _)
  split_ifs with hle
  · exact (h3.trans (keeps_irqForcePendingIrq _)).congr rfl rfl
  · exact h3

theorem keeps_rearmAll (bits quirkAdvance : ℕ) (rearm : List ℕ) (s : TimerAdapter ω) :
    Keeps bits s (TimerSystem.rearmAll bits quirkAdvance rearm s) := by
  induction rearm generalizing s with
  | nil => exact Keeps.refl s
  | cons tick rearm ih => exact (keeps_irqSetIrqTick s tick).trans (ih _)

/-- **The outcomes of the match half**: nothing to do, a match in an earlier timer period, or a call
of `IRQtimerInterrupt`. -/
theorem irqHandleMatch_cases (bits : ℕ) (f : ℤ → TimerAdapter ω → TimerAdapter ω)
    (s : TimerAdapter ω) :
    (s.wait bits).hw.matchFlag = false ∧ s.lateIrq = false ∧
        s.irqHandleMatch bits f = (none, s.wait bits) ∨
      ∃ s₂ s₃ s₄ tick, s₂ = (s.wait bits).irqClearMatchFlag bits ∧
        s₂.irqGetTimeTick bits = (tick, s₃) ∧ s₄ = s₃.wait bits ∧
        (tick < s₄.upperIrqTick ||| s₄.hw.matchReg ∧ s₄.lateIrq = false ∧
            s.irqHandleMatch bits f = (none, s₄) ∨
          (s₄.upperIrqTick ||| s₄.hw.matchReg ≤ tick ∨ s₄.lateIrq = true) ∧
            s.irqHandleMatch bits f = (some ⟨tick, s₄.lateIrq, s₄.hw.now⟩,
              f (s₄.tc.tick2ns tick) { s₄ with lateIrq := false })) := by
  unfold irqHandleMatch irqGetMatchFlag irqGetIrqTick irqGetTimerMatchReg
  dsimp only
  by_cases hm : ((s.wait bits).hw.matchFlag || (s.wait bits).lateIrq) = true
  · rw [if_pos hm]
    refine .inr ⟨(s.wait bits).irqClearMatchFlag bits,
      (((s.wait bits).irqClearMatchFlag bits).irqGetTimeTick bits).2, _,
      (((s.wait bits).irqClearMatchFlag bits).irqGetTimeTick bits).1, rfl, rfl, rfl, ?_⟩
    split_ifs with hc
    · exact .inr ⟨by simpa using hc, rfl⟩
    · simp only [Bool.or_eq_true, decide_eq_true_eq, not_or, not_le, Bool.not_eq_true] at hc
      exact .inl ⟨hc.1, hc.2, rfl⟩
  · rw [if_neg hm]
    simp only [Bool.or_eq_true, not_or, Bool.not_eq_true] at hm
    exact .inl ⟨hm.1, hm.2, rfl⟩

section Handler

variable {f : ℤ → TimerAdapter ω → TimerAdapter ω} (hf : ∀ ns d, Keeps bits d (f ns d))
include hf

/-- The match half keeps the clock, and the tick it decides at is the time of the decision. -/
theorem keeps_irqHandleMatch (s : TimerAdapter ω) :
    Keeps bits s (s.irqHandleMatch bits f).2 ∧ ∀ c ∈ (s.irqHandleMatch bits f).1,
      c.time ≤ (s.irqHandleMatch bits f).2.hw.now ∧
      ((s.irqHandleMatch bits f).2.hw.lost = false → s.hw.Synced bits s.upperTimeTick →
        s.hw.now ≤ c.tick ∧ c.tick ≤ c.time) := by
  have k1 := (waits_wait bits s).keeps
  rcases irqHandleMatch_cases bits f s with ⟨-, -, h⟩ | ⟨s₂, s₃, s₄, tick, rfl, h3, rfl, h⟩
  · rw [h]
    exact ⟨k1, fun c hc => by cases hc⟩
  · have k2 := k1.trans (keeps_irqClearMatchFlag (s.wait bits))
    have k3 := keeps_irqGetTimeTick bits ((s.wait bits).irqClearMatchFlag bits)
    rw [h3] at k3
    have k4 := (waits_wait bits s₃).keeps
    rcases h with ⟨-, -, h⟩ | ⟨-, h⟩ <;> rw [h]
    · exact ⟨(k2.trans k3).trans k4, fun c hc => by cases hc⟩
    · have k5 := hf ((s₃.wait bits).tc.tick2ns tick) { s₃.wait bits with lateIrq := false }
      have k6 := Keeps.trans (b := { s₃.wait bits with lateIrq := false })
        ((Keeps.refl (s₃.wait bits)).congr rfl rfl) k5
      refine ⟨((k2.trans k3).trans k4).trans k6, fun c hc => ?_⟩
      cases hc
      refine ⟨k6.now_le, fun hl hs => ?_⟩
      have hsync := SyncedUntil.of_lost (k2.synced ((k3.trans k4).lost (k6.lost hl)) hs)
        (k4.lost (k6.lost hl))
      have hmem := irqGetTimeTick_mem ((s.wait bits).irqClearMatchFlag bits) (by rw [h3]; exact hsync)
      rw [h3] at hmem
      exact ⟨k2.now_le.trans hmem.1, hmem.2.trans k4.now_le⟩

end Handler

/-- The overflow half moves a pending overflow to the upper bits. -/
theorem keeps_irqHandleOverflow (bits : ℕ) (s : TimerAdapter ω) : Keeps bits s (s.irqHandleOverflow bits) := by
  have k1 := (waits_wait bits s).keeps
  have k2 := (waits_wait bits (s.wait bits)).keeps
  unfold irqHandleOverflow irqGetOverflowFlag
  dsimp only
  split_ifs with ho
  · refine ⟨(k1.trans k2).now_le, (k1.trans k2).lost, fun hl hs => ?_⟩
    have hs2 := (k1.trans k2).synced hl hs
    have ho2 : ((s.wait bits).wait bits).hw.overflowFlag = true := HwTimer.overflowFlag_elapse _ ho
    rw [HwTimer.Synced, ho2] at hs2
    exact Lib.Synced.handle hs2
  · exact k1

/-- **The interrupt routine keeps the clock**, and decides at the true time. -/
theorem keeps_irqHandler {f : ℤ → TimerAdapter ω → TimerAdapter ω}
    (hf : ∀ ns d, Keeps bits d (f ns d)) (s : TimerAdapter ω) :
    Keeps bits s (s.irqHandler bits f).2 ∧ ∀ c ∈ (s.irqHandler bits f).1,
      c.time ≤ (s.irqHandler bits f).2.hw.now ∧
      ((s.irqHandler bits f).2.hw.lost = false → s.hw.Synced bits s.upperTimeTick →
        s.hw.now ≤ c.tick ∧ c.tick ≤ c.time) := by
  have k0 : Keeps bits s (s.setHw fun hw => { hw with forced := false }) :=
    keeps_setHw s fun _ => ⟨rfl, rfl, rfl⟩
  obtain ⟨k1, hc⟩ := keeps_irqHandleMatch hf (s.setHw fun hw => { hw with forced := false })
  have k2 := keeps_irqHandleOverflow bits
    ((s.setHw fun hw => { hw with forced := false }).irqHandleMatch bits f).2
  refine ⟨(k0.trans k1).trans k2, fun c hcall => ⟨(hc c hcall).1.trans k2.now_le, fun hl hs => ?_⟩⟩
  exact (hc c hcall).2 (k2.lost hl) hs

end TimerAdapter

namespace TimerSystem

variable {ω : Type} {bits quirkAdvance : ℕ}

/-- The upper bits are right, and so were the values read so far. -/
structure Ok (bits : ℕ) (s : TimerSystem ω) : Prop where
  synced : s.dev.hw.Synced bits s.dev.upperTimeTick
  reads : ∃ rs : List Lib.ClockRead, s.reads = rs.map Lib.ClockRead.value ∧ Lib.ReadsOk rs s.dev.hw.now

theorem keeps_step (bits quirkAdvance : ℕ) (s : TimerSystem ω) (e : TimerEvent) :
    s.dev.Keeps bits (s.step bits quirkAdvance e).dev := by
  cases e with
  | elapse n => exact TimerAdapter.Waits.keeps ⟨n, s.dev.delays, rfl⟩
  | read delays =>
    have k : s.dev.Keeps bits { s.dev with delays := delays } :=
      (TimerAdapter.Keeps.refl _).congr rfl rfl
    exact k.trans (TimerAdapter.keeps_irqGetTimeTick bits _)
  | setIrq tick delays =>
    have k : s.dev.Keeps bits { s.dev with delays := delays } :=
      (TimerAdapter.Keeps.refl _).congr rfl rfl
    exact k.trans (TimerAdapter.keeps_irqSetIrqTick _ tick)
  | irq rearm delays =>
    have k : s.dev.Keeps bits { s.dev with delays := delays } :=
      (TimerAdapter.Keeps.refl _).congr rfl rfl
    have k' := k.trans (TimerAdapter.keeps_irqHandler
      (fun _ d => TimerAdapter.keeps_rearmAll bits quirkAdvance rearm d) _).1
    simp only [step]
    split
    · exact k'
    · exact k'

theorem keeps_run (es : List TimerEvent) (s : TimerSystem ω) :
    s.dev.Keeps bits (s.run bits quirkAdvance es).dev := by
  induction es generalizing s with
  | nil => exact TimerAdapter.Keeps.refl _
  | cons e es ih => exact (keeps_step bits quirkAdvance s e).trans (ih _)

/-- Something happens that is not a read. -/
theorem Ok.later {s s' : TimerSystem ω} (h : s.Ok bits)
    (hsync : s'.dev.hw.Synced bits s'.dev.upperTimeTick) (hr : s'.reads = s.reads)
    (hle : s.dev.hw.now ≤ s'.dev.hw.now) : s'.Ok bits := by
  obtain ⟨rs, hrs, hok⟩ := h.reads
  exact ⟨hsync, rs, hr.trans hrs, hok.later hle⟩

/-- A value is read between the old and the new time. -/
theorem Ok.append {s s' : TimerSystem ω} {v : ℕ} (h : s.Ok bits)
    (hsync : s'.dev.hw.Synced bits s'.dev.upperTimeTick) (hr : s'.reads = s.reads ++ [v])
    (h0 : s.dev.hw.now ≤ v) (h1 : v ≤ s'.dev.hw.now) : s'.Ok bits := by
  obtain ⟨rs, hrs, hok⟩ := h.reads
  refine ⟨hsync, rs ++ [⟨s.dev.hw.now, v, s'.dev.hw.now⟩], ?_, hok.append h0 h1⟩
  rw [hr, hrs, List.map_append]
  rfl

theorem Ok.step {s : TimerSystem ω} (h : s.Ok bits) (e : TimerEvent)
    (hl : (s.step bits quirkAdvance e).dev.hw.lost = false) :
    (s.step bits quirkAdvance e).Ok bits := by
  have k := keeps_step bits quirkAdvance s e
  have hsync := k.synced hl h.synced
  cases e with
  | elapse n => exact h.later hsync rfl k.now_le
  | setIrq tick delays => exact h.later hsync rfl k.now_le
  | read delays =>
    have hs : { s.dev with delays := delays }.hw.Synced bits s.dev.upperTimeTick := h.synced
    obtain ⟨h0, h1⟩ := TimerAdapter.irqGetTimeTick_mem { s.dev with delays := delays }
      (TimerAdapter.SyncedUntil.of_lost hs hl)
    exact h.append hsync rfl h0 h1
  | irq rearm delays =>
    have hk := TimerAdapter.keeps_irqHandler
      (fun _ d => TimerAdapter.keeps_rearmAll bits quirkAdvance rearm d)
      { s.dev with delays := delays }
    simp only [TimerSystem.step] at hl hsync k ⊢
    split at hl
    · rename_i hc
      simp only [hc] at hsync k ⊢
      exact h.later hsync rfl k.now_le
    · rename_i c hc
      simp only [hc] at hsync k ⊢
      obtain ⟨ht, hmem⟩ := hk.2 c hc
      obtain ⟨h0, h1⟩ := hmem hl h.synced
      exact h.append hsync rfl h0 (h1.trans ht)

theorem Ok.run (es : List TimerEvent) {s : TimerSystem ω} (h : s.Ok bits)
    (hl : (s.run bits quirkAdvance es).dev.hw.lost = false) :
    (s.run bits quirkAdvance es).Ok bits := by
  induction es generalizing s with
  | nil => exact h
  | cons e es ih => exact ih (h.step e ((keeps_run es _).lost hl)) hl

/-- **Reads of the time are linearizable.** A read returns a time between its start and its end, for
every placement of the ticks that leaves fewer than `2 ^ bits` of them after the pending wrap; hence
along every run that respects this limit the values read never decrease. -/
theorem irqGetTimeTick_linearizable (bits quirkAdvance : ℕ) :
    (∀ s : TimerAdapter ω, s.hw.Synced bits s.upperTimeTick →
        (s.irqGetTimeTick bits).2.hw.now < s.upperTimeTick + 2 * 2 ^ bits →
        s.hw.now ≤ (s.irqGetTimeTick bits).1 ∧
          (s.irqGetTimeTick bits).1 ≤ (s.irqGetTimeTick bits).2.hw.now) ∧
      ∀ (s : TimerSystem ω) (es : List TimerEvent), s.dev.hw.Synced bits s.dev.upperTimeTick →
        s.reads = [] → (s.run bits quirkAdvance es).dev.hw.lost = false →
        (s.run bits quirkAdvance es).reads.Pairwise (· ≤ ·) := by
  refine ⟨fun s hs hlt => TimerAdapter.irqGetTimeTick_mem s (.of_lt hs hlt), fun s es hs hr hl => ?_⟩
  have h0 : s.Ok bits := ⟨hs, [], hr, Lib.ReadsOk.nil _⟩
  obtain ⟨rs, hrs, hok⟩ := (h0.run es hl).reads
  rw [hrs]
  exact List.pairwise_map.mpr hok.monotone

/-- A 16 bit timer one tick before its first wrap. -/
def beforeWrap : TimerAdapter Unit :=
  { hw := ⟨65535, 0, false, false, false, false⟩, delays := [0, 1, 3], upperTimeTick := 0,
    upperIrqTick := 0, lateIrq := false, tc := .ofDefault, os := () }

/-- The wrap falls between the read of the counter and the read of the flag, and the interrupt routine
runs between two reads. -/
theorem irqGetTimeTick_linearizable_beforeWrap :
    65535 ≤ (beforeWrap.irqGetTimeTick 16).1 ∧
      (beforeWrap.irqGetTimeTick 16).1 ≤ (beforeWrap.irqGetTimeTick 16).2.hw.now ∧
      (run 16 0 ⟨beforeWrap, none, false, [], []⟩
        [.read [0, 1, 3], .read [], .irq [] [], .read [2]]).reads.Pairwise (· ≤ ·) := by
  obtain ⟨h1, h2⟩ := irqGetTimeTick_linearizable (ω := Unit) 16 0
  obtain ⟨h3, h4⟩ := h1 beforeWrap (by simp [HwTimer.Synced, Lib.Synced, beforeWrap]) (by decide)
  exact ⟨h3, h4, h2 _ _ (by simp [HwTimer.Synced, Lib.Synced, beforeWrap]) rfl (by decide)⟩

end TimerSystem

end Miosix
