import MiosixKernel.Lib.PendingBit
import Mathlib.Data.Nat.Bitwise
import Mathlib.Logic.Function.Iterate

/-!
# Clocks with a split counter

The real time clock of the STM32 and the high resolution timer of the Wandstem count in two registers of 16 bits
each, that change together. A flag is set when the 32 bit value wraps, and the interrupt routine adds the wrap to
the upper part, which is kept in software. Both drivers read the time in the same way.

The code runs with interrupts disabled, so only hardware ticks interleave with it: `delays` lists how many ticks
pass before each of the next accesses to a register.

* `SplitClock`, `read32`, `getTick`: the counter, and how it is read;
* `Stm32Rtc`, `Hrtb`: the two drivers;
* `Keeps`: what every operation does to the clock;
* **`read32_mem`**, **`getTick_mem`**: the values are those of a moment of the call;
* **`irqGetTick_linearizable`**: both drivers, along whole runs.
-/

namespace Miosix

open Lib

/-! ## The clock -/

/-- The rest of the hardware sees the 32 bit counter change. -/
class SplitHw (δ : Type) where
  onTick : ℕ → δ → δ

/-- The counters, at the true time `now`, and the software upper part. `lost` records that the counter wrapped
while the previous overflow was still unhandled. -/
structure SplitClock (δ : Type) where
  now : ℕ
  overflowFlag : Bool
  lost : Bool
  delays : List ℕ
  upper : ℕ
  rest : δ

namespace SplitClock

variable {δ ε : Type} [SplitHw δ]

/-- The high counter. -/
def high (s : SplitClock δ) : ℕ := s.now / 2 ^ 16 % 2 ^ 16

/-- The low counter. -/
def low (s : SplitClock δ) : ℕ := s.now % 2 ^ 16

/-- One tick of the clock. -/
def tick (s : SplitClock δ) : SplitClock δ :=
  let c := (s.now + 1) % 2 ^ 32
  { s with
    now := s.now + 1
    overflowFlag := s.overflowFlag || decide (c = 0)
    lost := s.lost || (s.overflowFlag && decide (c = 0))
    rest := SplitHw.onTick c s.rest }

/-- `n` ticks of the clock. -/
def elapse (n : ℕ) (s : SplitClock δ) : SplitClock δ := tick^[n] s

/-- The ticks that pass before a register access. -/
def wait (s : SplitClock δ) : SplitClock δ := { s.elapse (s.delays.headD 0) with delays := s.delays.tail }

def readHigh (s : SplitClock δ) : ℕ × SplitClock δ := (s.wait.high, s.wait)

def readLow (s : SplitClock δ) : ℕ × SplitClock δ := (s.wait.low, s.wait)

def readOverflow (s : SplitClock δ) : Bool × SplitClock δ := (s.wait.overflowFlag, s.wait)

/-- Something happens that the clock does not see. -/
def mapRest (f : δ → δ) (s : SplitClock δ) : SplitClock δ := { s with rest := f s.rest }

def clearOverflow (s : SplitClock δ) : SplitClock δ := { s.wait with overflowFlag := false }

/-- The hardware counter. If the high half changed, the low half is read again. -/
def read32 (s : SplitClock δ) : ℕ × SplitClock δ :=
  let (h1, s) := s.readHigh
  let (l1, s) := s.readLow
  let (h2, s) := s.readHigh
  if h1 = h2 then (h1 <<< 16 ||| l1, s)
  else
    let (l2, s) := s.readLow
    (h2 <<< 16 ||| l2, s)

/-- The time in ticks: the overflow flag is an extra timer bit. `extend` puts the upper part before the counter. -/
def getTick (extend : ℕ → ℕ → ℕ) (s : SplitClock δ) : ℕ × SplitClock δ :=
  let (counter, s) := s.read32
  let (overflow, s) := s.readOverflow
  if overflow then
    let (counter2, s) := s.read32
    if counter ≤ counter2 then (extend s.upper counter + 2 ^ 32, s) else (extend s.upper counter, s)
  else (extend s.upper counter, s)

end SplitClock

/-! ## The STM32 real time clock -/

/-- The alarm registers and flag, and the thread that waits until `irqTime`. -/
structure RtcAlarm (τ : Type) where
  alrl : ℕ
  alrh : ℕ
  alrf : Bool
  irqTime : ℕ
  waiting : Option τ
  woken : List τ

instance {τ : Type} : SplitHw (RtcAlarm τ) where
  onTick c a := { a with alrf := a.alrf || decide (c = a.alrh <<< 16 ||| a.alrl) }

abbrev Stm32Rtc (τ : Type) : Type := SplitClock (RtcAlarm τ)

namespace Stm32Rtc

variable {τ : Type}

def irqGetHwTick (s : Stm32Rtc τ) : ℕ × Stm32Rtc τ := s.read32

def irqGetTick (s : Stm32Rtc τ) : ℕ × Stm32Rtc τ := s.getTick (· + ·)

/-- Set the alarm, and return whether the time was in the past. Else `thread` waits. -/
def irqAbsoluteWaitTick (thread : τ) (tick : ℕ) (s : Stm32Rtc τ) : Bool × Stm32Rtc τ :=
  let s := s.mapRest fun a => { a with irqTime := tick }
  let hwAlarm := (tick % 2 ^ 32 + 2 ^ 32 - s.upper % 2 ^ 32) % 2 ^ 32
  let s := s.wait.mapRest fun a => { a with alrl := hwAlarm % 2 ^ 16 }
  let s := s.wait.mapRest fun a => { a with alrh := hwAlarm >>> 16 }
  let (now, s) := irqGetTick s
  if tick ≤ now + 2 then (true, s) else (false, s.mapRest fun a => { a with waiting := some thread })

/-- The interrupt routine. Both flags are read in one access, and a flag is cleared by a read and a write. -/
def rtcIrqImpl (s : Stm32Rtc τ) : Stm32Rtc τ :=
  let s := s.wait
  let owf := s.overflowFlag
  let alrf := s.rest.alrf
  if owf then
    let s := s.wait.clearOverflow
    { s with upper := s.upper + 2 ^ 32 }
  else if alrf then
    let s := s.wait.wait.mapRest fun a => { a with alrf := false }
    match s.rest.waiting with
    | none => s
    | some t =>
      let (now, s) := irqGetTick s
      if s.rest.irqTime ≤ now then s.mapRest fun a => { a with woken := a.woken ++ [t], waiting := none }
      else s
  else s

/-- What happens besides ticks and reads. -/
inductive Call (τ : Type) where
  | irq
  | absoluteWait (thread : τ) (tick : ℕ)

def call : Call τ → Stm32Rtc τ → Stm32Rtc τ
  | .irq, s => rtcIrqImpl s
  | .absoluteWait thread tick, s => (irqAbsoluteWaitTick thread tick s).2

end Stm32Rtc

/-! ## The Wandstem high resolution timer -/

namespace Hrtb

variable {δ : Type} [SplitHw δ]

def irqRead32Timer (s : SplitClock δ) : ℕ × SplitClock δ := s.read32

def irqGetTick (s : SplitClock δ) : ℕ × SplitClock δ := s.getTick (· ||| ·)

/-- The interrupt routine of the high timer. What it does to the compare channels after a rollover and at a
checkpoint takes some time and does not concern the clock. -/
def cstirqhnd3 (setupTimers checkpoint : δ → δ) (s : SplitClock δ) : SplitClock δ :=
  let (overflow, s) := s.readOverflow
  let s :=
    if overflow then
      let s := s.clearOverflow
      { s with upper := s.upper + 2 ^ 32 }.wait.mapRest setupTimers
    else s
  s.wait.mapRest checkpoint

def call (f : (δ → δ) × (δ → δ)) (s : SplitClock δ) : SplitClock δ := cstirqhnd3 f.1 f.2 s

end Hrtb

/-! ## Runs -/

/-- A clock and the values read from it. -/
structure ClockSystem (δ : Type) where
  dev : SplitClock δ
  reads : List ClockRead

/-- Ticks, a read of the time, and a call of another function of the driver. -/
inductive ClockEvent (ε : Type) where
  | elapse (n : ℕ)
  | read (delays : List ℕ)
  | call (e : ε) (delays : List ℕ)

namespace ClockSystem

variable {δ ε : Type} [SplitHw δ]

def step (getTick : SplitClock δ → ℕ × SplitClock δ) (call : ε → SplitClock δ → SplitClock δ)
    (s : ClockSystem δ) : ClockEvent ε → ClockSystem δ
  | .elapse n => { s with dev := s.dev.elapse n }
  | .read delays =>
    let (v, dev) := getTick { s.dev with delays := delays }
    ⟨dev, s.reads ++ [⟨s.dev.now, v, dev.now⟩]⟩
  | .call e delays => { s with dev := call e { s.dev with delays := delays } }

def run (getTick : SplitClock δ → ℕ × SplitClock δ) (call : ε → SplitClock δ → SplitClock δ)
    (s : ClockSystem δ) (es : List (ClockEvent ε)) : ClockSystem δ :=
  es.foldl (step getTick call) s

end ClockSystem

/-! ## Time passing -/

namespace SplitClock

variable {δ ε : Type} [SplitHw δ] {s s' s'' : SplitClock δ}

theorem elapse_succ (n : ℕ) (s : SplitClock δ) : s.elapse (n + 1) = (s.elapse n).tick :=
  Function.iterate_succ_apply' _ n s

/-- The upper part is right, up to one pending overflow. -/
def Synced (s : SplitClock δ) : Prop := Lib.Synced (2 ^ 32) s.upper s.now s.overflowFlag

/-- Time does not go back, lost overflows are not forgotten, and the upper part stays right unless an overflow was
lost. -/
structure Keeps (s s' : SplitClock δ) : Prop where
  now_le : s.now ≤ s'.now
  lost : s'.lost = false → s.lost = false
  synced : s'.lost = false → s.Synced → s'.Synced

/-- `s'` is `s` after some time, with nothing written to the clock in between: the flag is not cleared. -/
structure Waits (s s' : SplitClock δ) : Prop extends Keeps s s' where
  upper : s'.upper = s.upper
  flag : s.overflowFlag = true → s'.overflowFlag = true

omit [SplitHw δ] in
theorem Keeps.refl (s : SplitClock δ) : Keeps s s := ⟨le_rfl, id, fun _ h => h⟩

omit [SplitHw δ] in
theorem Keeps.trans (h : Keeps s s') (h' : Keeps s' s'') : Keeps s s'' :=
  ⟨h.now_le.trans h'.now_le, fun hl => h.lost (h'.lost hl), fun hl hs => h'.synced hl (h.synced (h'.lost hl) hs)⟩

omit [SplitHw δ] in
theorem Waits.refl (s : SplitClock δ) : Waits s s := ⟨.refl s, rfl, id⟩

omit [SplitHw δ] in
theorem Waits.trans (h : Waits s s') (h' : Waits s' s'') : Waits s s'' :=
  ⟨h.toKeeps.trans h'.toKeeps, h'.upper.trans h.upper, fun hf => h'.flag (h.flag hf)⟩

omit [SplitHw δ] in
theorem keeps_mapRest (f : δ → δ) (s : SplitClock δ) : Keeps s (s.mapRest f) := ⟨le_rfl, id, fun _ h => h⟩

theorem waits_tick (s : SplitClock δ) : Waits s s.tick where
  now_le := Nat.le_succ _
  lost hl := by
    simp only [tick, Bool.or_eq_false_iff] at hl
    exact hl.1
  synced hl hs := by
    simp only [tick, Bool.or_eq_false_iff] at hl
    exact Lib.Synced.tick hs hl.2
  upper := rfl
  flag hf := by simp [tick, hf]

theorem waits_elapse (n : ℕ) (s : SplitClock δ) : Waits s (s.elapse n) := by
  induction n with
  | zero => exact .refl s
  | succ n ih =>
    rw [elapse_succ]
    exact ih.trans (waits_tick _)

theorem waits_wait (s : SplitClock δ) : Waits s s.wait := by
  obtain ⟨⟨h1, h2, h3⟩, h4, h5⟩ := waits_elapse (s.delays.headD 0) s
  exact ⟨⟨h1, h2, h3⟩, h4, h5⟩

/-! ## Reading -/

/-- The outcomes of a read of the counter: the high half is the same, or it changed. -/
theorem read32_cases (s : SplitClock δ) :
    s.wait.high = s.wait.wait.wait.high ∧
        s.read32 = (s.wait.high <<< 16 ||| s.wait.wait.low, s.wait.wait.wait) ∨
      s.wait.high ≠ s.wait.wait.wait.high ∧
        s.read32 = (s.wait.wait.wait.high <<< 16 ||| s.wait.wait.wait.wait.low, s.wait.wait.wait.wait) := by
  unfold read32 readHigh readLow
  dsimp only
  by_cases h : s.wait.high = s.wait.wait.wait.high
  · exact .inl ⟨h, if_pos h⟩
  · exact .inr ⟨h, if_neg h⟩

theorem waits_read32 (s : SplitClock δ) : Waits s s.read32.2 := by
  have h3 := ((waits_wait s).trans (waits_wait s.wait)).trans (waits_wait s.wait.wait)
  rcases read32_cases s with ⟨-, h⟩ | ⟨-, h⟩ <;> rw [h]
  exacts [h3, h3.trans (waits_wait _)]

theorem shiftLeft_or_eq (h t : ℕ) : h <<< 16 ||| t % 2 ^ 16 = h * 2 ^ 16 + t % 2 ^ 16 := by
  rw [← Nat.shiftLeft_add_eq_or_of_lt (Nat.mod_lt _ (by positivity)), Nat.shiftLeft_eq]

/-- **The counter** that is read is that of a moment of the read. -/
theorem read32_mem (s : SplitClock δ) (hlt : s.read32.2.now < s.now + 2 ^ 16) :
    ∃ u, Waits s u ∧ Waits u s.read32.2 ∧ s.read32.1 = u.now % 2 ^ 32 := by
  have w1 := waits_wait s
  have w2 := waits_wait s.wait
  have w3 := waits_wait s.wait.wait
  have w4 := waits_wait s.wait.wait.wait
  have hend : s.wait.wait.wait.now ≤ s.read32.2.now := by
    rcases read32_cases s with ⟨-, h⟩ | ⟨-, h⟩ <;> rw [h]
    exact w4.now_le
  have hP : (2 : ℕ) ^ 32 = 2 ^ 16 * 2 ^ 16 := by norm_num
  rcases read32_cases s with ⟨hh, h⟩ | ⟨hh, h⟩ <;> rw [h] at hlt ⊢ <;> dsimp only at hlt ⊢
  · refine ⟨s.wait.wait, w1.trans w2, w3, ?_⟩
    have := (highLowHigh_mem (P := 2 ^ 16) (Q := 2 ^ 16) w2.now_le w3.now_le le_rfl
      (hlt.trans_le (Nat.add_le_add_right w1.now_le _)) (by norm_num)).1 hh
    rw [low, shiftLeft_or_eq, hP]
    exact this
  · refine ⟨s.wait.wait.wait.wait, ((w1.trans w2).trans w3).trans w4, .refl _, ?_⟩
    have := (highLowHigh_mem (P := 2 ^ 16) (Q := 2 ^ 16) w2.now_le w3.now_le w4.now_le
      (hlt.trans_le (Nat.add_le_add_right w1.now_le _)) (by norm_num)).2 hh
    rw [low, shiftLeft_or_eq, hP]
    exact this

/-- The upper part is put before the counter. -/
def Extends (extend : ℕ → ℕ → ℕ) : Prop := ∀ u c, 2 ^ 32 ∣ u → c < 2 ^ 32 → extend u c = u + c

theorem extends_add : Extends (· + ·) := fun _ _ _ _ => rfl

theorem extends_or : Extends (· ||| ·) := by
  rintro u c ⟨k, rfl⟩ hc
  exact (Nat.two_pow_add_eq_or_of_lt hc k).symm

/-- The outcomes of a read of the time: no overflow, or an overflow before or after the first read of the counter. -/
theorem getTick_cases (extend : ℕ → ℕ → ℕ) (s : SplitClock δ) :
    s.read32.2.wait.overflowFlag = false ∧ s.getTick extend = (extend s.upper s.read32.1, s.read32.2.wait) ∨
      s.read32.2.wait.overflowFlag = true ∧
        s.getTick extend = (if s.read32.1 ≤ s.read32.2.wait.read32.1 then extend s.upper s.read32.1 + 2 ^ 32
          else extend s.upper s.read32.1, s.read32.2.wait.read32.2) := by
  have hu1 := (waits_read32 s).upper
  have hu2 := (waits_wait s.read32.2).upper.trans hu1
  have hu3 := (waits_read32 s.read32.2.wait).upper.trans hu2
  unfold getTick readOverflow
  dsimp only
  by_cases ho : s.read32.2.wait.overflowFlag = true
  · rw [if_pos ho, hu3]
    refine .inr ⟨ho, ?_⟩
    split_ifs <;> rfl
  · rw [if_neg ho, hu2]
    exact .inl ⟨by simpa using ho, rfl⟩

theorem waits_getTick (extend : ℕ → ℕ → ℕ) (s : SplitClock δ) : Waits s (s.getTick extend).2 := by
  have h2 := (waits_read32 s).trans (waits_wait _)
  rcases getTick_cases extend s with ⟨-, h⟩ | ⟨-, h⟩ <;> rw [h]
  exacts [h2, h2.trans (waits_read32 _)]

omit [SplitHw δ] in
/-- The upper part is behind while an overflow is pending. -/
theorem Synced.mem {upper : ℕ} (h : s.Synced) (hu : s.upper = upper) :
    if s.overflowFlag then upper + 2 ^ 32 ≤ s.now ∧ s.now < upper + 2 * 2 ^ 32
    else upper ≤ s.now ∧ s.now < upper + 2 ^ 32 := by
  have := Lib.Synced.now_eq h
  have := Nat.mod_lt s.now (by norm_num : 0 < 2 ^ 32)
  subst hu
  split_ifs at * <;> omega

/-- **The time** that is read lies between the true time at the start and that at the end. -/
theorem getTick_mem {extend : ℕ → ℕ → ℕ} (hext : Extends extend) (s : SplitClock δ) (hs : s.Synced)
    (hlost : (s.getTick extend).2.lost = false) (hlt : (s.getTick extend).2.now < s.now + 2 ^ 16) :
    s.now ≤ (s.getTick extend).1 ∧ (s.getTick extend).1 ≤ (s.getTick extend).2.now := by
  have w2 := waits_wait s.read32.2
  have w3 := waits_read32 s.read32.2.wait
  have hdvd := Lib.Synced.dvd hs
  rcases getTick_cases extend s with ⟨hf, h⟩ | ⟨hf, h⟩ <;> rw [h] at hlost hlt ⊢ <;> dsimp only at hlost hlt ⊢
  · obtain ⟨u₁, v1, v2, hc⟩ := read32_mem s (w2.now_le.trans_lt hlt)
    have hf₁ : u₁.overflowFlag = false := by
      by_contra hcon
      have := w2.flag (v2.flag (by simpa using hcon))
      rw [hf] at this
      cases this
    have hm := (v1.synced ((v2.trans w2).lost hlost) hs).mem v1.upper
    rw [hf₁, if_neg Bool.false_ne_true] at hm
    rw [hext _ _ hdvd (hc ▸ Nat.mod_lt _ (by positivity)), hc]
    have hmem := @pendingBit_mem _ _ _ _ false hdvd (v2.trans w2).now_le hm.1 ?_ hm.2
    · simp only [Bool.false_and, Bool.false_eq_true, if_false, Nat.add_zero] at hmem
      exact ⟨v1.now_le.trans hmem.1, hmem.2⟩
    · have := v1.now_le
      have := (Lib.Synced.now_eq hs)
      omega
  · obtain ⟨u₁, v1, v2, hc⟩ := read32_mem s ((w2.trans w3).now_le.trans_lt hlt)
    obtain ⟨u₃, v3, v4, hc'⟩ := read32_mem s.read32.2.wait
      (hlt.trans_le (Nat.add_le_add_right ((v1.trans v2).trans w2).now_le _))
    have w13 := (v2.trans w2).trans v3
    have hm := (((v1.trans w13).synced (v4.lost hlost)) hs).mem (v1.trans w13).upper
    rw [v3.flag hf, if_pos rfl] at hm
    have hmem := @pendingBit_mem _ _ _ _ true hdvd w13.now_le
      ((Lib.Synced.le hs).trans v1.now_le) hm.2 hm.1
    rw [hext _ _ hdvd (hc ▸ Nat.mod_lt _ (by positivity)), hc, hc']
    simp only [Bool.true_and, decide_eq_true_eq] at hmem
    have h1 := v1.now_le
    have h4 := v4.now_le
    split_ifs at hmem ⊢ <;> omega

/-! ## The drivers -/

theorem keeps_clearOverflow_upper (hf : s.overflowFlag = true) :
    Keeps s { s.clearOverflow with upper := s.clearOverflow.upper + 2 ^ 32 } := by
  obtain ⟨hw, hu, hfl⟩ := waits_wait s
  refine ⟨hw.now_le, hw.lost, fun hl hs => ?_⟩
  have h := hw.synced hl hs
  rw [Synced, hfl hf] at h
  exact h.handle

end SplitClock

namespace Stm32Rtc

open SplitClock

variable {τ : Type} {s : Stm32Rtc τ}

theorem keeps_irqGetTick (s : Stm32Rtc τ) : Keeps s (irqGetTick s).2 := (waits_getTick (· + ·) s).toKeeps

theorem keeps_irqAbsoluteWaitTick (thread : τ) (tick : ℕ) (s : Stm32Rtc τ) :
    Keeps s (irqAbsoluteWaitTick thread tick s).2 := by
  unfold irqAbsoluteWaitTick
  dsimp only
  set hwAlarm := (tick % 2 ^ 32 + 2 ^ 32 - _) % 2 ^ 32
  have h1 := (keeps_mapRest (fun a : RtcAlarm τ => { a with irqTime := tick }) s).trans (waits_wait _).toKeeps
  have h2 := h1.trans (keeps_mapRest (fun a => { a with alrl := hwAlarm % 2 ^ 16 }) _)
  have h3 := (h2.trans (waits_wait _).toKeeps).trans (keeps_mapRest (fun a => { a with alrh := hwAlarm >>> 16 }) _)
  have h4 := h3.trans (keeps_irqGetTick _)
  split_ifs
  · exact h4
  · exact h4.trans (keeps_mapRest (fun a : RtcAlarm τ => { a with waiting := some thread }) _)

theorem keeps_rtcIrqImpl (s : Stm32Rtc τ) : Keeps s (rtcIrqImpl s) := by
  have h0 := (waits_wait s).toKeeps
  unfold rtcIrqImpl
  dsimp only
  by_cases hf : s.wait.overflowFlag = true
  · rw [if_pos hf]
    have h1 := waits_wait s.wait
    exact (h0.trans h1.toKeeps).trans (keeps_clearOverflow_upper (h1.flag hf))
  · rw [if_neg hf]
    by_cases ha : s.wait.rest.alrf = true
    · rw [if_pos ha]
      have h1 := ((h0.trans (waits_wait _).toKeeps).trans (waits_wait _).toKeeps).trans
        (keeps_mapRest (fun a => { a with alrf := false }) _)
      have h2 := h1.trans (keeps_irqGetTick _)
      split
      · exact h1
      · split_ifs
        · exact h2.trans (keeps_mapRest _ _)
        · exact h2
    · rw [if_neg ha]
      exact h0

theorem keeps_call (e : Call τ) (s : Stm32Rtc τ) : Keeps s (call e s) := by
  cases e with
  | irq => exact keeps_rtcIrqImpl s
  | absoluteWait thread tick => exact keeps_irqAbsoluteWaitTick thread tick s

end Stm32Rtc

namespace Hrtb

open SplitClock

variable {δ : Type} [SplitHw δ]

theorem keeps_call (f : (δ → δ) × (δ → δ)) (s : SplitClock δ) : Keeps s (call f s) := by
  have h0 := waits_wait s
  unfold call cstirqhnd3 readOverflow
  dsimp only
  by_cases hf : s.wait.overflowFlag = true
  · rw [if_pos hf]
    have h1 := h0.toKeeps.trans (keeps_clearOverflow_upper hf)
    have h2 := (h1.trans (waits_wait _).toKeeps).trans (keeps_mapRest f.1 _)
    exact (h2.trans (waits_wait _).toKeeps).trans (keeps_mapRest f.2 _)
  · rw [if_neg hf]
    exact (h0.toKeeps.trans (waits_wait _).toKeeps).trans (keeps_mapRest f.2 _)

end Hrtb

/-! ## Runs of the drivers -/

namespace ClockSystem

open SplitClock

variable {δ ε : Type} [SplitHw δ] {extend : ℕ → ℕ → ℕ} {call : ε → SplitClock δ → SplitClock δ} {s : ClockSystem δ}

/-- The upper part is right, and so were the reads. -/
structure Ok (s : ClockSystem δ) : Prop where
  synced : s.dev.Synced
  reads : ReadsOk s.reads s.dev.now

omit [SplitHw δ] in
/-- Something happens that is not a read. -/
theorem Ok.keeps {dev : SplitClock δ} (h : s.Ok) (hk : Keeps s.dev dev) (hl : dev.lost = false) :
    Ok { s with dev := dev } := ⟨hk.synced hl h.synced, h.reads.later hk.now_le⟩

theorem Ok.read {delays : List ℕ} (hext : Extends extend) (h : s.Ok)
    (hl : (s.step (getTick extend) call (.read delays)).dev.lost = false)
    (hlt : ∀ r ∈ (s.step (getTick extend) call (.read delays)).reads, r.finish < r.start + 2 ^ 16) :
    (s.step (getTick extend) call (.read delays)).Ok := by
  have hs : { s.dev with delays := delays }.Synced := h.synced
  have hw := waits_getTick extend { s.dev with delays := delays }
  have hmem := getTick_mem hext _ hs hl (hlt _ (List.mem_append_right _ List.mem_cons_self))
  exact ⟨hw.synced hl hs, h.reads.append hmem.1 hmem.2⟩

theorem lost_step (hcall : ∀ e s, Keeps s (call e s)) (s : ClockSystem δ) (e : ClockEvent ε)
    (hl : (s.step (getTick extend) call e).dev.lost = false) : s.dev.lost = false := by
  cases e with
  | elapse n => exact (waits_elapse n s.dev).lost hl
  | read delays => exact (waits_getTick extend { s.dev with delays := delays }).lost hl
  | call e delays => exact (hcall e { s.dev with delays := delays }).lost hl

theorem lost_run (hcall : ∀ e s, Keeps s (call e s)) (es : List (ClockEvent ε))
    (hl : (s.run (getTick extend) call es).dev.lost = false) : s.dev.lost = false := by
  induction es generalizing s with
  | nil => exact hl
  | cons e es ih => exact lost_step hcall s e (ih hl)

theorem reads_subset_step (s : ClockSystem δ) (e : ClockEvent ε) :
    s.reads ⊆ (s.step (getTick extend) call e).reads := by
  cases e with
  | elapse n => exact List.Subset.refl _
  | read delays => exact List.subset_append_left _ _
  | call e delays => exact List.Subset.refl _

theorem reads_subset_run (s : ClockSystem δ) (es : List (ClockEvent ε)) :
    s.reads ⊆ (s.run (getTick extend) call es).reads := by
  induction es generalizing s with
  | nil => exact List.Subset.refl _
  | cons e es ih => exact List.Subset.trans (reads_subset_step s e) (ih _)

theorem Ok.run (hext : Extends extend) (hcall : ∀ e s, Keeps s (call e s)) (es : List (ClockEvent ε)) (h : s.Ok)
    (hl : (s.run (getTick extend) call es).dev.lost = false)
    (hlt : ∀ r ∈ (s.run (getTick extend) call es).reads, r.finish < r.start + 2 ^ 16) :
    (s.run (getTick extend) call es).Ok := by
  induction es generalizing s with
  | nil => exact h
  | cons e es ih =>
    refine ih ?_ hl hlt
    have hl' : (s.step (getTick extend) call e).dev.lost = false := lost_run hcall es hl
    cases e with
    | elapse n => exact h.keeps (waits_elapse n s.dev).toKeeps hl'
    | read delays => exact h.read hext hl' fun r hr => hlt r (reads_subset_run _ es hr)
    | call e delays =>
      have hk := hcall e { s.dev with delays := delays }
      exact h.keeps ⟨hk.now_le, hk.lost, hk.synced⟩ hl'

/-- The function returns a value that the 32 bit counter had at some moment of the call. -/
def ReadsCounter (read : SplitClock δ → ℕ × SplitClock δ) : Prop :=
  ∀ s, (read s).2.now < s.now + 2 ^ 16 → ∃ t, s.now ≤ t ∧ t ≤ (read s).2.now ∧ (read s).1 = t % 2 ^ 32

/-- Along every run that loses no overflow, and in which fewer than `2 ^ 16` ticks pass during a read, each read
returns a time between the true time at its start and that at its end, and the values never decrease. -/
def ReadsTime (read : SplitClock δ → ℕ × SplitClock δ) (call : ε → SplitClock δ → SplitClock δ) : Prop :=
  ∀ (s : ClockSystem δ) (es : List (ClockEvent ε)), s.dev.Synced → s.reads = [] →
    (s.run read call es).dev.lost = false → (∀ r ∈ (s.run read call es).reads, r.finish < r.start + 2 ^ 16) →
    (∀ r ∈ (s.run read call es).reads, r.start ≤ r.value ∧ r.value ≤ r.finish) ∧
      (s.run read call es).reads.Pairwise fun r r' => r.value ≤ r'.value

theorem readsCounter_read32 : ReadsCounter (@read32 δ _) := by
  intro s hlt
  obtain ⟨u, w, w', h⟩ := read32_mem s hlt
  exact ⟨u.now, w.now_le, w'.now_le, h⟩

theorem readsTime_getTick (hext : Extends extend) (hcall : ∀ e s, Keeps s (call e s)) :
    ReadsTime (getTick extend) call := by
  intro s es hs hr hl hlt
  have h := Ok.run hext hcall es ⟨hs, hr ▸ .nil _⟩ hl hlt
  exact ⟨h.reads.mem, h.reads.monotone⟩

/-- **Reads of a clock with a split counter are linearizable**, for both drivers. -/
theorem irqGetTick_linearizable (τ δ : Type) [SplitHw δ] :
    (ReadsCounter (@Stm32Rtc.irqGetHwTick τ) ∧ ReadsTime (@Stm32Rtc.irqGetTick τ) Stm32Rtc.call) ∧
      ReadsCounter (@Hrtb.irqRead32Timer δ _) ∧ ReadsTime (@Hrtb.irqGetTick δ _) Hrtb.call :=
  ⟨⟨readsCounter_read32, readsTime_getTick extends_add Stm32Rtc.keeps_call⟩,
    readsCounter_read32, readsTime_getTick extends_or Hrtb.keeps_call⟩

/-- A clock one tick before its first wrap. -/
def beforeWrap : ClockSystem (RtcAlarm ℕ) :=
  ⟨⟨2 ^ 32 - 1, false, false, [], 0, ⟨0, 0, false, 0, none, []⟩⟩, []⟩

/-- The wrap falls between the two halves of the counter, and then before a read, and the interrupt routine runs. -/
theorem irqGetTick_linearizable_beforeWrap :
    let s := beforeWrap.run Stm32Rtc.irqGetTick Stm32Rtc.call
      [.read [0, 1], .read [3], .call .irq [], .read [0, 2]]
    (∀ r ∈ s.reads, r.start ≤ r.value ∧ r.value ≤ r.finish) ∧ s.reads.Pairwise fun r r' => r.value ≤ r'.value :=
  (irqGetTick_linearizable ℕ (RtcAlarm ℕ)).1.2 _ _ (by simp [SplitClock.Synced, Lib.Synced, beforeWrap]) rfl (by decide)
    (by decide +kernel)

end ClockSystem

end Miosix
