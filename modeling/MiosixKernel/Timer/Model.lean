import MiosixKernel.Time.Conversion
import Mathlib.Logic.Function.Iterate

/-!
# The os timer: the model

The hardware counts the true time `now` modulo `2 ^ bits`, with a sticky flag set when the counter
wraps and another set when it becomes equal to the match register. `TimerAdapter` extends the
counter to a 64 bit time in software, and schedules one interrupt at a time.

The code runs with interrupts disabled, so only hardware ticks interleave with it, and they matter
only between two accesses to a register: `delays` lists how many ticks pass before each of the next
accesses.

* `HwTimer`, `HwTimer.tick`, `HwTimer.elapse`;
* `TimerAdapter`: `irqGetTimeTick`, `irqGetIrqTick`, `irqSetIrqTick`, `irqSetIrqNs`, `irqHandler`.
-/

namespace Miosix

/-! ## The hardware -/

/-- A hardware timer. `lost` records that the counter wrapped while the previous overflow was still
unhandled. -/
structure HwTimer where
  now : ℕ
  matchReg : ℕ
  matchFlag : Bool
  overflowFlag : Bool
  forced : Bool
  lost : Bool
deriving DecidableEq

namespace HwTimer

variable (bits : ℕ)

/-- The counter register. -/
def counter (hw : HwTimer) : ℕ := hw.now % 2 ^ bits

/-- One tick of the clock. -/
def tick (hw : HwTimer) : HwTimer :=
  let c := (hw.now + 1) % 2 ^ bits
  { hw with
    now := hw.now + 1
    matchFlag := hw.matchFlag || decide (c = hw.matchReg)
    overflowFlag := hw.overflowFlag || decide (c = 0)
    lost := hw.lost || (hw.overflowFlag && decide (c = 0)) }

/-- `n` ticks of the clock. -/
def elapse (n : ℕ) (hw : HwTimer) : HwTimer := (tick bits)^[n] hw

/-- The interrupt is pending while a flag is set or it was forced. -/
def pending (hw : HwTimer) : Bool := hw.matchFlag || hw.overflowFlag || hw.forced

end HwTimer

/-! ## The adapter -/

/-- The software state over the hardware timer; `os` is the rest of the kernel. -/
structure TimerAdapter (ω : Type) where
  hw : HwTimer
  delays : List ℕ
  upperTimeTick : ℕ
  upperIrqTick : ℕ
  lateIrq : Bool
  tc : TimeConversion
  os : ω

/-- A call of `IRQtimerInterrupt`: the tick it was decided at, whether `lateIrq` was set, and the
true time. -/
structure TimerCall where
  tick : ℕ
  late : Bool
  time : ℕ
deriving DecidableEq

namespace TimerAdapter

variable {ω : Type} (bits quirkAdvance : ℕ)

/-- The ticks that pass before a register access. -/
def wait (s : TimerAdapter ω) : TimerAdapter ω :=
  { s with hw := s.hw.elapse bits (s.delays.headD 0), delays := s.delays.tail }

/-- Write to the hardware. -/
def setHw (s : TimerAdapter ω) (f : HwTimer → HwTimer) : TimerAdapter ω := { s with hw := f s.hw }

def irqGetTimerCounter (s : TimerAdapter ω) : ℕ × TimerAdapter ω :=
  ((s.wait bits).hw.counter bits, s.wait bits)

def irqGetOverflowFlag (s : TimerAdapter ω) : Bool × TimerAdapter ω :=
  ((s.wait bits).hw.overflowFlag, s.wait bits)

def irqGetMatchFlag (s : TimerAdapter ω) : Bool × TimerAdapter ω :=
  ((s.wait bits).hw.matchFlag, s.wait bits)

def irqGetTimerMatchReg (s : TimerAdapter ω) : ℕ × TimerAdapter ω :=
  ((s.wait bits).hw.matchReg, s.wait bits)

def irqSetTimerMatchReg (s : TimerAdapter ω) (v : ℕ) : TimerAdapter ω :=
  (s.wait bits).setHw fun hw => { hw with matchReg := v }

def irqClearMatchFlag (s : TimerAdapter ω) : TimerAdapter ω :=
  (s.wait bits).setHw fun hw => { hw with matchFlag := false }

def irqClearOverflowFlag (s : TimerAdapter ω) : TimerAdapter ω :=
  (s.wait bits).setHw fun hw => { hw with overflowFlag := false }

def irqForcePendingIrq (s : TimerAdapter ω) : TimerAdapter ω :=
  (s.wait bits).setHw fun hw => { hw with forced := true }

/-- `x & upperMask`. -/
def upperPart (x : ℕ) : ℕ := x >>> bits <<< bits

/-- `x & lowerMask`. -/
def lowerPart (x : ℕ) : ℕ := x &&& (2 ^ bits - 1)

/-- The current time in ticks: the overflow flag is an extra timer bit. -/
def irqGetTimeTick (s : TimerAdapter ω) : ℕ × TimerAdapter ω :=
  let (counter, s) := s.irqGetTimerCounter bits
  let (overflow, s) := s.irqGetOverflowFlag bits
  if overflow then
    let (counter2, s) := s.irqGetTimerCounter bits
    -- the counter may have rolled over between the first read and the flag
    if counter ≤ counter2 then ((s.upperTimeTick ||| counter) + 2 ^ bits, s)
    else (s.upperTimeTick ||| counter, s)
  else (s.upperTimeTick ||| counter, s)

/-- The time of the next interrupt in ticks. -/
def irqGetIrqTick (s : TimerAdapter ω) : ℕ × TimerAdapter ω :=
  let (reg, s) := s.irqGetTimerMatchReg bits
  (s.upperIrqTick ||| reg, s)

/-- Schedule the next interrupt at `tick`, at once if it is in the past. -/
def irqSetIrqTick (s : TimerAdapter ω) (tick : ℕ) : TimerAdapter ω :=
  let tick2 := tick + quirkAdvance
  let s := { s with upperIrqTick := upperPart bits tick2 }
  let s := s.irqSetTimerMatchReg bits (lowerPart bits tick2)
  let (now, s) := s.irqGetTimeTick bits
  if tick ≤ now then { s.irqForcePendingIrq bits with lateIrq := true } else s

/-- Schedule the next interrupt at a time in nanoseconds. -/
def irqSetIrqNs (s : TimerAdapter ω) (ns : ℤ) : TimerAdapter ω :=
  let (tick, tc) := s.tc.ns2tick ns
  { s with tc := tc }.irqSetIrqTick bits quirkAdvance tick.toNat

/-- The match half of the interrupt routine. -/
def irqHandleMatch (irqTimerInterrupt : ℤ → TimerAdapter ω → TimerAdapter ω)
    (s : TimerAdapter ω) : Option TimerCall × TimerAdapter ω :=
  let (matched, s) := s.irqGetMatchFlag bits
  if matched || s.lateIrq then
    let s := s.irqClearMatchFlag bits
    let (tick, s) := s.irqGetTimeTick bits
    let (irqTick, s) := s.irqGetIrqTick bits
    if irqTick ≤ tick || s.lateIrq then
      (some ⟨tick, s.lateIrq, s.hw.now⟩,
        irqTimerInterrupt (s.tc.tick2ns tick) { s with lateIrq := false })
    else (none, s)
  else (none, s)

/-- The overflow half of the interrupt routine. -/
def irqHandleOverflow (s : TimerAdapter ω) : TimerAdapter ω :=
  let (overflow, s) := s.irqGetOverflowFlag bits
  if overflow then
    let s := s.irqClearOverflowFlag bits
    { s with upperTimeTick := s.upperTimeTick + 2 ^ bits }
  else s

/-- The interrupt routine, and the call of `IRQtimerInterrupt` that it made. A forced interrupt is
acknowledged on entry. -/
def irqHandler (irqTimerInterrupt : ℤ → TimerAdapter ω → TimerAdapter ω)
    (s : TimerAdapter ω) : Option TimerCall × TimerAdapter ω :=
  let s := s.setHw fun hw => { hw with forced := false }
  let (call, s) := s.irqHandleMatch bits irqTimerInterrupt
  (call, s.irqHandleOverflow bits)

end TimerAdapter

end Miosix
