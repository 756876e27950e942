import MiosixKernel.Lib.PendingBit
import MiosixKernel.Timer.Driver

/-!
# The os timer: the asynchronous timer of the ATsam4l

The counter is extended by the overflow flag, but the flag is set too early, at some moment while the counter still
reads `0xfffffffe`. The driver returns the counter plus one, and while it reads `0xfffffffe` reads it again.

A schedule lists what happens in the hardware before each of the next accesses to a register, and whether the timer
is then busy.

* `Ast`: the timer, with the driver;
* `InTime`: the upper bits are those of the time, less one period if the flag is set;
* **`irqGetTimeTick_mem`**: the value read lies between the true time at the start and that at the end;
* **`irqGetTimeTick_returns`**: the loops of a read end;
* **`run_linearizable`**: runs.
-/

namespace Miosix

open Lib

/-! ## The hardware -/

/-- What the timer does: it counts, or it sets the overflow flag. -/
inductive AstEvent where
  | tick
  | overflow
deriving DecidableEq

/-- What happens before an access to a register, and whether the timer is busy in it. -/
structure AstAccess where
  events : List AstEvent
  busy : Bool

/-- The registers. The flag was `raised` for the coming wrap, and the wrap before it is `lost` if it was still set.
`now` is the number of increments of the counter plus one. -/
structure Ast where
  cv : ℕ
  ar0 : ℕ
  ovf : Bool
  alarm0 : Bool
  enabled : Bool
  forced : Bool
  raised : Bool
  lost : Bool
  now : ℕ
  schedule : List AstAccess

namespace Ast

/-- The flag is set while the counter reads `0xfffffffe`, once for each wrap. -/
def overflow (d : Ast) : Ast :=
  if d.enabled && decide (d.cv = 0xfffffffe) && !d.raised then
    { d with ovf := true, raised := true, lost := d.lost || d.ovf }
  else d

/-- The counter counts. At the latest now the flag is set. -/
def tick (d : Ast) : Ast :=
  if d.enabled then
    let d := d.overflow
    let c := (d.cv + 1) % 2 ^ 32
    { d with
      cv := c
      now := d.now + 1
      raised := d.raised && decide (c ≠ 0xfffffffe)
      alarm0 := d.alarm0 || decide (c = d.ar0) }
  else d

def event (d : Ast) : AstEvent → Ast
  | .tick => d.tick
  | .overflow => d.overflow

def events (d : Ast) (es : List AstEvent) : Ast := es.foldl event d

/-! ## The driver -/

/-- Access a register that is not protected by the busy flag. -/
def access (d : Ast) : Option Ast :=
  match d.schedule with
  | [] => none
  | a :: l => some { d.events a.events with schedule := l }

/-- Write a register. -/
def write (f : Ast → Ast) (d : Ast) : Option Ast := do
  let d ← d.access
  pure (f d)

/-- `while(AST->AST_SR & AST_SR_BUSY) ;` -/
def waitBusy : List AstAccess → Ast → Option Ast
  | [], _ => none
  | a :: l, d => if a.busy then waitBusy l (d.events a.events) else some { d.events a.events with schedule := l }

/-- The loop of `irqGetTimerCounter`. -/
def readCounter : List AstAccess → Ast → Option (ℕ × Ast)
  | [], _ => none
  | a :: l, d =>
    let d := d.events a.events
    if d.cv = 0xfffffffe then readCounter l d else some ((d.cv + 1) % 2 ^ 32, { d with schedule := l })

def irqGetTimerCounter (d : Ast) : Option (ℕ × Ast) := do
  let d ← waitBusy d.schedule d
  readCounter d.schedule d

/-- Writing the counter is not an increment, so `now` stays. -/
def irqSetTimerCounter (v : ℕ) (d : Ast) : Option Ast := do
  let d ← waitBusy d.schedule d
  d.write fun d => { d with cv := (v + 2 ^ 32 - 1) % 2 ^ 32 }

def irqGetTimerMatchReg (d : Ast) : Option (ℕ × Ast) := do
  let d ← waitBusy d.schedule d
  let d ← d.access
  pure (d.ar0, d)

def irqSetTimerMatchReg (v : ℕ) (d : Ast) : Option Ast := do
  let d ← waitBusy d.schedule d
  d.write fun d => { d with ar0 := v }

def irqGetOverflowFlag (d : Ast) : Option (Bool × Ast) := do
  let d ← d.access
  pure (d.ovf, d)

def irqClearOverflowFlag (d : Ast) : Option Ast := do
  let d ← waitBusy d.schedule d
  d.write fun d => { d with ovf := false }

def irqGetMatchFlag (d : Ast) : Option (Bool × Ast) := do
  let d ← d.access
  pure (d.alarm0, d)

def irqClearMatchFlag (d : Ast) : Option Ast := do
  let d ← waitBusy d.schedule d
  d.write fun d => { d with alarm0 := false }

def irqForcePendingIrq (d : Ast) : Option Ast := d.write fun d => { d with forced := true }

/-- The control register is read and written. -/
def irqStopTimer (d : Ast) : Option Ast := do
  let d ← waitBusy d.schedule d
  let d ← d.access
  d.write fun d => { d with enabled := false }

def irqStartTimer (d : Ast) : Option Ast := do
  let d ← waitBusy d.schedule d
  let d ← d.access
  d.write fun d => { d with enabled := true }

instance : TimerDriver Ast where
  irqGetTimerCounter := irqGetTimerCounter
  irqSetTimerCounter := irqSetTimerCounter
  irqGetTimerMatchReg := irqGetTimerMatchReg
  irqSetTimerMatchReg := irqSetTimerMatchReg
  irqGetOverflowFlag := irqGetOverflowFlag
  irqClearOverflowFlag := irqClearOverflowFlag
  irqGetMatchFlag := irqGetMatchFlag
  irqClearMatchFlag := irqClearMatchFlag
  irqForcePendingIrq := irqForcePendingIrq
  irqStopTimer := irqStopTimer
  irqStartTimer := irqStartTimer

/-! ## Time passing -/

/-- The time that the flag shows: it is ahead once the flag is set for the coming wrap. -/
def flagTime (d : Ast) : ℕ := d.now + if d.cv = 0xfffffffe ∧ d.raised then 1 else 0

/-- The counter plus one is the time, and the upper bits are right, up to one pending overflow. -/
structure InTime (upper : ℕ) (d : Ast) : Prop where
  counter : (d.cv + 1) % 2 ^ 32 = d.now % 2 ^ 32
  cv_lt : d.cv < 2 ^ 32
  synced : Synced (2 ^ 32) upper d.flagTime d.ovf

/-- `d'` is `d` after some time, with the overflow flag not cleared in between. -/
structure Waits (d d' : Ast) : Prop where
  now_le : d.now ≤ d'.now
  lost : d'.lost = false → d.lost = false
  flag : d.ovf = true → d'.ovf = true
  enabled : d'.enabled = d.enabled
  inTime : ∀ upper, d'.lost = false → d.InTime upper → d'.InTime upper

theorem Waits.refl (d : Ast) : Waits d d := ⟨le_rfl, id, id, rfl, fun _ _ h => h⟩

theorem Waits.trans {a b c : Ast} (h : Waits a b) (h' : Waits b c) : Waits a c :=
  ⟨h.now_le.trans h'.now_le, fun hl => h.lost (h'.lost hl), fun hf => h'.flag (h.flag hf),
    h'.enabled.trans h.enabled, fun u hl hi => h'.inTime u hl (h.inTime u (h'.lost hl) hi)⟩

variable {d d' : Ast} {upper : ℕ}

/-- The counter and the flag are as before. -/
theorem waits_of_eq (hcv : d'.cv = d.cv) (hov : d'.ovf = d.ovf) (hen : d'.enabled = d.enabled)
    (hr : d'.raised = d.raised) (hl : d'.lost = d.lost) (hn : d'.now = d.now) : Waits d d' := by
  refine ⟨hn.ge, fun h => hl ▸ h, fun h => hov ▸ h, hen, fun u _ h => ⟨?_, hcv ▸ h.cv_lt, ?_⟩⟩
  · rw [hcv, hn]
    exact h.counter
  · have := h.synced
    unfold flagTime at this ⊢
    rwa [hcv, hov, hr, hn]

theorem waits_overflow (d : Ast) : Waits d d.overflow := by
  unfold overflow
  split_ifs with hc
  · simp only [Bool.and_eq_true, decide_eq_true_eq, Bool.not_eq_true'] at hc
    obtain ⟨⟨-, hcv⟩, hr⟩ := hc
    refine ⟨le_rfl, fun hl => (Bool.or_eq_false_iff.mp hl).1, fun _ => rfl, rfl, fun u hl h => ⟨h.counter, h.cv_lt, ?_⟩⟩
    -- the flag is set one tick before the time wraps
    have hs := h.synced
    have hmod := h.counter
    simp only [flagTime, hcv, hr, Bool.false_eq_true, and_false, if_false, Nat.add_zero, true_and, if_true]
      at hs hmod ⊢
    have hwrap : (d.now + 1) % 2 ^ 32 = 0 := by omega
    have := hs.tick (by rw [(Bool.or_eq_false_iff.mp hl).2, Bool.false_and])
    rwa [hwrap, decide_eq_true rfl, Bool.or_true] at this
  · exact .refl d

theorem raised_overflow (hen : d.enabled = true) (hcv : d.cv = 0xfffffffe) : d.overflow.raised = true := by
  unfold overflow
  cases hr : d.raised <;> simp [hen, hcv, hr]

@[simp] theorem cv_overflow (d : Ast) : d.overflow.cv = d.cv := by
  unfold overflow
  split_ifs <;> rfl

theorem waits_tick (d : Ast) : Waits d d.tick := by
  unfold tick
  split_ifs with hen
  · refine (waits_overflow d).trans ?_
    dsimp only
    have hraised := fun h => raised_overflow hen (d := d) h
    rw [← cv_overflow] at hraised
    generalize d.overflow = d at hraised
    refine ⟨Nat.le_succ _, id, id, rfl, fun u _ h => ⟨?_, Nat.mod_lt _ (by positivity), ?_⟩⟩
    · have := h.counter
      have := h.cv_lt
      dsimp only
      omega
    · have hs := h.synced
      have hmod := h.counter
      have hlt := h.cv_lt
      simp only [flagTime] at hs ⊢
      by_cases hcv : d.cv = 0xfffffffe
      · simpa [hcv, hraised hcv] using hs
      · -- neither the time nor the flag's time wraps
        have hnew : ¬((d.cv + 1) % 2 ^ 32 = 0xfffffffe ∧
            (d.raised && decide ((d.cv + 1) % 2 ^ 32 ≠ 0xfffffffe)) = true) := by
          rintro ⟨h1, h2⟩
          simp only [Bool.and_eq_true, decide_eq_true_eq] at h2
          exact h2.2 h1
        rw [if_neg hnew, Nat.add_zero]
        rw [if_neg (fun hc => hcv hc.1), Nat.add_zero] at hs
        have hwrap : ¬(d.now + 1) % 2 ^ 32 = 0 := by omega
        have := hs.tick (by rw [decide_eq_false hwrap, Bool.and_false])
        rwa [decide_eq_false hwrap, Bool.or_false] at this
  · exact .refl d

theorem waits_events (es : List AstEvent) (d : Ast) : Waits d (d.events es) := by
  induction es generalizing d with
  | nil => exact .refl d
  | cons e es ih =>
    refine Waits.trans ?_ (ih (d.event e))
    cases e
    exacts [waits_tick d, waits_overflow d]

/-! ## The functions of the driver -/

theorem waits_access (h : d.access = some d') : Waits d d' := by
  unfold access at h
  split at h
  · cases h
  · cases h
    exact (waits_events _ d).trans (waits_of_eq rfl rfl rfl rfl rfl rfl)

/-- A write that leaves the counter and the flag alone. -/
theorem waits_write {f : Ast → Ast} (h : d.write f = some d') (hf : ∀ d, Waits d (f d)) : Waits d d' := by
  simp only [write, Option.bind_eq_bind, Option.bind_eq_some_iff] at h
  obtain ⟨d₁, h₁, h⟩ := h
  cases h
  exact (waits_access h₁).trans (hf d₁)

theorem waits_waitBusy {l : List AstAccess} (h : waitBusy l d = some d') : Waits d d' := by
  induction l generalizing d with
  | nil => cases h
  | cons a l ih =>
    rw [waitBusy] at h
    split_ifs at h
    · exact (waits_events _ d).trans (ih h)
    · cases h
      exact (waits_events _ d).trans (waits_of_eq rfl rfl rfl rfl rfl rfl)

theorem waits_busyWrite {f : Ast → Ast} (h : ((waitBusy d.schedule d).bind fun d => d.write f) = some d')
    (hf : ∀ d, Waits d (f d)) : Waits d d' := by
  simp only [Option.bind_eq_some_iff] at h
  obtain ⟨d₁, h₁, h⟩ := h
  exact (waits_waitBusy h₁).trans (waits_write h hf)

/-- The counter was read at the end, when it was not `0xfffffffe`. -/
theorem readCounter_spec {l : List AstAccess} {v : ℕ} (h : readCounter l d = some (v, d')) :
    Waits d d' ∧ d'.cv ≠ 0xfffffffe ∧ v = (d'.cv + 1) % 2 ^ 32 := by
  induction l generalizing d with
  | nil => cases h
  | cons a l ih =>
    rw [readCounter] at h
    split_ifs at h with hcv
    · obtain ⟨hw, h⟩ := ih h
      exact ⟨(waits_events _ d).trans hw, h⟩
    · cases h
      exact ⟨(waits_events _ d).trans (waits_of_eq rfl rfl rfl rfl rfl rfl), hcv, rfl⟩

theorem irqGetTimerCounter_spec {v : ℕ} (h : irqGetTimerCounter d = some (v, d')) :
    Waits d d' ∧ d'.cv ≠ 0xfffffffe ∧ v = (d'.cv + 1) % 2 ^ 32 := by
  simp only [irqGetTimerCounter, Option.bind_eq_bind, Option.bind_eq_some_iff] at h
  obtain ⟨d₁, h₁, h⟩ := h
  obtain ⟨hw, h⟩ := readCounter_spec h
  exact ⟨(waits_waitBusy h₁).trans hw, h⟩

theorem irqGetOverflowFlag_spec {v : Bool} (h : irqGetOverflowFlag d = some (v, d')) : Waits d d' ∧ v = d'.ovf := by
  simp only [irqGetOverflowFlag, Option.bind_eq_bind, Option.bind_eq_some_iff] at h
  obtain ⟨d₁, h₁, h⟩ := h
  cases h
  exact ⟨waits_access h₁, rfl⟩

theorem driverRel_waits : Adapter.DriverRel Waits where
  refl := .refl
  trans := .trans
  getTimerCounter h := (irqGetTimerCounter_spec h).1
  getTimerMatchReg {d v d'} h := by
    change irqGetTimerMatchReg d = _ at h
    simp only [irqGetTimerMatchReg, Option.bind_eq_bind, Option.bind_eq_some_iff] at h
    obtain ⟨d₁, h₁, d₂, h₂, h⟩ := h
    cases h
    exact (waits_waitBusy h₁).trans (waits_access h₂)
  setTimerMatchReg h := waits_busyWrite h fun _ => waits_of_eq rfl rfl rfl rfl rfl rfl
  getOverflowFlag h := (irqGetOverflowFlag_spec h).1
  getMatchFlag {d v d'} h := by
    change irqGetMatchFlag d = _ at h
    simp only [irqGetMatchFlag, Option.bind_eq_bind, Option.bind_eq_some_iff] at h
    obtain ⟨d₁, h₁, h⟩ := h
    cases h
    exact waits_access h₁
  clearMatchFlag h := waits_busyWrite h fun _ => waits_of_eq rfl rfl rfl rfl rfl rfl
  forcePendingIrq h := waits_write h fun _ => waits_of_eq rfl rfl rfl rfl rfl rfl

/-- The flag does not lead when the counter is read. -/
theorem InTime.synced_now (h : d.InTime upper) (hcv : d.cv ≠ 0xfffffffe) : Synced (2 ^ 32) upper d.now d.ovf := by
  have := h.synced
  rwa [flagTime, if_neg (fun hc => hcv hc.1), Nat.add_zero] at this

end Ast

/-! ## Reading the time -/

namespace Adapter

open Ast

variable {s s' : Adapter Ast} {v : ℕ}

/-- **The value read** lies between the true time at the start and that at the end. -/
theorem irqGetTimeTick_mem (hs : s.drv.InTime s.upperTimeTick) (h : s.irqGetTimeTick 32 = some (v, s'))
    (hl : s'.drv.lost = false) : s.drv.now ≤ v ∧ v ≤ s'.drv.now := by
  have hor : ∀ c, c < 2 ^ 32 → s.upperTimeTick ||| c = s.upperTimeTick + c := by
    intro c hc
    obtain ⟨k, hk⟩ := hs.synced.dvd
    rw [hk]
    exact (Nat.two_pow_add_eq_or_of_lt hc k).symm
  obtain ⟨counter, d₁, d₂, h₁, h⟩ := irqGetTimeTick_cases h
  obtain ⟨w₁, hcv₁, rfl⟩ := irqGetTimerCounter_spec h₁
  obtain ⟨h₂, rfl, rfl⟩ | ⟨h₂, counter2, d₃, h₃, rfl, rfl⟩ := h
  · obtain ⟨w₂, hf⟩ := irqGetOverflowFlag_spec h₂
    have hi := w₁.inTime _ (w₂.lost hl) hs
    have hs₁ := hi.synced_now hcv₁
    have hf₁ : d₁.ovf = false := by
      by_contra hcon
      have := w₂.flag (by simpa using hcon)
      rw [← hf] at this
      cases this
    rw [hf₁] at hs₁
    have hnow := hs₁.now_eq
    rw [if_neg Bool.false_ne_true, Nat.add_zero] at hnow
    rw [hi.counter, hor _ (Nat.mod_lt _ (by positivity)), ← hnow]
    exact ⟨w₁.now_le, w₂.now_le⟩
  · obtain ⟨w₂, hf⟩ := irqGetOverflowFlag_spec h₂
    obtain ⟨w₃, hcv₃, rfl⟩ := irqGetTimerCounter_spec h₃
    have w₂₃ := w₂.trans w₃
    have hi := w₁.inTime _ (w₂₃.lost hl) hs
    have hi₃ := w₂₃.inTime _ hl hi
    have hs₃ := hi₃.synced_now hcv₃
    rw [w₃.flag hf.symm] at hs₃
    have hnow := hs₃.now_eq
    have hlt := Nat.mod_lt d₃.now (by positivity : 0 < 2 ^ 32)
    rw [if_pos rfl] at hnow
    have hmem := @pendingBit_mem _ _ _ _ true hs.synced.dvd w₂₃.now_le (hi.synced_now hcv₁).le (by omega)
      (by rw [if_pos rfl]; omega)
    rw [hi.counter, hi₃.counter, hor _ (Nat.mod_lt _ (by positivity))]
    simp only [Bool.true_and, decide_eq_true_eq] at hmem
    exact ⟨w₁.now_le.trans hmem.1, hmem.2⟩

/-- The interrupt routine adds the wrap to the upper bits. -/
theorem irqHandleOverflow_spec (h : s.irqHandleOverflow 32 = some s') :
    s.drv.now ≤ s'.drv.now ∧ s'.drv.enabled = s.drv.enabled ∧ (s'.drv.lost = false → s.drv.lost = false ∧
      (s.drv.InTime s.upperTimeTick → s'.drv.InTime s'.upperTimeTick)) := by
  simp only [irqHandleOverflow, Option.bind_eq_bind, Option.bind_eq_some_iff, Prod.exists] at h
  obtain ⟨overflow, d₁, h₁, h⟩ := h
  obtain ⟨w₁, rfl⟩ := irqGetOverflowFlag_spec h₁
  split_ifs at h with hov
  · simp only [Option.bind_eq_some_iff] at h
    obtain ⟨d₂, h₂, h⟩ := h
    cases h
    change irqClearOverflowFlag d₁ = _ at h₂
    simp only [irqClearOverflowFlag, Option.bind_eq_bind, Option.bind_eq_some_iff, Ast.write] at h₂
    obtain ⟨d₃, h₃, d₄, h₄, h₂⟩ := h₂
    cases h₂
    have w₄ := (waits_waitBusy h₃).trans (waits_access h₄)
    have w := w₁.trans w₄
    refine ⟨w.now_le, w.enabled, fun hl => ⟨w.lost hl, fun hs => ?_⟩⟩
    have hi := w.inTime _ hl hs
    have hsync := hi.synced
    rw [w₄.flag hov] at hsync
    exact ⟨hi.counter, hi.cv_lt, hsync.handle⟩
  · cases h
    exact ⟨w₁.now_le, w₁.enabled, fun hl => ⟨w₁.lost hl, w₁.inTime _ hl⟩⟩

end Adapter

/-! ## The loops of a read end -/

/-- The timer goes on counting, it is not busy for ever, and accesses follow each other within one period. -/
structure Fair (f : ℕ → AstAccess) : Prop where
  ready : ∀ n, ∃ m ≥ n, (f m).busy = false
  ticks : ∀ n, ∃ m ≥ n, 0 < (f m).events.count .tick
  short : ∀ n, (f n).events.count .tick < 2 ^ 32

namespace Ast

variable {f : ℕ → AstAccess} {n : ℕ} {d : Ast}

theorem range'_append (n k k' : ℕ) (l : List AstAccess) :
    (List.range' n (k + k')).map f ++ l = (List.range' n k).map f ++ ((List.range' (n + k) k').map f ++ l) := by
  rw [← List.append_assoc, ← List.map_append, List.range'_append_1]

/-- The timer is on. -/
structure Running (d : Ast) : Prop where
  enabled : d.enabled = true
  cv_lt : d.cv < 2 ^ 32

theorem cv_event (hd : d.Running) (e : AstEvent) :
    (d.event e).Running ∧ (d.event e).cv = (d.cv + [e].count .tick) % 2 ^ 32 := by
  have hlt := hd.cv_lt
  cases e with
  | tick =>
    have hcv : d.tick.cv = (d.cv + 1) % 2 ^ 32 := by simp [tick, hd.enabled]
    refine ⟨⟨(waits_tick d).enabled.trans hd.enabled, ?_⟩, hcv⟩
    rw [event, hcv]
    exact Nat.mod_lt _ (by positivity)
  | overflow =>
    refine ⟨⟨(waits_overflow d).enabled.trans hd.enabled, ?_⟩, ?_⟩
    · rwa [event, cv_overflow]
    · rw [event, cv_overflow]
      simp only [List.count_singleton, reduceCtorEq, beq_iff_eq, if_false]
      omega

theorem cv_events (hd : d.Running) (es : List AstEvent) :
    (d.events es).Running ∧ (d.events es).cv = (d.cv + es.count .tick) % 2 ^ 32 := by
  induction es generalizing d with
  | nil =>
    have := hd.cv_lt
    refine ⟨hd, ?_⟩
    change d.cv = (d.cv + 0) % 2 ^ 32
    omega
  | cons e es ih =>
    obtain ⟨h1, h2⟩ := cv_event hd e
    obtain ⟨h3, h4⟩ := ih h1
    refine ⟨h3, h4.trans ?_⟩
    have hcount : (e :: es).count .tick = [e].count .tick + es.count .tick := by
      rw [← List.count_append, List.singleton_append]
    omega

theorem tick_schedule (d : Ast) (l : List AstAccess) : { d with schedule := l }.tick = { d.tick with schedule := l } := by
  unfold tick overflow
  dsimp only
  split_ifs <;> rfl

theorem events_schedule (es : List AstEvent) (d : Ast) (l : List AstAccess) :
    { d with schedule := l }.events es = { d.events es with schedule := l } := by
  induction es generalizing d with
  | nil => rfl
  | cons e es ih =>
    have h : { d with schedule := l }.event e = { d.event e with schedule := l } := by
      cases e with
      | tick => exact tick_schedule d l
      | overflow =>
        unfold event overflow
        dsimp only
        split_ifs <;> rfl
    change ({ d with schedule := l }.event e).events es = _
    rw [h]
    exact ih _

theorem waitBusy_schedule (l l' : List AstAccess) (d : Ast) : waitBusy l { d with schedule := l' } = waitBusy l d := by
  induction l generalizing d with
  | nil => rfl
  | cons a l ih =>
    rw [waitBusy, waitBusy, events_schedule]
    split_ifs
    · exact ih _
    · rfl

theorem readCounter_schedule (l l' : List AstAccess) (d : Ast) :
    readCounter l { d with schedule := l' } = readCounter l d := by
  induction l generalizing d with
  | nil => rfl
  | cons a l ih =>
    rw [readCounter, readCounter, events_schedule]
    dsimp only
    split_ifs
    · exact ih _
    · rfl

/-- The timer is not busy at last. -/
theorem waitBusy_returns (hf : Fair f) (n : ℕ) (hd : d.Running) :
    ∃ (k : ℕ) (d' : Ast), d'.Running ∧ ∀ l, waitBusy ((List.range' n k).map f ++ l) d = some { d' with schedule := l } := by
  obtain ⟨m, hm, hready⟩ := hf.ready n
  obtain ⟨j, rfl⟩ := Nat.exists_eq_add_of_le hm
  induction j generalizing n d with
  | zero =>
    refine ⟨1, d.events (f n).events, (cv_events hd _).1, fun l => ?_⟩
    rw [Nat.add_zero] at hready
    simp [waitBusy, hready]
  | succ j ih =>
    by_cases hb : (f n).busy = true
    · obtain ⟨k, d', hd', hk⟩ := ih (n + 1) (cv_events hd (f n).events).1 (by omega)
        (by rwa [show n + 1 + j = n + (j + 1) by omega])
      refine ⟨k + 1, d', hd', fun l => ?_⟩
      rw [List.range'_succ, List.map_cons, List.cons_append, waitBusy, if_pos hb]
      exact hk l
    · refine ⟨1, d.events (f n).events, (cv_events hd _).1, fun l => ?_⟩
      simp [waitBusy, hb]

theorem readCounter_of_ne (hne : (d.events (f n).events).cv ≠ 0xfffffffe) (l : List AstAccess) :
    readCounter ((List.range' n 1).map f ++ l) d =
      some (((d.events (f n).events).cv + 1) % 2 ^ 32, { d.events (f n).events with schedule := l }) := by
  rw [List.range'_one, List.map_singleton, List.singleton_append, readCounter]
  exact if_neg hne

theorem readCounter_of_eq {k v : ℕ} {d' : Ast} (heq : (d.events (f n).events).cv = 0xfffffffe)
    (h : ∀ l, readCounter ((List.range' (n + 1) k).map f ++ l) (d.events (f n).events) =
      some (v, { d' with schedule := l })) (l : List AstAccess) :
    readCounter ((List.range' n (k + 1)).map f ++ l) d = some (v, { d' with schedule := l }) := by
  rw [List.range'_succ, List.map_cons, List.cons_append, readCounter]
  exact (if_pos heq).trans (h l)

/-- The counter leaves `0xfffffffe` at the next tick. -/
theorem readCounter_returns_of_eq (hf : Fair f) (n : ℕ) (hd : d.Running) (hcv : d.cv = 0xfffffffe) :
    ∃ (k v : ℕ) (d' : Ast), d'.Running ∧
      ∀ l, readCounter ((List.range' n k).map f ++ l) d = some (v, { d' with schedule := l }) := by
  obtain ⟨m, hm, htick⟩ := hf.ticks n
  obtain ⟨j, rfl⟩ := Nat.exists_eq_add_of_le hm
  induction j generalizing n d with
  | zero =>
    obtain ⟨hd', hcv'⟩ := cv_events hd (f n).events
    have hshort := hf.short n
    rw [Nat.add_zero] at htick
    have hne : (d.events (f n).events).cv ≠ 0xfffffffe := by omega
    exact ⟨1, _, _, hd', readCounter_of_ne hne⟩
  | succ j ih =>
    obtain ⟨hd', hcv'⟩ := cv_events hd (f n).events
    by_cases hne : (d.events (f n).events).cv = 0xfffffffe
    · obtain ⟨k, v, d', hd', hk⟩ := ih (n + 1) hd' hne (by omega)
        (by rwa [show n + 1 + j = n + (j + 1) by omega])
      exact ⟨k + 1, v, d', hd', readCounter_of_eq hne hk⟩
    · exact ⟨1, _, _, hd', readCounter_of_ne hne⟩

theorem readCounter_returns (hf : Fair f) (n : ℕ) (hd : d.Running) :
    ∃ (k v : ℕ) (d' : Ast), d'.Running ∧
      ∀ l, readCounter ((List.range' n k).map f ++ l) d = some (v, { d' with schedule := l }) := by
  obtain ⟨hd', hcv'⟩ := cv_events hd (f n).events
  by_cases hne : (d.events (f n).events).cv = 0xfffffffe
  · obtain ⟨k, v, d', hd', hk⟩ := readCounter_returns_of_eq hf (n + 1) hd' hne
    exact ⟨k + 1, v, d', hd', readCounter_of_eq hne hk⟩
  · exact ⟨1, _, _, hd', readCounter_of_ne hne⟩

theorem irqGetTimerCounter_returns (hf : Fair f) (n : ℕ) (hd : d.Running) :
    ∃ (k v : ℕ) (d' : Ast), d'.Running ∧ ∀ l, irqGetTimerCounter { d with schedule := (List.range' n k).map f ++ l } =
      some (v, { d' with schedule := l }) := by
  obtain ⟨k₁, d₁, hd₁, h₁⟩ := waitBusy_returns hf n hd
  obtain ⟨k₂, v, d₂, hd₂, h₂⟩ := readCounter_returns hf (n + k₁) hd₁
  refine ⟨k₁ + k₂, v, d₂, hd₂, fun l => ?_⟩
  rw [range'_append, irqGetTimerCounter, waitBusy_schedule, h₁, Option.bind_eq_bind, Option.bind_some,
    readCounter_schedule]
  exact h₂ l

theorem irqGetOverflowFlag_returns (n : ℕ) (hd : d.Running) :
    ∃ (v : Bool) (d' : Ast), d'.Running ∧ ∀ l, irqGetOverflowFlag { d with schedule := (List.range' n 1).map f ++ l } =
      some (v, { d' with schedule := l }) := by
  refine ⟨(d.events (f n).events).ovf, d.events (f n).events, (cv_events hd _).1, fun l => ?_⟩
  simp only [List.range'_one, List.map_singleton, List.singleton_append, irqGetOverflowFlag, access, events_schedule,
    Option.bind_eq_bind, Option.bind_some]
  rfl

end Ast

namespace Adapter

open Ast

variable {f : ℕ → AstAccess}

/-- A call in which the accesses `l` happen. -/
def during (s : Adapter Ast) (l : List AstAccess) : Adapter Ast := { s with drv := { s.drv with schedule := l } }

/-- **A read returns** after finitely many accesses. -/
theorem irqGetTimeTick_returns (hf : Fair f) {s : Adapter Ast} (hs : s.drv.Running) :
    ∃ k v s', (s.during ((List.range k).map f)).irqGetTimeTick 32 = some (v, s') := by
  obtain ⟨k₁, v₁, d₁, hd₁, h₁⟩ := irqGetTimerCounter_returns hf 0 hs
  obtain ⟨v₂, d₂, hd₂, h₂⟩ := irqGetOverflowFlag_returns (f := f) (0 + k₁) hd₁
  obtain ⟨k₃, v₃, d₃, hd₃, h₃⟩ := irqGetTimerCounter_returns hf (0 + k₁ + 1) hd₂
  refine ⟨k₁ + (1 + k₃), ?_⟩
  have hsplit : (List.range (k₁ + (1 + k₃))).map f = (List.range' 0 k₁).map f ++
      ((List.range' (0 + k₁) 1).map f ++ ((List.range' (0 + k₁ + 1) k₃).map f ++ [])) := by
    rw [← range'_append (0 + k₁) 1 k₃ [], ← range'_append 0 k₁ (1 + k₃) [], List.append_nil, List.range_eq_range']
  rw [hsplit, irqGetTimeTick, during]
  change ∃ v s', ((irqGetTimerCounter _).bind fun p => (irqGetOverflowFlag p.2).bind _) = some (v, s')
  rw [h₁, Option.bind_some, h₂, Option.bind_some]
  cases v₂ with
  | false => exact ⟨_, _, rfl⟩
  | true =>
    change ∃ v s', ((irqGetTimerCounter _).bind _) = some (v, s')
    rw [h₃, Option.bind_some]
    dsimp only
    split_ifs
    exacts [⟨_, _, rfl⟩, ⟨_, _, rfl⟩]

end Adapter

/-! ## Runs -/

/-- The timer and the values read from it. -/
structure AstSystem where
  dev : Adapter Ast
  reads : List ClockRead

/-- What can happen: hardware events, a read, scheduling, and the interrupt routine, in which `IRQtimerInterrupt`
schedules `rearm`. -/
inductive AstSystemEvent where
  | hardware (es : List AstEvent)
  | read (schedule : List AstAccess)
  | setIrq (tick : ℕ) (schedule : List AstAccess)
  | irq (rearm : List ℕ) (schedule : List AstAccess)

namespace AstSystem

open Adapter

variable {s s' : AstSystem} {dev : Adapter Ast}

def step (s : AstSystem) : AstSystemEvent → Option AstSystem
  | .hardware es => some { s with dev := { s.dev with drv := s.dev.drv.events es } }
  | .read schedule => do
    let (v, dev) ← (s.dev.during schedule).irqGetTimeTick 32
    pure ⟨dev, s.reads ++ [⟨s.dev.drv.now, v, dev.drv.now⟩]⟩
  | .setIrq tick schedule => do
    let dev ← (s.dev.during schedule).irqSetIrqTick 32 2 tick
    pure { s with dev := dev }
  | .irq rearm schedule => do
    let dev := { s.dev with drv := { s.dev.drv with forced := false } }
    let dev ← (dev.during schedule).irqHandler 32 fun _ => rearmAll 32 2 rearm
    pure { s with dev := dev }

def run : AstSystem → List AstSystemEvent → Option AstSystem
  | s, [] => some s
  | s, e :: es => do
    let s ← s.step e
    run s es

/-- The timer is on, the upper bits are right, and so were the reads. -/
structure Ok (s : AstSystem) : Prop where
  enabled : s.dev.drv.enabled = true
  inTime : s.dev.drv.InTime s.dev.upperTimeTick
  reads : ReadsOk s.reads s.dev.drv.now

theorem Ok.waits (h : s.Ok) (hw : Frame Ast.Waits 32 s.dev dev) (hl : dev.drv.lost = false) : Ok { s with dev := dev } :=
  ⟨hw.drv.enabled.trans h.enabled, hw.upper ▸ hw.drv.inTime _ hl h.inTime, h.reads.later hw.drv.now_le⟩

theorem frame_during (s : Adapter Ast) (l : List AstAccess) : Frame Ast.Waits 32 s (s.during l) :=
  ⟨Ast.waits_of_eq rfl rfl rfl rfl rfl rfl, rfl, id⟩

theorem Ok.step (e : AstSystemEvent) (hs : s.step e = some s') (hl : s'.dev.drv.lost = false) :
    s.dev.drv.lost = false ∧ (s.Ok → s'.Ok) := by
  have hR := Ast.driverRel_waits
  cases e with
  | hardware es =>
    cases hs
    have hw : Frame Ast.Waits 32 s.dev { s.dev with drv := s.dev.drv.events es } := ⟨Ast.waits_events es _, rfl, id⟩
    exact ⟨hw.drv.lost hl, fun h => h.waits hw hl⟩
  | read schedule =>
    simp only [AstSystem.step, Option.bind_eq_bind, Option.bind_eq_some_iff, Prod.exists] at hs
    obtain ⟨v, dev, hd, hs⟩ := hs
    cases hs
    have hw₀ := frame_during s.dev schedule
    have hw₁ := hR.irqGetTimeTick hd
    have hw := hR.frame_trans hw₀ hw₁
    refine ⟨hw.drv.lost hl, fun h => ?_⟩
    have hmem := irqGetTimeTick_mem (hw₀.drv.inTime _ (hw₁.drv.lost hl) h.inTime) hd hl
    have hok := h.waits hw hl
    exact ⟨hok.enabled, hok.inTime, h.reads.append hmem.1 hmem.2⟩
  | setIrq tick schedule =>
    simp only [AstSystem.step, Option.bind_eq_bind, Option.bind_eq_some_iff] at hs
    obtain ⟨dev, hd, hs⟩ := hs
    cases hs
    have hw := hR.frame_trans (frame_during s.dev schedule) (hR.irqSetIrqTick hd)
    exact ⟨hw.drv.lost hl, fun h => h.waits hw hl⟩
  | irq rearm schedule =>
    simp only [AstSystem.step, irqHandler, Option.bind_eq_bind, Option.bind_eq_some_iff] at hs
    obtain ⟨dev, ⟨dev₁, hm, ho⟩, hs⟩ := hs
    cases hs
    have h0 : Frame Ast.Waits 32 s.dev { s.dev with drv := { s.dev.drv with forced := false } } :=
      ⟨Ast.waits_of_eq rfl rfl rfl rfl rfl rfl, rfl, id⟩
    have hw := hR.frame_trans (hR.frame_trans h0 (frame_during _ schedule))
      (hR.irqHandleMatch (fun _ _ _ => hR.rearmAll rearm) hm)
    obtain ⟨hnow, hen, hspec⟩ := irqHandleOverflow_spec ho
    obtain ⟨hl₁, hin⟩ := hspec hl
    refine ⟨hw.drv.lost hl₁, fun h => ?_⟩
    have hok := h.waits hw hl₁
    exact ⟨hen.trans hok.enabled, hin hok.inTime, hok.reads.later hnow⟩

theorem Ok.run (es : List AstSystemEvent) (hs : s.run es = some s') (hl : s'.dev.drv.lost = false) :
    s.dev.drv.lost = false ∧ (s.Ok → s'.Ok) := by
  induction es generalizing s with
  | nil =>
    cases hs
    exact ⟨hl, id⟩
  | cons e es ih =>
    simp only [AstSystem.run, Option.bind_eq_bind, Option.bind_eq_some_iff] at hs
    obtain ⟨s₁, h₁, hs⟩ := hs
    obtain ⟨hl₁, hok⟩ := ih hs
    obtain ⟨hl₀, hok₀⟩ := Ok.step e h₁ hl₁
    exact ⟨hl₀, hok ∘ hok₀⟩

/-- **Reads of the time are linearizable.** A read returns a time between its start and its end, for every placement
of the hardware events that does not raise the overflow flag while it is still set. So it is along every run, where
the values never decrease, and every read ends. -/
theorem run_linearizable :
    (∀ (s s' : Adapter Ast) (v : ℕ), s.drv.InTime s.upperTimeTick → s.irqGetTimeTick 32 = some (v, s') →
        s'.drv.lost = false → s.drv.now ≤ v ∧ v ≤ s'.drv.now) ∧
      ∀ (s : AstSystem) (es : List AstSystemEvent) (s' : AstSystem), s.dev.drv.enabled = true →
        s.dev.drv.InTime s.dev.upperTimeTick → s.reads = [] → s.run es = some s' → s'.dev.drv.lost = false →
        (∀ r ∈ s'.reads, r.start ≤ r.value ∧ r.value ≤ r.finish) ∧
          s'.reads.Pairwise (fun r r' => r.value ≤ r'.value) ∧
          ∀ f, Fair f → ∃ k v dev, (s'.dev.during ((List.range k).map f)).irqGetTimeTick 32 = some (v, dev) := by
  refine ⟨fun s s' v hs h hl => irqGetTimeTick_mem hs h hl, fun s es s' hen hin hr hs hl => ?_⟩
  have hok := (Ok.run es hs hl).2 ⟨hen, hin, hr ▸ .nil _⟩
  exact ⟨hok.reads.mem, hok.reads.monotone, fun f hf => irqGetTimeTick_returns hf ⟨hok.enabled, hok.inTime.cv_lt⟩⟩

/-- The timer two ticks before its first wrap. -/
def beforeWrap : AstSystem where
  dev := { drv := ⟨0xfffffffe, 0, false, false, true, false, false, false, 0xffffffff, []⟩
           upperTimeTick := 0
           upperIrqTick := 0
           lateIrq := false
           tc := .ofDefault }
  reads := []

/-- The flag is set early, and the interrupt routine runs before the counter wraps; the next read waits for it. -/
def earlyFlag : List AstSystemEvent :=
  [.hardware [.overflow], .irq [] (List.replicate 4 ⟨[], false⟩),
    .read [⟨[], false⟩, ⟨[], false⟩, ⟨[.tick], false⟩, ⟨[], false⟩]]

theorem run_linearizable_earlyFlag :
    ∃ s', beforeWrap.run earlyFlag = some s' ∧ s'.reads = [⟨0xffffffff, 2 ^ 32, 2 ^ 32⟩] ∧
      ∀ r ∈ s'.reads, r.start ≤ r.value ∧ r.value ≤ r.finish := by
  have hrun : ∃ s', beforeWrap.run earlyFlag = some s' ∧ s'.reads = [⟨0xffffffff, 2 ^ 32, 2 ^ 32⟩] ∧
      s'.dev.drv.lost = false := ⟨_, rfl, rfl, rfl⟩
  obtain ⟨s', hs, hr, hl⟩ := hrun
  have hin : beforeWrap.dev.drv.InTime beforeWrap.dev.upperTimeTick :=
    ⟨by decide, by decide, by simp [Synced, Ast.flagTime, beforeWrap]⟩
  exact ⟨s', hs, hr, (run_linearizable.2 beforeWrap _ s' rfl hin rfl hs hl).1⟩

end AstSystem

end Miosix
