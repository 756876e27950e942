import MiosixKernel.Timer.Irq

/-!
# The os timer: waking the sleeping threads

The kernel keeps the sleeping threads in a list ordered by wakeup time, and schedules the timer
interrupt for the first of them. The interrupt compares ticks, and the kernel then compares
nanoseconds: both conversions round down, so the interrupt can find its tick reached and the wakeup
time not.

* `SleepState`, `irqAddToSleepingList`, `irqWakeThreads`, `irqTimerInterrupt`;
* `irqAddToSleepingList_sorted`: the list stays in order;
* `lt_of_mem_wakeLoop`, `sleepFlag_wakeLoop_due`, `wakeLoop_early`: which threads are woken;
* `irqTimerInterrupt_early`: the interrupt that comes too early does nothing;
* **`irqHandler_keepsSleepers_iff`**: exactly when no sleeping thread is lost.
-/

namespace Miosix

/-! ## The kernel -/

/-- An entry of the sleeping list. Only a context switch record has no thread. -/
structure SleepData (T : Type) where
  p : Option T
  wakeupTime : ℤ
deriving DecidableEq

/-- What the timer interrupt reads and writes of the kernel. -/
structure SleepState (T P : Type) where
  sleepingList : List (SleepData T)
  sleepFlag : T → Bool
  priority : T → P
  cur : T
  nextPreemption : ℤ
  kernelRunning : ℕ
  pendingWakeup : Bool

namespace SleepState

variable {T P : Type} [DecidableEq T] [LT P] [DecidableLT P]

def irqSetSleep (k : SleepState T P) (t : T) (sleeping : Bool) : SleepState T P :=
  { k with sleepFlag := Function.update k.sleepFlag t sleeping }

/-- Put a thread to sleep. -/
def irqAddToSleepingList (k : SleepState T P) (t : T) (wakeupTime : ℤ) : SleepState T P :=
  let k := k.irqSetSleep t true
  let before := fun y : SleepData T => decide (y.wakeupTime < wakeupTime)
  if ∀ y ∈ k.sleepingList.head?, wakeupTime ≤ y.wakeupTime then
    { k with sleepingList := ⟨some t, wakeupTime⟩ :: k.sleepingList }
  else
    { k with
      sleepingList := k.sleepingList.takeWhile before ++
        ⟨some t, wakeupTime⟩ :: k.sleepingList.dropWhile before }

/-- The loop of `irqWakeThreads`: what stays in the list, and whether a thread that was woken has a
higher priority than the current one. -/
def wakeLoop (currentTime : ℤ) :
    List (SleepData T) → SleepState T P → List (SleepData T) × Bool × SleepState T P
  | [], k => ([], false, k)
  | x :: l, k =>
    if currentTime < x.wakeupTime then (x :: l, false, k)
    else
      match x.p with
      | none =>
        let (rest, result, k) := wakeLoop currentTime l k
        (x :: rest, result, k)
      | some t =>
        let k := k.irqSetSleep t false
        let higher := decide (k.priority k.cur < k.priority t)
        let (rest, result, k) := wakeLoop currentTime l k
        (rest, higher || result, k)

/-- Wake the threads whose time has come. -/
def irqWakeThreads (currentTime : ℤ) (k : SleepState T P) : Bool × SleepState T P :=
  if k.sleepingList.isEmpty then (false, k)
  else
    let (rest, result, k) := wakeLoop currentTime k.sleepingList k
    (result, { k with sleepingList := rest })

/-- The wakeup time of the first sleeping thread, if any. -/
def firstWakeupInList (k : SleepState T P) : ℤ :=
  match k.sleepingList with
  | [] => 9223372036854775807
  | x :: _ => x.wakeupTime

end SleepState

namespace TimerAdapter

variable {T P : Type} [DecidableEq T] [LT P] [DecidableLT P] (bits quirkAdvance : ℕ)

def setOs {ω : Type} (s : TimerAdapter ω) (os : ω) : TimerAdapter ω := { s with os := os }

def irqGetTime {ω : Type} (s : TimerAdapter ω) : ℤ × TimerAdapter ω :=
  let (tick, s) := s.irqGetTimeTick bits
  (s.tc.tick2ns tick, s)

/-- Schedule the next interrupt at the first wakeup, or at the end of the time slice. -/
def irqSetNextPreemption (slice : Option ℤ) (s : TimerAdapter (SleepState T P)) :
    TimerAdapter (SleepState T P) :=
  match slice with
  | none =>
    let next := s.os.firstWakeupInList
    (s.setOs { s.os with nextPreemption := next }).irqSetIrqNs bits quirkAdvance next
  | some slice =>
    let first := s.os.firstWakeupInList
    let (now, s) := s.irqGetTime bits
    let next := min first (now + slice)
    (s.setOs { s.os with nextPreemption := next }).irqSetIrqNs bits quirkAdvance next

/-- Switch to the thread that the scheduler selects, with its time slice if it has one. -/
def irqFindNextThread (select : SleepState T P → T × Option ℤ) (s : TimerAdapter (SleepState T P)) :
    TimerAdapter (SleepState T P) :=
  if s.os.kernelRunning ≠ 0 then s
  else
    let (t, slice) := select s.os
    (s.setOs { s.os with cur := t }).irqSetNextPreemption bits quirkAdvance slice

/-- What the kernel does at a timer interrupt. -/
def irqTimerInterrupt (select : SleepState T P → T × Option ℤ) (currentTime : ℤ)
    (s : TimerAdapter (SleepState T P)) : TimerAdapter (SleepState T P) :=
  let (hptw, os) := s.os.irqWakeThreads currentTime
  let s := s.setOs os
  if s.os.nextPreemption ≤ currentTime || hptw then
    let s := s.irqFindNextThread bits quirkAdvance select
    if s.os.kernelRunning ≠ 0 then s.setOs { s.os with pendingWakeup := true } else s
  else s

end TimerAdapter

/-! ## Which threads are woken -/

namespace SleepState

variable {T P : Type}

/-- The sleeping list is in order of wakeup time. -/
def Sorted (l : List (SleepData T)) : Prop := l.Pairwise fun x y => x.wakeupTime ≤ y.wakeupTime

/-- Every thread in an ordered list wakes up no earlier than the first one. -/
theorem Sorted.le_of_mem {x : SleepData T} {l : List (SleepData T)} (h : Sorted (x :: l))
    {y : SleepData T} (hy : y ∈ x :: l) : x.wakeupTime ≤ y.wakeupTime := by
  rcases List.mem_cons.mp hy with rfl | hy
  · exact le_rfl
  · exact List.rel_of_pairwise_cons h hy

/-- Inserting a thread before the first one that does not wake up earlier. -/
theorem Sorted.insert {l : List (SleepData T)} (h : Sorted l) (x : SleepData T) :
    Sorted (l.takeWhile (fun y => decide (y.wakeupTime < x.wakeupTime)) ++
      x :: l.dropWhile (fun y => decide (y.wakeupTime < x.wakeupTime))) := by
  induction l with
  | nil => exact List.pairwise_singleton _ _
  | cons y l ih =>
    by_cases hlt : y.wakeupTime < x.wakeupTime
    · rw [List.takeWhile_cons_of_pos (by simpa using hlt),
        List.dropWhile_cons_of_pos (by simpa using hlt), List.cons_append]
      refine List.pairwise_cons.mpr ⟨fun z hz => ?_, ih h.of_cons⟩
      have hz' : z = x ∨ z ∈ l := by
        rw [List.mem_append, List.mem_cons] at hz
        rcases hz with hz | rfl | hz
        · exact .inr ((List.takeWhile_subset _) hz)
        · exact .inl rfl
        · exact .inr ((List.dropWhile_subset _) hz)
      rcases hz' with rfl | hz'
      · exact hlt.le
      · exact h.le_of_mem (List.mem_cons_of_mem _ hz')
    · rw [List.takeWhile_cons_of_neg (by simpa using hlt),
        List.dropWhile_cons_of_neg (by simpa using hlt), List.nil_append]
      exact List.pairwise_cons.mpr ⟨fun z hz => (not_lt.mp hlt).trans (h.le_of_mem hz), h⟩

/-- Putting a thread to sleep keeps the list in order. -/
theorem irqAddToSleepingList_sorted [DecidableEq T] (k : SleepState T P) (t : T) (wakeupTime : ℤ)
    (h : Sorted k.sleepingList) : Sorted (k.irqAddToSleepingList t wakeupTime).sleepingList := by
  unfold irqAddToSleepingList
  dsimp only [irqSetSleep]
  split_ifs with hfirst
  · cases hl : k.sleepingList with
    | nil => exact List.pairwise_singleton _ _
    | cons y l =>
      rw [hl] at h hfirst
      refine List.pairwise_cons.mpr ⟨fun z hz => ?_, h⟩
      exact (hfirst y rfl).trans (h.le_of_mem hz)
  · exact h.insert ⟨some t, wakeupTime⟩

variable [DecidableEq T] [LT P] [DecidableLT P]

/-- No flag is set by the loop. -/
theorem sleepFlag_wakeLoop (currentTime : ℤ) (l : List (SleepData T)) (k : SleepState T P) (t : T)
    (h : k.sleepFlag t = false) : (wakeLoop currentTime l k).2.2.sleepFlag t = false := by
  induction l generalizing k with
  | nil => exact h
  | cons x l ih =>
    unfold wakeLoop
    split_ifs
    · exact h
    · split
      · exact ih k h
      · refine ih _ ?_
        simp only [irqSetSleep, Function.update_apply, h, ite_self]

/-- What stays in the list is not due. -/
theorem lt_of_mem_wakeLoop {currentTime : ℤ} {l : List (SleepData T)} {k : SleepState T P}
    (hl : Sorted l) {x : SleepData T} (hx : x ∈ (wakeLoop currentTime l k).1) (hp : x.p ≠ none) :
    currentTime < x.wakeupTime := by
  induction l generalizing k with
  | nil => cases hx
  | cons y l ih =>
    unfold wakeLoop at hx
    split_ifs at hx with hy
    · exact hy.trans_le (hl.le_of_mem hx)
    · split at hx
      · rename_i hnone
        rcases List.mem_cons.mp hx with rfl | hx
        · exact absurd hnone hp
        · exact ih hl.of_cons hx
      · exact ih hl.of_cons hx

/-- **The threads that are due** are woken. -/
theorem sleepFlag_wakeLoop_due {currentTime : ℤ} {l : List (SleepData T)} {k : SleepState T P}
    (hl : Sorted l) {x : SleepData T} (hx : x ∈ l) {t : T} (ht : x.p = some t)
    (hdue : x.wakeupTime ≤ currentTime) :
    (wakeLoop currentTime l k).2.2.sleepFlag t = false := by
  induction l generalizing k with
  | nil => cases hx
  | cons y l ih =>
    unfold wakeLoop
    have hy := hl.le_of_mem hx
    rw [if_neg (by omega)]
    rcases List.mem_cons.mp hx with rfl | hx
    · simp only [ht]
      exact sleepFlag_wakeLoop _ _ _ _ (by simp [irqSetSleep])
    · split
      · exact ih hl.of_cons hx
      · exact ih hl.of_cons hx

/-- Nothing happens before the first wakeup time. -/
theorem wakeLoop_early {currentTime : ℤ} {x : SleepData T} {l : List (SleepData T)}
    {k : SleepState T P} (h : currentTime < x.wakeupTime) :
    wakeLoop currentTime (x :: l) k = (x :: l, false, k) := by
  rw [wakeLoop, if_pos h]

end SleepState

/-! ## The interrupt -/

namespace TimerAdapter

section Frame

variable {ω : Type} {bits quirkAdvance : ℕ}

theorem Waits.os_eq {s s' : TimerAdapter ω} (h : Waits bits s s') : s'.os = s.os := by
  obtain ⟨n, l, rfl⟩ := h
  rfl

theorem Waits.tc_eq {s s' : TimerAdapter ω} (h : Waits bits s s') : s'.tc = s.tc := by
  obtain ⟨n, l, rfl⟩ := h
  rfl

/-- Scheduling does not touch the kernel. -/
theorem os_irqSetIrqTick (s : TimerAdapter ω) (tick : ℕ) :
    (s.irqSetIrqTick bits quirkAdvance tick).os = s.os := by
  unfold irqSetIrqTick
  dsimp only
  split_ifs
  · exact (waits_irqGetTimeTick bits _).os_eq
  · exact (waits_irqGetTimeTick bits _).os_eq

theorem os_irqSetIrqNs (s : TimerAdapter ω) (ns : ℤ) :
    (s.irqSetIrqNs bits quirkAdvance ns).os = s.os := os_irqSetIrqTick _ _

theorem keeps_irqSetIrqNs (s : TimerAdapter ω) (ns : ℤ) :
    Keeps bits s (s.irqSetIrqNs bits quirkAdvance ns) := by
  have k : Keeps bits s { s with tc := (s.tc.ns2tick ns).2 } := (Keeps.refl s).congr rfl rfl
  exact k.trans (keeps_irqSetIrqTick _ _)

theorem keeps_setOs (bits : ℕ) (s : TimerAdapter ω) (os : ω) : Keeps bits s (s.setOs os) :=
  (Keeps.refl s).congr rfl rfl

theorem os_irqHandleOverflow (s : TimerAdapter ω) : (s.irqHandleOverflow bits).os = s.os := by
  unfold irqHandleOverflow irqGetOverflowFlag
  dsimp only
  split_ifs <;> rfl

/-- The overflow half leaves no overflow pending. -/
theorem overflowFlag_irqHandleOverflow (s : TimerAdapter ω) :
    (s.irqHandleOverflow bits).hw.overflowFlag = false := by
  unfold irqHandleOverflow irqGetOverflowFlag
  dsimp only
  split_ifs with h
  · rfl
  · simpa using h

end Frame

variable {T P : Type} (bits quirkAdvance : ℕ) (select : SleepState T P → T × Option ℤ)

theorem keeps_irqSetNextPreemption (slice : Option ℤ) (s : TimerAdapter (SleepState T P)) :
    Keeps bits s (s.irqSetNextPreemption bits quirkAdvance slice) := by
  cases slice with
  | none => exact (keeps_setOs bits s _).trans (keeps_irqSetIrqNs _ _)
  | some slice =>
    exact ((keeps_irqGetTimeTick bits s).trans (keeps_setOs bits _ _)).trans (keeps_irqSetIrqNs _ _)

theorem keeps_irqFindNextThread (s : TimerAdapter (SleepState T P)) :
    Keeps bits s (s.irqFindNextThread bits quirkAdvance select) := by
  unfold irqFindNextThread
  split_ifs
  · exact Keeps.refl s
  · exact (keeps_setOs bits s _).trans (keeps_irqSetNextPreemption bits quirkAdvance _ _)

theorem os_irqSetNextPreemption (slice : Option ℤ) (s : TimerAdapter (SleepState T P)) :
    ∃ next, (s.irqSetNextPreemption bits quirkAdvance slice).os =
      { s.os with nextPreemption := next } := by
  cases slice with
  | none => exact ⟨_, os_irqSetIrqNs _ _⟩
  | some slice =>
    have h : (s.irqGetTime bits).2.os = s.os := (waits_irqGetTimeTick bits s).os_eq
    simp only [irqSetNextPreemption]
    generalize s.irqGetTime bits = r at h ⊢
    refine ⟨min s.os.firstWakeupInList (r.1 + slice), ?_⟩
    rw [os_irqSetIrqNs, setOs, h]

/-- Switching threads does not change who sleeps. -/
theorem sleepers_irqFindNextThread (s : TimerAdapter (SleepState T P)) :
    (s.irqFindNextThread bits quirkAdvance select).os.sleepingList = s.os.sleepingList ∧
      (s.irqFindNextThread bits quirkAdvance select).os.sleepFlag = s.os.sleepFlag := by
  unfold irqFindNextThread
  split_ifs
  · exact ⟨rfl, rfl⟩
  · obtain ⟨next, h⟩ := os_irqSetNextPreemption bits quirkAdvance (select s.os).2
      (s.setOs { s.os with cur := (select s.os).1 })
    dsimp only
    rw [h]
    exact ⟨rfl, rfl⟩

variable [DecidableEq T] [LT P] [DecidableLT P]

theorem keeps_irqTimerInterrupt (currentTime : ℤ) (s : TimerAdapter (SleepState T P)) :
    Keeps bits s (s.irqTimerInterrupt bits quirkAdvance select currentTime) := by
  have k0 := keeps_setOs bits s (s.os.irqWakeThreads currentTime).2
  have k1 := k0.trans (keeps_irqFindNextThread bits quirkAdvance select _)
  unfold irqTimerInterrupt
  dsimp only
  split_ifs
  · exact k1.trans (keeps_setOs bits _ _)
  · exact k1
  · exact k0

theorem sleepers_irqTimerInterrupt (currentTime : ℤ) (s : TimerAdapter (SleepState T P)) :
    (s.irqTimerInterrupt bits quirkAdvance select currentTime).os.sleepingList =
        (s.os.irqWakeThreads currentTime).2.sleepingList ∧
      (s.irqTimerInterrupt bits quirkAdvance select currentTime).os.sleepFlag =
        (s.os.irqWakeThreads currentTime).2.sleepFlag := by
  unfold irqTimerInterrupt
  dsimp only
  split_ifs
  · exact sleepers_irqFindNextThread bits quirkAdvance select (s.setOs (s.os.irqWakeThreads currentTime).2)
  · exact sleepers_irqFindNextThread bits quirkAdvance select (s.setOs (s.os.irqWakeThreads currentTime).2)
  · exact ⟨rfl, rfl⟩

/-- **An interrupt in time** wakes every thread that is due. -/
theorem irqTimerInterrupt_due {currentTime : ℤ} {s : TimerAdapter (SleepState T P)}
    (hs : SleepState.Sorted s.os.sleepingList) {x : SleepData T} (hx : x ∈ s.os.sleepingList)
    {t : T} (ht : x.p = some t) (hdue : x.wakeupTime ≤ currentTime) :
    x ∉ (s.irqTimerInterrupt bits quirkAdvance select currentTime).os.sleepingList ∧
      (s.irqTimerInterrupt bits quirkAdvance select currentTime).os.sleepFlag t = false := by
  obtain ⟨h1, h2⟩ := sleepers_irqTimerInterrupt bits quirkAdvance select currentTime s
  rw [h1, h2]
  have hne : s.os.sleepingList.isEmpty = false := by
    rw [List.isEmpty_eq_false_iff]
    exact List.ne_nil_of_mem hx
  unfold SleepState.irqWakeThreads
  rw [hne]
  refine ⟨fun hmem => ?_, SleepState.sleepFlag_wakeLoop_due hs hx ht hdue⟩
  have := SleepState.lt_of_mem_wakeLoop hs hmem (by rw [ht]; simp)
  omega

/-- **An interrupt that comes too early** wakes nobody and schedules nothing. -/
theorem irqTimerInterrupt_early {currentTime : ℤ} {s : TimerAdapter (SleepState T P)}
    {x : SleepData T} {l : List (SleepData T)} (hl : s.os.sleepingList = x :: l)
    (hx : currentTime < x.wakeupTime) (hnext : currentTime < s.os.nextPreemption) :
    s.irqTimerInterrupt bits quirkAdvance select currentTime = s := by
  have hw : s.os.irqWakeThreads currentTime = (false, s.os) := by
    have he := SleepState.wakeLoop_early (l := l) (k := s.os) hx
    rw [← hl] at he
    have hne : s.os.sleepingList.isEmpty = false := by rw [hl]; rfl
    unfold SleepState.irqWakeThreads
    rw [hne, he]
    rfl
  unfold irqTimerInterrupt
  rw [hw]
  have hn : decide (s.os.nextPreemption ≤ currentTime) = false := by simpa using hnext
  dsimp only [setOs]
  rw [hn]
  rfl

/-! ## No sleeping thread is lost -/

/-- A forced interrupt is acknowledged on entry to the interrupt routine. -/
def irqEntry {ω : Type} (s : TimerAdapter ω) : TimerAdapter ω :=
  s.setHw fun hw => { hw with forced := false }

/-- The interrupt routine has just cleared the match flag, and is about to read the time. -/
def irqCleared {ω : Type} (bits : ℕ) (s : TimerAdapter ω) : TimerAdapter ω :=
  (s.irqEntry.wait bits).irqClearMatchFlag bits

/-- `n` ticks pass, and `delays` is what passes during the accesses to come. -/
def later {ω : Type} (bits n : ℕ) (delays : List ℕ) (s : TimerAdapter ω) : TimerAdapter ω :=
  { s with hw := s.hw.elapse bits n, delays := delays }

/-- The threads that sleep until `ns` in `s` are awake in `s'`, or another interrupt is to come. -/
def KeepsSleepers (ns : ℤ) (s s' : TimerAdapter (SleepState T P)) : Prop :=
  (∀ x ∈ s.os.sleepingList, x.wakeupTime = ns → ∀ t, x.p = some t →
      x ∉ s'.os.sleepingList ∧ s'.os.sleepFlag t = false) ∨
    s'.hw.now < s'.upperIrqTick ||| s'.hw.matchReg ∨ s'.hw.pending = true

theorem waits_later {ω : Type} (n : ℕ) (delays : List ℕ) (s : TimerAdapter ω) :
    Waits bits s (s.later bits n delays) := ⟨n, delays, rfl⟩

theorem irqHandler_snd {ω : Type} (f : ℤ → TimerAdapter ω → TimerAdapter ω) (s : TimerAdapter ω) :
    (s.irqHandler bits f).2 = (s.irqEntry.irqHandleMatch bits f).2.irqHandleOverflow bits := rfl

section Handler

variable {s : TimerAdapter (SleepState T P)} (hsync : s.hw.Synced bits s.upperTimeTick)
  (hlost : (s.irqHandler bits (irqTimerInterrupt bits quirkAdvance select)).2.hw.lost = false)
  (hentry : (s.irqEntry.wait bits).hw.matchFlag = true ∨ s.lateIrq = true)
  (htick : s.upperIrqTick ||| s.hw.matchReg ≤ ((s.irqCleared bits).irqGetTimeTick bits).1)
include hsync hlost hentry htick

/-- The interrupt routine finds its tick reached, and calls the kernel in a state `s₅`. -/
theorem irqHandler_reached :
    ∃ s₅ : TimerAdapter (SleepState T P), s₅.os = s.os ∧ s₅.upperIrqTick = s.upperIrqTick ∧
      s₅.hw.matchReg = s.hw.matchReg ∧ s₅.hw.forced = false ∧
      (s.irqCleared bits).hw.now ≤ s₅.hw.now ∧
      ((s.irqCleared bits).irqGetTimeTick bits).1 ≤ s₅.hw.now ∧
      (s₅.hw.matchFlag = true ↔
        ∃ m, (s.irqCleared bits).hw.now < m ∧ m ≤ s₅.hw.now ∧ m % 2 ^ bits = s.hw.matchReg) ∧
      (s.irqHandler bits (irqTimerInterrupt bits quirkAdvance select)).2 =
        (irqTimerInterrupt bits quirkAdvance select
          (s.tc.tick2ns ((s.irqCleared bits).irqGetTimeTick bits).1) s₅).irqHandleOverflow bits := by
  have kf := keeps_irqTimerInterrupt bits quirkAdvance select
  have k1 : Keeps bits s s.irqEntry := keeps_setHw s fun _ => ⟨rfl, rfl, rfl⟩
  have hl := (keeps_irqHandleOverflow bits _).lost hlost
  have hs1 := k1.synced ((keeps_irqHandleMatch kf s.irqEntry).1.lost hl) hsync
  rcases irqHandleMatch_read kf hs1 hl with ⟨hm, hlate, -⟩ | ⟨s₂, s₄, tick, hread, h⟩
  · rcases hentry with h | h
    · rw [hm] at h; cases h
    · rw [show s.lateIrq = false from hlate] at h; cases h
  · have hs₂ : s₂ = s.irqCleared bits := hread.clear
    subst hs₂
    have ht := hread.tick_eq
    subst ht
    have q := hread.waits.quiet
    have hreg : (s.irqCleared bits).hw.matchReg = s.hw.matchReg := hread.matchReg_eq
    have htc : s₄.tc = s.tc := hread.waits.tc_eq
    refine ⟨{ s₄ with lateIrq := false }, hread.waits.os_eq, q.upperIrqTick_eq,
      q.matchReg_eq.trans hreg, q.forced_eq.trans hread.forced_eq, q.now_le, hread.le_now, ?_, ?_⟩
    · have hclear : (s.irqCleared bits).hw.matchFlag = false := rfl
      have := q.matchFlag_iff
      rw [hclear, hreg] at this
      simpa using this
    · rcases h with ⟨hlt, -, -⟩ | ⟨-, h⟩
      · exact absurd htick (not_le.mpr hlt)
      · rw [irqHandler_snd, h, htc]

/-- In time: the threads that are due are awake. -/
theorem irqHandler_inTime (hsorted : SleepState.Sorted s.os.sleepingList) {x : SleepData T}
    (hx : x ∈ s.os.sleepingList) {t : T} (ht : x.p = some t)
    (hdue : x.wakeupTime ≤ s.tc.tick2ns ((s.irqCleared bits).irqGetTimeTick bits).1) :
    x ∉ (s.irqHandler bits (irqTimerInterrupt bits quirkAdvance select)).2.os.sleepingList ∧
      (s.irqHandler bits (irqTimerInterrupt bits quirkAdvance select)).2.os.sleepFlag t = false := by
  obtain ⟨s₅, hos, -, -, -, -, -, -, h⟩ :=
    irqHandler_reached bits quirkAdvance select hsync hlost hentry htick
  rw [h, os_irqHandleOverflow]
  rw [← hos] at hsorted hx
  exact irqTimerInterrupt_due bits quirkAdvance select hsorted hx ht hdue

/-- Too early: nothing changes, and only a new match can make the interrupt pending again. -/
theorem irqHandler_tooEarly {x : SleepData T} {l : List (SleepData T)}
    (hl : s.os.sleepingList = x :: l)
    (hx : s.tc.tick2ns ((s.irqCleared bits).irqGetTimeTick bits).1 < x.wakeupTime)
    (hnext : s.tc.tick2ns ((s.irqCleared bits).irqGetTimeTick bits).1 < s.os.nextPreemption)
    {s' : TimerAdapter (SleepState T P)}
    (hs' : s' = (s.irqHandler bits (irqTimerInterrupt bits quirkAdvance select)).2) :
    s'.os = s.os ∧ s'.upperIrqTick ||| s'.hw.matchReg ≤ s'.hw.now ∧
      (s'.hw.pending = true ↔
        ∃ m, (s.irqCleared bits).hw.now < m ∧ m ≤ s'.hw.now ∧ m % 2 ^ bits = s.hw.matchReg) := by
  obtain ⟨s₅, hos, hup, hreg, hforced, hclear, hnow, hflag, h⟩ :=
    irqHandler_reached bits quirkAdvance select hsync hlost hentry htick
  rw [irqTimerInterrupt_early bits quirkAdvance select (hos ▸ hl) hx (hos ▸ hnext), ← hs'] at h
  have q : Quiet bits s₅ s' := h ▸ quiet_irqHandleOverflow bits s₅
  have hover : s'.hw.overflowFlag = false := h ▸ overflowFlag_irqHandleOverflow s₅
  have hforced' : s'.hw.forced = false := q.forced_eq.trans hforced
  refine ⟨?_, ?_, ?_⟩
  · rw [h, os_irqHandleOverflow, hos]
  · rw [q.upperIrqTick_eq, q.matchReg_eq, hup, hreg]
    exact htick.trans (hnow.trans q.now_le)
  · have hn := q.now_le
    simp only [HwTimer.pending, hover, hforced', Bool.or_false, q.matchFlag_iff, hflag, hreg]
    constructor
    · rintro (⟨m, h0, h1, h2⟩ | ⟨m, h0, h1, h2⟩)
      · exact ⟨m, h0, h1.trans hn, h2⟩
      · exact ⟨m, hclear.trans_lt h0, h1, h2⟩
    · rintro ⟨m, h0, h1, h2⟩
      rcases Nat.lt_or_ge s₅.hw.now m with hlt | hle
      · exact .inr ⟨m, hlt, h1, h2⟩
      · exact .inl ⟨m, h0, hle, h2⟩

end Handler

/-- **When no sleeping thread is lost.** The interrupt is scheduled for the first wakeup time `ns`, and
the interrupt routine finds its tick reached. Then the threads that sleep until `ns` are woken, or
another interrupt is to come, if and only if the time that is read is not before `ns` once converted
back, or the counter matches again before the routine ends. -/
theorem irqHandler_keepsSleepers_iff {ns : ℤ} {n : ℕ} {delays : List ℕ} {t : T}
    {l : List (SleepData T)} {s₀ s s' : TimerAdapter (SleepState T P)}
    (hs : s = (s₀.irqSetIrqNs bits quirkAdvance ns).later bits n delays)
    (hs' : s' = (s.irqHandler bits (irqTimerInterrupt bits quirkAdvance select)).2)
    (hsync : s₀.hw.Synced bits s₀.upperTimeTick) (hlost : s'.hw.lost = false)
    (hlist : s₀.os.sleepingList = ⟨some t, ns⟩ :: l)
    (hsorted : SleepState.Sorted s₀.os.sleepingList) (hnext : s₀.os.nextPreemption = ns)
    (hentry : (s.irqEntry.wait bits).hw.matchFlag = true ∨ s.lateIrq = true)
    (htick : s.upperIrqTick ||| s.hw.matchReg ≤ ((s.irqCleared bits).irqGetTimeTick bits).1) :
    KeepsSleepers ns s s' ↔
      ns ≤ s.tc.tick2ns ((s.irqCleared bits).irqGetTimeTick bits).1 ∨
        ∃ m, (s.irqCleared bits).hw.now < m ∧ m ≤ s'.hw.now ∧ m % 2 ^ bits = s.hw.matchReg := by
  have w : Waits bits (s₀.irqSetIrqNs bits quirkAdvance ns) s := hs ▸ waits_later bits n delays _
  have hos : s.os = s₀.os := w.os_eq.trans (os_irqSetIrqNs s₀ ns)
  have k1 : Keeps bits s s' :=
    hs' ▸ (keeps_irqHandler (keeps_irqTimerInterrupt bits quirkAdvance select) s).1
  have hs1 := ((keeps_irqSetIrqNs s₀ ns).trans w.keeps).synced (k1.lost hlost) hsync
  by_cases hin : ns ≤ s.tc.tick2ns ((s.irqCleared bits).irqGetTimeTick bits).1
  · refine iff_of_true (.inl fun x hx hns t ht => ?_) (.inl hin)
    subst hs'
    exact irqHandler_inTime bits quirkAdvance select hs1 hlost hentry htick (hos ▸ hsorted) hx ht
      (hns ▸ hin)
  · have hlt := not_le.mp hin
    obtain ⟨hsame, harmed, hpend⟩ := irqHandler_tooEarly bits quirkAdvance select hs1 (hs' ▸ hlost)
      hentry htick (hos ▸ hlist) hlt (by rwa [hos, hnext]) hs'
    have hmem : (⟨some t, ns⟩ : SleepData T) ∈ s.os.sleepingList := by
      rw [hos, hlist]
      exact List.mem_cons_self
    rw [← hpend, KeepsSleepers]
    constructor
    · rintro (hwoken | hlater | hp)
      · exact absurd (hsame ▸ hmem) (hwoken _ hmem rfl t rfl).1
      · omega
      · exact .inr hp
    · rintro (hcon | hp)
      · exact absurd hcon hin
      · exact .inr (.inr hp)

/-- A 32 bit timer at 1 MHz, with the converter that the constructor builds. The thread 1 sleeps until
100.5 μs, and the idle thread 0 runs. -/
def sleeper : TimerAdapter (SleepState ℕ ℕ) where
  hw := ⟨50, 0, false, false, false, false⟩
  delays := []
  upperTimeTick := 0
  upperIrqTick := 0
  lateIrq := false
  tc := ⟨⟨1000, 0, TimeConversion.thousand_lt_u32, TimeConversion.u32_pos⟩, ⟨0, 4294967, TimeConversion.u32_pos, TimeConversion.u32_div_thousand_lt⟩, 4000000000, 0, 0⟩
  os :=
    { sleepingList := [⟨some 1, 100500⟩], sleepFlag := fun t => t == 1, priority := fun _ => 0,
      cur := 0, nextPreemption := 100500, kernelRunning := 0, pendingWakeup := false }

/-- The interrupt of `sleeper` is scheduled, and `n` ticks pass. -/
def sleeperAfter (n : ℕ) : TimerAdapter (SleepState ℕ ℕ) :=
  (sleeper.irqSetIrqNs 32 0 100500).later 32 n []

/-- The interrupt routine runs, with a scheduler that always selects the thread 1. -/
def sleeperServed (n : ℕ) : TimerAdapter (SleepState ℕ ℕ) :=
  ((sleeperAfter n).irqHandler 32 (irqTimerInterrupt 32 0 fun _ => (1, some 1000000))).2

/-- At tick 101 the thread is woken. -/
theorem irqHandler_keepsSleepers_iff_at101 :
    KeepsSleepers 100500 (sleeperAfter 51) (sleeperServed 51) := by
  have harmed : sleeperAfter 51 = (sleeper.irqSetIrqNs 32 0 100500).later 32 51 [] := rfl
  have hlist : sleeper.os.sleepingList = [⟨some 1, 100500⟩] := rfl
  refine (irqHandler_keepsSleepers_iff 32 0 (fun _ => (1, some 1000000)) harmed rfl ?_ ?_ hlist ?_ rfl
    ?_ ?_).mpr (.inl ?_)
  · simp [HwTimer.Synced, Lib.Synced, sleeper]
  · decide +kernel
  · exact List.pairwise_singleton _ _
  · decide +kernel
  · decide +kernel
  · decide +kernel

/-- At tick 100 it is not: the tick is the scheduled one, and the thread stays in the list with no
interrupt pending and none scheduled later. -/
theorem irqHandler_loses_sleeper :
    sleeper.hw.Synced 32 sleeper.upperTimeTick ∧
      ((sleeperAfter 50).irqEntry.wait 32).hw.matchFlag = true ∧
      (sleeperAfter 50).upperIrqTick ||| (sleeperAfter 50).hw.matchReg ≤
        (((sleeperAfter 50).irqCleared 32).irqGetTimeTick 32).1 ∧
      (sleeperServed 50).hw.lost = false ∧
      ¬ KeepsSleepers 100500 (sleeperAfter 50) (sleeperServed 50) := by
  refine ⟨by simp [HwTimer.Synced, Lib.Synced, sleeper], by decide +kernel, by decide +kernel, by decide +kernel, ?_⟩
  rintro (h | h | h)
  · have h1 := (h ⟨some 1, 100500⟩ (by decide +kernel) rfl 1 rfl).1
    exact h1 (by decide +kernel)
  · exact absurd h (by decide +kernel)
  · exact absurd h (by decide +kernel)

end TimerAdapter

end Miosix
