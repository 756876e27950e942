import MiosixKernel.Sched.Model
import Mathlib.Data.Int.Basic

/-!
# Pausing the kernel

While the kernel is paused the scheduler does nothing, so an interrupt that wants to preempt the
running thread has to leave a trace for `restartKernel`. The timer interrupt does, through
`pendingWakeup`; the device interrupts do not. `restartKernel` is not atomic: interrupts come between
the decrement and the test of the flag, and before the yield.

* `PauseSystem`: the scheduler, the flag, where each thread is in `restartKernel`, and the history;
* `timerInterrupt`, `deviceInterrupt`, `step`, `run`: interleavings;
* `Honoured`: what a return of the outermost `restartKernel` promises;
* **`run_honoured`**: it keeps it if in every pause with a request the timer interrupt requests too.
-/

namespace Miosix

open Lib PriorityScheduler

/-- What happened to a call of `restartKernel`. -/
structure Restart where
  /-- The value of `kernel_running` before the decrement. -/
  old : ℕ
  /-- Interrupts were enabled, that is `interruptDisableNesting` was zero. -/
  enabled : Bool
  /-- An interrupt requested a reschedule during the pause. -/
  requested : Bool
  /-- A scheduling decision was made after the decrement. -/
  decided : Bool
deriving DecidableEq

/-- Where a thread is in `restartKernel`. -/
inductive RestartPc where
  | outside
  | decremented (r : Restart)
  | yielding (r : Restart)
  | returning (r : Restart)
deriving DecidableEq

/-- A scheduling decision was made. -/
def RestartPc.decide : RestartPc → RestartPc
  | .outside => .outside
  | .decremented r => .decremented { r with decided := true }
  | .yielding r => .yielding { r with decided := true }
  | .returning r => .returning { r with decided := true }

structure PauseSystem (T : Type) where
  sched : PriorityScheduler T
  pendingWakeup : Bool
  interruptDisableNesting : ℕ
  pc : T → RestartPc
  /-- An interrupt requested a reschedule in this pause. -/
  requested : Bool
  /-- The timer interrupt did. -/
  byTimer : Bool
  /-- The calls of `restartKernel` that returned. -/
  returned : List Restart

namespace PauseSystem

variable {T : Type} [DecidableEq T]

/-! ## Interrupts -/

/-- The priority of the idle thread is below all others. -/
def priority (s : PriorityScheduler T) (t : T) : Except Fault ℤ :=
  if t = s.idle then pure (-1) else do pure (← s.load t).priority

/-- Clear some flags of a thread, and compare its priority with that of the running one. -/
def wakeThread (mask : ℕ) (s : PriorityScheduler T) (t : T) :
    Except Fault (PriorityScheduler T × Bool) := do
  let s ← s.modify t fun o => { o with flags := o.flags &&& (0xffff ^^^ mask) }
  pure (s, decide ((← priority s s.cur) < (← priority s t)))

/-- Wake the threads whose time has come. -/
def irqWakeThreads (s : PriorityScheduler T) : List T → Except Fault (PriorityScheduler T × Bool)
  | [] => pure (s, false)
  | t :: ts => do
    let (s, higher) ← wakeThread 2 s t
    let (s, result) ← irqWakeThreads s ts
    pure (s, higher || result)

/-- A call of the scheduler: a decision is made if the kernel is not paused. -/
def find (fuel priorityMax : ℕ) (s : PauseSystem T) : Except Fault (PauseSystem T) := do
  let sched ← irqFindNextThread fuel priorityMax s.sched
  pure { s with
    sched := sched
    pc := if s.sched.kernelRunning ≠ 0 then s.pc else fun t => (s.pc t).decide }

/-- Remember that an interrupt requested a reschedule. -/
def note (s : PauseSystem T) (byTimer : Bool) : PauseSystem T :=
  if s.sched.kernelRunning ≠ 0 then
    { s with requested := true, byTimer := s.byTimer || byTimer }
  else s

/-- `preempt` is whether the time slice is over. -/
def timerInterrupt (fuel priorityMax : ℕ) (s : PauseSystem T) (woken : List T) (preempt : Bool) :
    Except Fault (PauseSystem T) := do
  let (sched, hptw) ← irqWakeThreads s.sched woken
  let s := { s with sched := sched }
  if preempt || hptw then
    let s ← (s.note true).find fuel priorityMax
    if s.sched.kernelRunning ≠ 0 then pure { s with pendingWakeup := true } else pure s
  else pure s

/-- The interrupt of a device such as the serial port, for which a thread waits. -/
def deviceInterrupt (fuel priorityMax : ℕ) (s : PauseSystem T) (waiting : T) :
    Except Fault (PauseSystem T) := do
  let (sched, higher) ← wakeThread 1 s.sched waiting
  let s := { s with sched := sched }
  if higher then (s.note false).find fuel priorityMax else pure s

/-! ## Threads -/

def setPc (s : PauseSystem T) (pc : RestartPc) : PauseSystem T :=
  { s with pc := Function.update s.pc s.sched.cur pc }

/-- The first pause level starts a new history of requests. -/
def pauseKernel (s : PauseSystem T) : PauseSystem T :=
  let old := s.sched.kernelRunning
  { s with
    sched := { s.sched with kernelRunning := old + 1 }
    requested := if old = 0 then false else s.requested
    byTimer := if old = 0 then false else s.byTimer }

/-- The atomic decrement. -/
def decrement (s : PauseSystem T) : PauseSystem T :=
  let old := s.sched.kernelRunning
  { s with
    sched := { s.sched with kernelRunning := old - 1 }
    pc := Function.update s.pc s.sched.cur
      (.decremented ⟨old, s.interruptDisableNesting == 0, s.requested, false⟩) }

/-- If we missed preemptions yield immediately. -/
def testPending (s : PauseSystem T) (r : Restart) : PauseSystem T :=
  if s.interruptDisableNesting == 0 && (r.old == 1 && s.pendingWakeup) then
    { s.setPc (.yielding r) with pendingWakeup := false }
  else s.setPc (.returning r)

/-! ## Interleavings -/

inductive PauseEvent (T : Type) where
  /-- The running thread makes its next step in `restartKernel`. -/
  | restart
  | pauseKernel
  | restartKernel
  | yield
  | disableInterrupts
  | enableInterrupts
  | setFlags (t : T) (flags : ℕ)
  | timer (woken : List T) (preempt : Bool)
  | device (waiting : T)

/-- The next step of the running thread in `restartKernel`. -/
def restartStep (fuel priorityMax : ℕ) (s : PauseSystem T) : Except Fault (Option (PauseSystem T)) :=
  match s.pc s.sched.cur with
  | .outside => pure none
  | .decremented r => pure (some (s.testPending r))
  | .yielding r => do
    let s ← (s.setPc (.returning r)).find fuel priorityMax
    pure (some s)
  | .returning r => pure (some { s.setPc .outside with returned := s.returned ++ [r] })

/-- One step, if it can happen. The other events of the running thread happen outside
`restartKernel`, and interrupts while they are enabled. `errorHandler` does not return. -/
def step (fuel priorityMax : ℕ) (s : PauseSystem T) :
    PauseEvent T → Except Fault (Option (PauseSystem T))
  | .restart => s.restartStep fuel priorityMax
  | .pauseKernel =>
    if s.pc s.sched.cur = .outside ∧ s.sched.kernelRunning < 0xff then pure (some s.pauseKernel)
    else pure none
  | .restartKernel =>
    if s.pc s.sched.cur = .outside ∧ 0 < s.sched.kernelRunning then pure (some s.decrement)
    else pure none
  | .yield =>
    if s.pc s.sched.cur = .outside then do
      let s ← s.find fuel priorityMax
      pure (some s)
    else pure none
  | .disableInterrupts =>
    if s.pc s.sched.cur = .outside then
      pure (some { s with interruptDisableNesting := s.interruptDisableNesting + 1 })
    else pure none
  | .enableInterrupts =>
    if s.pc s.sched.cur = .outside ∧ 0 < s.interruptDisableNesting then
      pure (some { s with interruptDisableNesting := s.interruptDisableNesting - 1 })
    else pure none
  | .setFlags t flags => do
    let sched ← s.sched.modify t fun o => { o with flags := flags }
    pure (some { s with sched := sched })
  | .timer woken preempt =>
    if s.interruptDisableNesting = 0 then do
      let s ← s.timerInterrupt fuel priorityMax woken preempt
      pure (some s)
    else pure none
  | .device waiting =>
    if s.interruptDisableNesting = 0 then do
      let s ← s.deviceInterrupt fuel priorityMax waiting
      pure (some s)
    else pure none

def run (fuel priorityMax : ℕ) :
    PauseSystem T → List (PauseEvent T) → Except Fault (Option (PauseSystem T))
  | s, [] => pure (some s)
  | s, e :: events => do
    match ← s.step fuel priorityMax e with
    | none => pure none
    | some s' => run fuel priorityMax s' events

/-- The kernel is not paused. -/
def init (sched : PriorityScheduler T) : PauseSystem T where
  sched := { sched with kernelRunning := 0 }
  pendingWakeup := false
  interruptDisableNesting := 0
  pc _ := .outside
  requested := false
  byTimer := false
  returned := []

/-! ## The invariant -/

/-- What the return of the outermost `restartKernel`, with interrupts enabled, promises: a decision was
made if one was requested during the pause. -/
def Honoured (r : Restart) : Prop :=
  r.old = 1 → r.enabled = true → r.requested = true → r.decided = true

/-- The thread runs, with the kernel running and interrupts enabled. -/
def Alone (s : PauseSystem T) (t : T) : Prop :=
  s.sched.cur = t ∧ s.sched.kernelRunning = 0 ∧ s.interruptDisableNesting = 0

/-- A thread in `restartKernel` has had its decision, or will have it. -/
def Pending (s : PauseSystem T) (t : T) : Prop :=
  match s.pc t with
  | .outside => True
  | .decremented r => Honoured r ∨ (s.pendingWakeup = true ∧ r.old = 1 ∧ s.Alone t)
  | .yielding r => r.decided = true ∨ s.Alone t
  | .returning r => Honoured r

/-- The thread is inside the given call of `restartKernel`. -/
def InRestart (pc : RestartPc) (r : Restart) : Prop := pc = .decremented r ∨ pc = .yielding r

/-- What holds between steps. A thread that was switched out in `restartKernel` was the outermost
one. -/
structure Inv (s : PauseSystem T) : Prop where
  level : ∀ t r, InRestart (s.pc t) r →
    (t = s.sched.cur → r.old = s.sched.kernelRunning + 1) ∧ (t ≠ s.sched.cur → r.old = 1)
  timer : s.sched.kernelRunning ≠ 0 → s.byTimer = true → s.pendingWakeup = true
  pending : ∀ t, s.Pending t
  returned : ∀ r ∈ s.returned, Honoured r

/-- The condition: if an interrupt requested a reschedule in the pause that ends, the timer interrupt
did. -/
def Meets (s : PauseSystem T) : PauseEvent T → Prop
  | .restartKernel => s.sched.kernelRunning = 1 → s.requested = true → s.byTimer = true
  | _ => True

/-- Every step of the run meets the condition where it is made. -/
def RunMeets (fuel priorityMax : ℕ) : PauseSystem T → List (PauseEvent T) → Prop
  | _, [] => True
  | s, e :: events => s.Meets e ∧
    match s.step fuel priorityMax e with
    | .ok (some s') => RunMeets fuel priorityMax s' events
    | _ => True

/-- Whatever changes, a thread that had its decision keeps it. -/
def Settled : RestartPc → Prop
  | .outside => True
  | .decremented r => Honoured r
  | .yielding r => r.decided = true
  | .returning r => Honoured r

omit [DecidableEq T] in
theorem pending_of_settled {s : PauseSystem T} {t : T} (h : Settled (s.pc t)) : s.Pending t := by
  unfold Pending
  unfold Settled at h
  cases hpc : s.pc t with
  | outside => trivial
  | decremented r => simp only [hpc] at h; exact .inl h
  | yielding r => simp only [hpc] at h; exact .inl h
  | returning r => simp only [hpc] at h; exact h

omit [DecidableEq T] in
/-- A thread that does not run, or runs outside `restartKernel`, has had its decision. -/
theorem settled_of_pending {s : PauseSystem T} {t : T} (h : s.Pending t)
    (hnot : s.pc t = .outside ∨ ¬s.Alone t) : Settled (s.pc t) := by
  unfold Pending at h
  cases hpc : s.pc t with
  | outside => trivial
  | decremented r =>
    simp only [hpc, reduceCtorEq, false_or] at h hnot
    exact h.resolve_right fun hr => hnot hr.2.2
  | yielding r =>
    simp only [hpc, reduceCtorEq, false_or] at h hnot
    exact h.resolve_right hnot
  | returning r =>
    simp only [hpc] at h
    exact h

theorem settled_decide (pc : RestartPc) : Settled pc.decide := by
  cases pc with
  | outside => trivial
  | decremented r => exact fun _ _ _ => rfl
  | yielding r => rfl
  | returning r => exact fun _ _ _ => rfl

theorem inRestart_decide {pc : RestartPc} {r : Restart} (h : InRestart pc.decide r) :
    ∃ r', InRestart pc r' ∧ r.old = r'.old := by
  cases pc with
  | outside => rcases h with h | h <;> cases h
  | decremented r' =>
    rcases h with h | h <;> cases h
    exact ⟨r', .inl rfl, rfl⟩
  | yielding r' =>
    rcases h with h | h <;> cases h
    exact ⟨r', .inr rfl, rfl⟩
  | returning r' => rcases h with h | h <;> cases h

/-! ## The scheduler and the flags -/

variable {fuel priorityMax : ℕ} {s s' : PauseSystem T}

/-- Changing a thread changes neither which one runs nor the pause level. -/
theorem modify_frame {p p' : PriorityScheduler T} {t : T} {f : Thread T → Thread T}
    (h : p.modify t f = .ok p') : p'.cur = p.cur ∧ p'.kernelRunning = p.kernelRunning := by
  obtain ⟨o, -, h⟩ := bind_eq_ok h
  cases h
  exact ⟨rfl, rfl⟩

theorem wakeThread_frame {p p' : PriorityScheduler T} {mask : ℕ} {t : T} {b : Bool}
    (h : wakeThread mask p t = .ok (p', b)) :
    p'.cur = p.cur ∧ p'.kernelRunning = p.kernelRunning := by
  obtain ⟨p₁, hmod, h⟩ := bind_eq_ok h
  obtain ⟨_, -, h⟩ := bind_eq_ok h
  obtain ⟨_, -, h⟩ := bind_eq_ok h
  cases h
  exact modify_frame hmod

theorem irqWakeThreads_frame {p p' : PriorityScheduler T} {ts : List T} {b : Bool}
    (h : irqWakeThreads p ts = .ok (p', b)) :
    p'.cur = p.cur ∧ p'.kernelRunning = p.kernelRunning := by
  induction ts generalizing p p' b with
  | nil =>
    cases h
    exact ⟨rfl, rfl⟩
  | cons t ts ih =>
    obtain ⟨⟨p₁, higher⟩, hwake, h⟩ := bind_eq_ok h
    obtain ⟨⟨p₂, result⟩, hrest, h⟩ := bind_eq_ok h
    cases h
    obtain ⟨hcur, hrun⟩ := ih hrest
    obtain ⟨hcur', hrun'⟩ := wakeThread_frame hwake
    exact ⟨hcur.trans hcur', hrun.trans hrun'⟩

theorem findFrom_kernelRunning {p p' : PriorityScheduler T} {i : ℕ}
    (h : findFrom fuel i p = .ok p') : p'.kernelRunning = p.kernelRunning := by
  induction i with
  | zero =>
    cases h
    rfl
  | succ i ih =>
    obtain ⟨found, -, h⟩ := bind_eq_ok h
    cases found with
    | some temp =>
      cases h
      rfl
    | none => exact ih h

omit [DecidableEq T] in
/-- No thread moved. -/
theorem Inv.congr (h : s.Inv) (hcur : s'.sched.cur = s.sched.cur)
    (hrun : s'.sched.kernelRunning = s.sched.kernelRunning)
    (hnest : s'.interruptDisableNesting = s.interruptDisableNesting) (hpc : s'.pc = s.pc)
    (hpend : s.pendingWakeup = true → s'.pendingWakeup = true)
    (htimer : s'.sched.kernelRunning ≠ 0 → s'.byTimer = true → s'.pendingWakeup = true)
    (hret : s'.returned = s.returned) : s'.Inv := by
  have halone : ∀ t, s.Alone t → s'.Alone t := fun t ⟨hc, hr, hn⟩ =>
    ⟨hcur.trans hc, hrun.trans hr, hnest.trans hn⟩
  refine ⟨by rw [hpc, hcur, hrun]; exact h.level, htimer, fun t => ?_, by rw [hret]; exact h.returned⟩
  have hp := h.pending t
  unfold Pending at hp ⊢
  rw [hpc]
  cases hpct : s.pc t with
  | outside => trivial
  | decremented r =>
    simp only [hpct] at hp
    exact hp.imp_right fun ⟨hw, ho, ha⟩ => ⟨hpend hw, ho, halone t ha⟩
  | yielding r =>
    simp only [hpct] at hp
    exact hp.imp_right (halone t)
  | returning r =>
    simp only [hpct] at hp
    exact hp

omit [DecidableEq T] in
/-- Nothing but the memory of the threads changed. -/
theorem Inv.congr_sched (h : s.Inv) {sched : PriorityScheduler T} (hcur : sched.cur = s.sched.cur)
    (hrun : sched.kernelRunning = s.sched.kernelRunning) : Inv { s with sched := sched } :=
  h.congr hcur hrun rfl rfl id (fun hne => h.timer (hrun ▸ hne)) rfl

/-- **A call of the scheduler** does nothing while the kernel is paused, and otherwise every thread in
`restartKernel` has its decision. -/
theorem find_cases (h : s.find fuel priorityMax = .ok s') :
    (s.sched.kernelRunning ≠ 0 ∧ s' = s) ∨
    (s.sched.kernelRunning = 0 ∧ ∃ sched, sched.kernelRunning = 0 ∧
      s' = { s with sched := sched, pc := fun t => (s.pc t).decide }) := by
  obtain ⟨sched, hfind, h⟩ := bind_eq_ok h
  unfold irqFindNextThread at hfind
  by_cases hk : s.sched.kernelRunning = 0
  · right
    simp only [hk, ne_eq, not_true, if_false] at hfind h
    cases h
    exact ⟨hk, sched, (findFrom_kernelRunning hfind).trans hk, rfl⟩
  · left
    simp only [ne_eq, hk, not_false_eq_true, if_true] at hfind h
    cases hfind
    cases h
    exact ⟨hk, rfl⟩

omit [DecidableEq T] in
/-- A decision settles every call of `restartKernel`. -/
theorem decided_inv {sched : PriorityScheduler T} (hlevel : ∀ t r, InRestart (s.pc t) r → r.old = 1)
    (hk : sched.kernelRunning = 0) (hret : ∀ r ∈ s.returned, Honoured r) :
    Inv { s with sched := sched, pc := fun t => (s.pc t).decide } := by
  refine ⟨fun t r hr => ?_, fun hne => absurd hk hne, fun t => pending_of_settled (settled_decide _),
    hret⟩
  obtain ⟨r', hr', heq⟩ := inRestart_decide hr
  have hone := hlevel t r' hr'
  exact ⟨fun _ => by rw [heq, hone]; exact congrArg (· + 1) hk.symm, fun _ => heq.trans hone⟩

omit [DecidableEq T] in
theorem Inv.level_one (h : s.Inv) (hk : s.sched.kernelRunning = 0) (t : T) (r : Restart)
    (hr : InRestart (s.pc t) r) : r.old = 1 := by
  obtain ⟨hcur, hother⟩ := h.level t r hr
  by_cases ht : t = s.sched.cur
  · rw [hcur ht, hk]
  · exact hother ht

theorem find_inv (h : s.Inv) (hfind : s.find fuel priorityMax = .ok s') : s'.Inv := by
  rcases find_cases hfind with ⟨-, rfl⟩ | ⟨hk₀, sched, hk, rfl⟩
  · exact h
  · exact decided_inv (h.level_one hk₀) hk h.returned

/-! ## Steps -/

omit [DecidableEq T] in
/-- Only the running thread can still be waiting for its decision. -/
theorem Inv.settled_of_ne (h : s.Inv) {t : T} (ht : t ≠ s.sched.cur) : Settled (s.pc t) :=
  settled_of_pending (h.pending t) (.inr fun ha => ht ha.1.symm)

omit [DecidableEq T] in
theorem Inv.settled (h : s.Inv) (hout : s.pc s.sched.cur = .outside) (t : T) : Settled (s.pc t) := by
  by_cases ht : t = s.sched.cur
  · rw [ht, hout]
    trivial
  · exact h.settled_of_ne ht

omit [DecidableEq T] in
theorem not_inRestart_outside (r : Restart) : ¬InRestart .outside r := by
  rintro (h | h) <;> cases h

/-- The running thread moves on to a point where it has had its decision, or will have it. -/
theorem inv_setPc (h : s.Inv) (pc : RestartPc) (hcur : s'.sched.cur = s.sched.cur)
    (hpc : s'.pc = Function.update s.pc s.sched.cur pc)
    (hlevel : ∀ r, InRestart pc r → r.old = s'.sched.kernelRunning + 1)
    (htimer : s'.sched.kernelRunning ≠ 0 → s'.byTimer = true → s'.pendingWakeup = true)
    (hpend : s'.Pending s.sched.cur) (hret : ∀ r ∈ s'.returned, Honoured r) : s'.Inv := by
  refine ⟨fun t r hr => ?_, htimer, fun t => ?_, hret⟩
  · rw [hpc] at hr
    rw [hcur]
    by_cases ht : t = s.sched.cur
    · subst ht
      rw [Function.update_self] at hr
      exact ⟨fun _ => hlevel r hr, fun hne => absurd rfl hne⟩
    · rw [Function.update_of_ne ht] at hr
      exact ⟨fun heq => absurd heq ht, (h.level t r hr).2⟩
  · by_cases ht : t = s.sched.cur
    · rw [ht]
      exact hpend
    · apply pending_of_settled
      rw [hpc, Function.update_of_ne ht]
      exact h.settled_of_ne ht

omit [DecidableEq T] in
theorem pauseKernel_inv (h : s.Inv) (hout : s.pc s.sched.cur = .outside) : s.pauseKernel.Inv := by
  refine ⟨fun t r hr => ⟨fun ht => ?_, (h.level t r hr).2⟩, fun _ hby => ?_,
    fun t => pending_of_settled (h.settled hout t), h.returned⟩
  · rw [show t = s.sched.cur from ht] at hr
    simp only [pauseKernel, hout] at hr
    exact absurd hr (not_inRestart_outside r)
  · simp only [pauseKernel] at hby ⊢
    by_cases hk : s.sched.kernelRunning = 0
    · rw [if_pos hk] at hby
      cases hby
    · rw [if_neg hk] at hby
      exact h.timer hk hby

theorem decrement_inv (h : s.Inv) (hpos : 0 < s.sched.kernelRunning) (hmeets : s.Meets .restartKernel) :
    s.decrement.Inv := by
  refine inv_setPc h _ rfl rfl (fun r hr => ?_) (fun _ hby => h.timer (by omega) hby) ?_ h.returned
  · show r.old = s.sched.kernelRunning - 1 + 1
    rcases hr with hr | hr <;> cases hr
    show s.sched.kernelRunning = _
    omega
  · simp only [Pending, decrement, Function.update_self]
    by_cases hhon : Honoured ⟨s.sched.kernelRunning, s.interruptDisableNesting == 0, s.requested, false⟩
    · exact .inl hhon
    · right
      simp only [Honoured, Bool.false_eq_true, imp_false, Classical.not_imp, not_not] at hhon
      obtain ⟨hone, hen, hreq⟩ := hhon
      refine ⟨h.timer (by omega) (hmeets hone hreq), hone, rfl, ?_, by simpa using hen⟩
      show s.sched.kernelRunning - 1 = 0
      omega

theorem testPending_inv (h : s.Inv) {r : Restart} (hpc : s.pc s.sched.cur = .decremented r) :
    (s.testPending r).Inv := by
  have hp := h.pending s.sched.cur
  simp only [Pending, hpc] at hp
  have hlevel := (h.level s.sched.cur r (.inl hpc)).1 rfl
  unfold testPending
  split_ifs with htest
  · -- the flag was set, so the thread is about to yield
    simp only [Bool.and_eq_true, beq_iff_eq] at htest
    obtain ⟨hen, hone, -⟩ := htest
    have hk : s.sched.kernelRunning = 0 := by omega
    refine inv_setPc h (.yielding r) rfl rfl (fun r' hr => ?_) (fun hne => absurd hk hne) ?_ h.returned
    · rcases hr with hr | hr <;> cases hr
      exact hlevel
    · simp only [Pending, setPc, Function.update_self]
      exact .inr ⟨rfl, hk, hen⟩
  · refine inv_setPc h (.returning r) rfl rfl (fun r' hr => ?_) h.timer ?_ h.returned
    · rcases hr with hr | hr <;> cases hr
    · simp only [Pending, setPc, Function.update_self]
      refine hp.resolve_right fun ⟨hpend, hone, ha⟩ => htest ?_
      simp [ha.2.2, hone, hpend]

/-- The yield of the running thread in `restartKernel`. -/
theorem yield_inv (h : s.Inv) {r : Restart} (hpc : s.pc s.sched.cur = .yielding r)
    (hfind : (s.setPc (.returning r)).find fuel priorityMax = .ok s') : s'.Inv := by
  have hp := h.pending s.sched.cur
  simp only [Pending, hpc] at hp
  have hnot : ∀ r', ¬InRestart (.returning r) r' := by
    rintro r' (hr | hr) <;> cases hr
  rcases hp with hdec | ha
  · have hset : (s.setPc (.returning r)).Inv := by
      refine inv_setPc h (.returning r) rfl rfl (fun r' hr => absurd hr (hnot r')) h.timer ?_ h.returned
      simp only [Pending, setPc, Function.update_self]
      exact fun _ _ _ => hdec
    exact find_inv hset hfind
  · rcases find_cases hfind with ⟨hne, -⟩ | ⟨-, sched, hk, rfl⟩
    · exact absurd ha.2.1 hne
    · refine decided_inv (fun t r' hr => ?_) hk h.returned
      by_cases ht : t = s.sched.cur
      · simp only [setPc, ht, Function.update_self] at hr
        exact absurd hr (hnot r')
      · simp only [setPc, Function.update_of_ne ht] at hr
        exact h.level_one ha.2.1 t r' hr

theorem restartStep_inv (h : s.Inv) (hstep : s.restartStep fuel priorityMax = .ok (some s')) :
    s'.Inv := by
  unfold restartStep at hstep
  split at hstep
  · cases hstep
  · rename_i r hpc
    cases hstep
    exact testPending_inv h hpc
  · rename_i r hpc
    obtain ⟨s₁, hfind, hstep⟩ := bind_eq_ok hstep
    cases hstep
    exact yield_inv h hpc hfind
  · rename_i r hpc
    cases hstep
    have hp := h.pending s.sched.cur
    simp only [Pending, hpc] at hp
    refine inv_setPc h .outside rfl rfl (fun r' hr => absurd hr (not_inRestart_outside r')) h.timer
      ?_ fun r' hr => ?_
    · simp [Pending, setPc]
    · rcases List.mem_append.mp hr with hr | hr
      · exact h.returned r' hr
      · rw [List.mem_singleton] at hr
        exact hr ▸ hp

theorem deviceInterrupt_inv (h : s.Inv) {waiting : T}
    (hstep : s.deviceInterrupt fuel priorityMax waiting = .ok s') : s'.Inv := by
  obtain ⟨⟨sched, higher⟩, hwake, hstep⟩ := bind_eq_ok hstep
  obtain ⟨hcur, hrun⟩ := wakeThread_frame hwake
  have hs₁ := h.congr_sched hcur hrun
  cases higher with
  | false =>
    cases hstep
    exact hs₁
  | true =>
    refine find_inv ?_ hstep
    unfold note
    split_ifs
    · exact hs₁.congr rfl rfl rfl rfl id (fun hne hby => hs₁.timer hne (by simpa using hby)) rfl
    · exact hs₁

theorem timerInterrupt_inv (h : s.Inv) {woken : List T} {preempt : Bool}
    (hstep : s.timerInterrupt fuel priorityMax woken preempt = .ok s') : s'.Inv := by
  obtain ⟨⟨sched, hptw⟩, hwake, hstep⟩ := bind_eq_ok hstep
  obtain ⟨hcur, hrun⟩ := irqWakeThreads_frame hwake
  have hs₁ := h.congr_sched hcur hrun
  simp only at hstep
  split_ifs at hstep with hreq
  · obtain ⟨s₂, hfind, hstep⟩ := bind_eq_ok hstep
    by_cases hk : sched.kernelRunning = 0
    · rw [note, if_neg (not_not.mpr hk)] at hfind
      have hs₂ := find_inv hs₁ hfind
      split_ifs at hstep with hk₂
      · cases hstep
        exact hs₂.congr rfl rfl rfl rfl (fun _ => rfl) (fun _ _ => rfl) rfl
      · cases hstep
        exact hs₂
    · -- the kernel is paused, and the interrupt leaves its trace
      rw [note, if_pos hk] at hfind
      rcases find_cases hfind with ⟨-, rfl⟩ | ⟨hk₀, -⟩
      · rw [if_pos hk] at hstep
        cases hstep
        exact hs₁.congr rfl rfl rfl rfl (fun _ => rfl) (fun _ _ => rfl) rfl
      · exact absurd hk₀ hk
  · cases hstep
    exact hs₁

omit [DecidableEq T] in
/-- The running thread does something else, outside `restartKernel`. -/
theorem nesting_inv (h : s.Inv) (hout : s.pc s.sched.cur = .outside) (n : ℕ) :
    Inv { s with interruptDisableNesting := n } :=
  ⟨h.level, h.timer, fun t => pending_of_settled (h.settled hout t), h.returned⟩

/-- **One step** that meets the condition keeps the invariant. -/
theorem step_inv (h : s.Inv) (e : PauseEvent T) (hmeets : s.Meets e)
    (hstep : s.step fuel priorityMax e = .ok (some s')) : s'.Inv := by
  cases e with
  | restart => exact restartStep_inv h hstep
  | pauseKernel =>
    simp only [step] at hstep
    split_ifs at hstep with hen <;> cases hstep
    exact pauseKernel_inv h hen.1
  | restartKernel =>
    simp only [step] at hstep
    split_ifs at hstep with hen <;> cases hstep
    exact decrement_inv h hen.2 hmeets
  | yield =>
    simp only [step] at hstep
    split_ifs at hstep
    · obtain ⟨s₁, hfind, hstep⟩ := bind_eq_ok hstep
      cases hstep
      exact find_inv h hfind
    · cases hstep
  | disableInterrupts =>
    simp only [step] at hstep
    split_ifs at hstep with hen <;> cases hstep
    exact nesting_inv h hen _
  | enableInterrupts =>
    simp only [step] at hstep
    split_ifs at hstep with hen <;> cases hstep
    exact nesting_inv h hen.1 _
  | setFlags t flags =>
    obtain ⟨sched, hmod, hstep⟩ := bind_eq_ok hstep
    cases hstep
    obtain ⟨hcur, hrun⟩ := modify_frame hmod
    exact h.congr_sched hcur hrun
  | timer woken preempt =>
    simp only [step] at hstep
    split_ifs at hstep
    · obtain ⟨s₁, hint, hstep⟩ := bind_eq_ok hstep
      cases hstep
      exact timerInterrupt_inv h hint
    · cases hstep
  | device waiting =>
    simp only [step] at hstep
    split_ifs at hstep
    · obtain ⟨s₁, hint, hstep⟩ := bind_eq_ok hstep
      cases hstep
      exact deviceInterrupt_inv h hint
    · cases hstep

/-- **A whole run** whose steps all meet the condition keeps the invariant. -/
theorem run_inv (h : s.Inv) (events : List (PauseEvent T))
    (hmeets : RunMeets fuel priorityMax s events)
    (hrun : run fuel priorityMax s events = .ok (some s')) : s'.Inv := by
  induction events generalizing s with
  | nil =>
    cases hrun
    exact h
  | cons e events ih =>
    obtain ⟨hmeet, hrest⟩ := hmeets
    obtain ⟨o, hstep, hrun⟩ := bind_eq_ok hrun
    cases o with
    | none => cases hrun
    | some s₁ =>
      rw [hstep] at hrest
      exact ih (step_inv h e hmeet hstep) hrest hrun

omit [DecidableEq T] in
theorem init_inv (sched : PriorityScheduler T) : (init sched).Inv where
  level := fun _ r hr => absurd hr (not_inRestart_outside r)
  timer := fun hne => absurd rfl hne
  pending := fun _ => trivial
  returned := fun _ hr => by cases hr

/-- **No preemption is lost while the kernel is paused**, in every interleaving in which, whenever an
interrupt requests a reschedule during a pause, the timer interrupt requests one during the same
pause: whenever the outermost `restartKernel` returns, a decision was made since the kernel runs
again, if one was requested. -/
theorem run_honoured (fuel priorityMax : ℕ) (sched : PriorityScheduler T)
    (events : List (PauseEvent T)) (s : PauseSystem T)
    (hmeets : RunMeets fuel priorityMax (init sched) events)
    (hrun : run fuel priorityMax (init sched) events = .ok (some s)) :
    ∀ r ∈ s.returned, Honoured r :=
  (run_inv (init_inv sched) events hmeets hrun).returned

/-- A thread 1 that runs, and a thread 2 of higher priority with the given flags. -/
def twoThreads (flags : ℕ) : PriorityScheduler ℕ where
  mem t := match t with
    | 1 => some ⟨0, some 1, 0⟩
    | 2 => some ⟨1, some 2, flags⟩
    | _ => none
  threadList i := match i with
    | 0 => some 1
    | 1 => some 2
    | _ => none
  idle := 0
  cur := 1
  kernelRunning := 0

/-- Thread 2 sleeps, and the timer interrupt wakes it during a pause of thread 1. It runs before thread
1 returns. -/
theorem run_honoured_timer :
    ∃ s, run 4 2 (init (twoThreads 2)) [.pauseKernel, .timer [2] false, .restartKernel, .restart,
      .restart, .setFlags 2 1, .yield, .restart] = .ok (some s) ∧
      s.returned = [⟨1, true, true, true⟩] ∧ ∀ r ∈ s.returned, Honoured r := by
  obtain ⟨s, hrun, hret⟩ : ∃ s, run 4 2 (init (twoThreads 2)) [.pauseKernel, .timer [2] false,
      .restartKernel, .restart, .restart, .setFlags 2 1, .yield, .restart] = .ok (some s) ∧
      s.returned = [⟨1, true, true, true⟩] := ⟨_, rfl, rfl⟩
  have hmeets : RunMeets 4 2 (init (twoThreads 2)) [.pauseKernel, .timer [2] false,
      .restartKernel, .restart, .restart, .setFlags 2 1, .yield, .restart] :=
    ⟨trivial, trivial, fun _ _ => rfl, trivial, trivial, trivial, trivial, trivial, trivial⟩
  exact ⟨s, hrun, hret, run_honoured 4 2 _ _ s hmeets hrun⟩

/-- Thread 2 waits for a device, whose interrupt wakes it during a pause of thread 1. Nothing is left
for `restartKernel`, and thread 1 keeps running. -/
theorem not_honoured_device :
    ¬∀ (sched : PriorityScheduler ℕ) (events : List (PauseEvent ℕ)) (s : PauseSystem ℕ),
      run 4 2 (init sched) events = .ok (some s) → ∀ r ∈ s.returned, Honoured r := by
  intro h
  obtain ⟨s, hrun, hret⟩ : ∃ s, run 4 2 (init (twoThreads 1)) [.pauseKernel, .device 2,
      .restartKernel, .restart, .restart] = .ok (some s) ∧
      s.returned = [⟨1, true, true, false⟩] := ⟨_, rfl, rfl⟩
  have hhon := h _ _ s hrun ⟨1, true, true, false⟩ (by rw [hret]; exact List.mem_singleton_self _)
  exact Bool.false_ne_true (hhon rfl rfl rfl)

end PauseSystem

end Miosix
