import MiosixKernel.Lib.History
import MiosixKernel.Lib.Linked
import MiosixKernel.Sched.Join
import MiosixKernel.Sched.Priority

/-!
# The control based scheduler: the model

The threads are in a null terminated list, in a memory that `PKremoveDeadThreads` frees. A round gives a burst
to each ready thread of the list, from the head on, and the length of the bursts is up to a regulator that
runs between two rounds. The regulator computes with floating point numbers, so that it is a parameter.

* `ControlThread`, `ControlList`: the threads and their list, with `pkAddThread` and `pkRemoveDeadThreads`;
* `ControlRegulator`: what is done with burst times;
* `ControlScheduler`: the scheduler without `SCHED_CONTROL_MULTIBURST`, and `irqFindNextThread`;
* `RoundEvent`: what happens in a round;
* `step`, `run`.
-/

namespace Miosix

open Lib

namespace ThreadFlags

def isReady (flags : ℕ) : Bool := flags &&& 0x67 == 0

/-- Both the deleted and the detached flag are set. -/
def isDeleted (flags : ℕ) : Bool := flags &&& 0x14 == 0x14

end ThreadFlags

/-! ## The list of threads -/

/-- The fields of a thread that the scheduler uses. -/
structure ControlThread (T : Type) where
  next : Option T
  flags : ℕ
  priority : ControlSchedulerPriority
  lastReadyStatus : Bool
deriving DecidableEq

/-- The nominal burst of a thread, 4ms. -/
def bNominal : ℤ := 4000000

structure ControlList (T : Type) where
  mem : T → Option (ControlThread T)
  threadList : Option T
  threadListSize : ℤ
  spTr : ℤ

namespace ControlList

variable {T : Type}

def load (s : ControlList T) (t : T) : Except Fault (ControlThread T) :=
  match s.mem t with
  | some o => .ok o
  | none => .error .badAccess

/-- A loop over the list that reads every thread. -/
def visitStep (s : ControlList T) :
    Option T × List (T × ControlThread T) →
      Except Fault (Flow (Option T × List (T × ControlThread T)) (List (T × ControlThread T)))
  | (none, l) => pure (.done l.reverse)
  | (some it, l) => do
    let o ← s.load it
    pure (.next (o.next, (it, o) :: l))

def visit (s : ControlList T) (fuel : ℕ) : Except Fault (List (T × ControlThread T)) :=
  forever .diverges s.visitStep fuel (s.threadList, [])

variable [DecidableEq T]

def modify (s : ControlList T) (t : T) (f : ControlThread T → ControlThread T) :
    Except Fault (ControlList T) := do
  let o ← s.load t
  pure { s with mem := Function.update s.mem t (some (f o)) }

/-- The thread goes to the front of the list. -/
def pkAddThread (s : ControlList T) (thread : T) (priority : ControlSchedulerPriority) :
    Except Fault (ControlList T) := do
  let s ← s.modify thread fun o => { o with priority := priority, next := s.threadList }
  pure { s with
    threadList := some thread
    threadListSize := s.threadListSize + 1
    spTr := s.spTr + bNominal }

/-- One thread less: call the destructor and delete all thread memory. -/
def dispose (s : ControlList T) (toBeDeleted : T) : ControlList T :=
  { s with
    mem := Function.update s.mem toBeDeleted none
    threadListSize := s.threadListSize - 1
    spTr := s.spTr - bNominal }

/-- The loop over the threads at the head of the list. -/
def removeHeadStep (s : ControlList T) : Except Fault (Flow (ControlList T) (ControlList T)) :=
  match s.threadList with
  | none => pure (.done s)
  | some toBeDeleted => do
    let o ← s.load toBeDeleted
    if ThreadFlags.isDeleted o.flags then pure (.next ({ s with threadList := o.next }.dispose toBeDeleted))
    else pure (.done s)

/-- The loop over the threads that are not at the head of the list. -/
def removeRestStep :
    ControlList T × Option T → Except Fault (Flow (ControlList T × Option T) (ControlList T))
  | (_, none) => throw .badAccess
  | (s, some it) => do
    let o ← s.load it
    match o.next with
    | none => pure (.done s)
    | some next => do
      let o ← s.load next
      if ThreadFlags.isDeleted o.flags = false then pure (.next (s, some next))
      else
        let s ← s.modify it fun it => { it with next := o.next }
        -- the loop goes on with the thread that now follows, without a test of its flags
        pure (.next (s.dispose next, o.next))

def pkRemoveDeadThreads (s : ControlList T) (fuel : ℕ) : Except Fault (ControlList T) := do
  let s ← forever .diverges removeHeadStep fuel s
  match s.threadList with
  | none => pure s
  | some it => forever .diverges removeRestStep fuel (s, some it)

/-- Removal of exactly the deleted threads, which is what `PKremoveDeadThreads` is for. -/
def removeDeleted (s : ControlList T) (fuel : ℕ) : Except Fault (ControlList T) := do
  let l ← s.visit fuel
  let kept := (l.filter fun p => !ThreadFlags.isDeleted p.2.flags).map Prod.fst
  pure {
    mem := fun t =>
      if t ∈ kept then (s.mem t).map fun o => { o with next := (kept.dropWhile (· ≠ t)).tail.head? }
      else if t ∈ l.map Prod.fst then none
      else s.mem t
    threadList := kept.head?
    threadListSize := kept.length
    spTr := bNominal * kept.length }

end ControlList

/-! ## The regulator -/

/-- What the scheduler does with burst times, where `D` is all that it keeps about them. -/
structure ControlRegulator (T D : Type) where
  fixedPoint : Bool
  /-- `IRQrecalculateAlfa`, from the threads that share the processor and all threads. -/
  recalculateAlfa : List (T × ControlThread T) → List (T × ControlThread T) → D → D
  /-- The current thread is preempted now: its burst time counts for the round time. -/
  storeBurst : T → ℤ → D → D
  clearBurst : T → D → D
  /-- The burst of the thread is not less than the maximum. -/
  saturated : D → T → Bool
  /-- `IRQrunRegulator`, from `allReadyThreadsSaturated`, the threads, `SP_Tr` and the number of threads. -/
  runRegulator : Bool → List (T × ControlThread T) → ℤ → ℤ → D → D
  /-- The next preemption, for a thread that starts now or for the idle thread. -/
  setNextPreemption : Option T → ℤ → D → D

/-- A regulator that keeps nothing. -/
def noRegulator (T : Type) : ControlRegulator T Unit where
  fixedPoint := false
  recalculateAlfa _ _ _ := ()
  storeBurst _ _ _ := ()
  clearBurst _ _ := ()
  saturated _ _ := false
  runRegulator _ _ _ _ _ := ()
  setNextPreemption _ _ _ := ()

/-- What happens in a round: the regulator runs, with the threads that are ready then; a thread is selected, or
none; a thread stops being ready. -/
inductive RoundEvent (T : Type) where
  | regulator (ready : List T)
  | selects (thread : T)
  | idles
  | stops (thread : T)
deriving DecidableEq

namespace RoundEvent

variable {T : Type}

/-- The threads that were selected since the regulator ran. -/
def selections : List (RoundEvent T) → List T
  | [] => []
  | regulator _ :: _ => []
  | selects t :: older => t :: selections older
  | idles :: older => selections older
  | stops _ :: older => selections older

/-- The threads that were ready when the regulator ran and have been since. -/
def Steady (t : T) : List (RoundEvent T) → Prop
  | [] => False
  | regulator ready :: _ => t ∈ ready
  | selects _ :: older => Steady t older
  | idles :: older => Steady t older
  | stops u :: older => t ≠ u ∧ Steady t older

/-- A thread is selected at most once in a round, and once if it is ready during the whole round. -/
def Allowed (older : List (RoundEvent T)) : RoundEvent T → Prop
  | regulator _ => ∀ t, Steady t older → t ∈ selections older
  | selects t => t ∉ selections older
  | idles => True
  | stops _ => True

end RoundEvent

/-! ## The scheduler -/

structure ControlScheduler (T D : Type) where
  threads : ControlList T
  curInRound : Option T
  idle : T
  cur : T
  kernelRunning : ℕ
  regulation : D
  history : List (RoundEvent T)

inductive ControlEvent (T : Type) where
  | add (thread : T) (flags : ℕ) (priority : ControlSchedulerPriority)
  | setFlags (thread : T) (flags : ℕ)
  | find (now : ℤ)
  | removeDead
  | pause (kernelRunning : ℕ)

namespace ControlScheduler

variable {T D : Type} [DecidableEq T] (reg : ControlRegulator T D) (fuel : ℕ)

def irqRecalculateAlfa (s : ControlScheduler T D) : Except Fault (ControlScheduler T D) := do
  let l ← s.threads.visit fuel
  pure { s with regulation := reg.recalculateAlfa l l s.regulation }

/-- A thread object that was just constructed, and is in no list. -/
def create (s : ControlScheduler T D) (thread : T) (flags : ℕ) : ControlScheduler T D :=
  { s with threads.mem := Function.update s.threads.mem thread (some ⟨none, flags, ⟨0, 3⟩, false⟩) }

/-- There is no room for more than 64 threads with fixed point arithmetic: the result is `none` then. -/
def pkAddThread (s : ControlScheduler T D) (thread : T) (priority : ControlSchedulerPriority) :
    Except Fault (Option (ControlScheduler T D)) :=
  if reg.fixedPoint ∧ 64 ≤ s.threads.threadListSize then pure none
  else do
    let threads ← s.threads.pkAddThread thread priority
    some <$> { s with threads := threads }.irqRecalculateAlfa reg fuel

def pkRemoveDeadThreads (s : ControlScheduler T D) : Except Fault (ControlScheduler T D) := do
  let threads ← s.threads.pkRemoveDeadThreads fuel
  { s with threads := threads }.irqRecalculateAlfa reg fuel

/-- The flags of a thread change, and the scheduler is told. -/
def irqWaitStatusHook (s : ControlScheduler T D) (thread : T) (flags : ℕ) : Except Fault (ControlScheduler T D) := do
  let threads ← s.threads.modify thread fun o => { o with flags := flags }
  let history := if ThreadFlags.isReady flags then s.history else .stops thread :: s.history
  { s with threads := threads, history := history }.irqRecalculateAlfa reg fuel

/-- Run the thread at `curInRound` if it is ready. -/
def selectStep (now : ℤ) (s : ControlScheduler T D) (c : T) :
    Except Fault (Flow (ControlScheduler T D) (ControlScheduler T D)) := do
  let o ← s.threads.load c
  if ThreadFlags.isReady o.flags then
    pure (.done { s with
      curInRound := some c
      cur := c
      regulation := reg.setNextPreemption (some c) now s.regulation
      history := .selects c :: s.history })
  else pure (.next { s with curInRound := some c, regulation := reg.clearBurst c s.regulation })

/-- The body of the loop of `IRQfindNextThread`. -/
def findStep (now : ℤ) (s : ControlScheduler T D) :
    Except Fault (Flow (ControlScheduler T D) (ControlScheduler T D)) := do
  let curInRound ← match s.curInRound with
    | none => pure none
    | some c => (·.next) <$> s.threads.load c
  match curInRound with
  | some c => s.selectStep reg now c
  | none => do
    let l ← s.threads.visit fuel
    let ready := l.filter fun p => ThreadFlags.isReady p.2.flags
    match s.threads.threadList, ready with
    | _, [] =>
      -- no thread is ready, run the idle thread
      pure (.done { s with
        curInRound := none
        cur := s.idle
        regulation := reg.setNextPreemption none now s.regulation
        history := .idles :: s.history })
    | none, _ :: _ => throw .badAccess
    | some head, _ :: _ =>
      let saturated := ready.all fun p => reg.saturated s.regulation p.1
      selectStep reg now { s with
        curInRound := some head
        regulation := reg.runRegulator saturated l s.threads.spTr s.threads.threadListSize s.regulation
        history := .regulator (ready.map Prod.fst) :: s.history } head

def irqFindNextThread (now : ℤ) (s : ControlScheduler T D) : Except Fault (ControlScheduler T D) :=
  if s.kernelRunning ≠ 0 then pure s
  else if s.cur ≠ s.idle then do
    let _ ← s.threads.load s.cur
    forever .diverges (findStep reg fuel now) fuel
      { s with regulation := reg.storeBurst s.cur now s.regulation }
  else forever .diverges (findStep reg fuel now) fuel s

/-! ## Runs -/

/-- The first thread is added, and `IRQsetIdleThread` is called, before the kernel is started. -/
def initial (main idle : T) (flags : ℕ) (priority : ControlSchedulerPriority) (regulation : D) :
    ControlScheduler T D where
  threads := {
    mem t := if t = main then some ⟨none, flags, priority, false⟩ else none
    threadList := some main
    threadListSize := 1
    spTr := bNominal }
  curInRound := none
  idle := idle
  cur := main
  kernelRunning := 0
  regulation := regulation
  history := []

/-- `PKremoveDeadThreads` is called by the running thread, which is not deleted, and only when `curInRound` is
null or that thread. -/
def CanRemove (s : ControlScheduler T D) : Prop :=
  (s.curInRound = none ∨ s.curInRound = some s.cur) ∧
    ((s.threads.mem s.cur).any fun o => ThreadFlags.isDeleted o.flags) = false

instance (s : ControlScheduler T D) : Decidable s.CanRemove := inferInstanceAs (Decidable (_ ∧ _))

/-- A step of the system, where `PKremoveDeadThreads` is assumed to remove exactly the deleted threads. -/
def step (s : ControlScheduler T D) : ControlEvent T → Except Fault (ControlScheduler T D)
  | .add thread flags priority =>
    if (s.threads.mem thread).isSome ∨ thread = s.idle then pure s
    else do return (← (s.create thread flags).pkAddThread reg fuel thread priority).getD s
  | .setFlags thread flags =>
    if (s.threads.mem thread).isNone then pure s else s.irqWaitStatusHook reg fuel thread flags
  | .find now => s.irqFindNextThread reg fuel now
  | .removeDead =>
    if s.CanRemove then do
      let threads ← s.threads.removeDeleted fuel
      { s with threads := threads }.irqRecalculateAlfa reg fuel
    else pure s
  | .pause kernelRunning => pure { s with kernelRunning := kernelRunning }

def run (s : ControlScheduler T D) : List (ControlEvent T) → Except Fault (ControlScheduler T D)
  | [] => pure s
  | e :: es => do
    let s ← s.step reg fuel e
    s.run es

end ControlScheduler

end Miosix
