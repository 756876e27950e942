import MiosixKernel.Lib.Linked
import MiosixKernel.Lib.Loop
import MiosixKernel.Sched.Control

/-!
# The EDF scheduler: the model

The threads are in one null terminated list, which is kept in the order of their deadlines, so that the first
thread that is ready is the one to run. The idle thread is in the list as well.

* `EDFThread`, `EDFScheduler`: the threads and the scheduler;
* `add`, `remove`: insertion and removal, each with its code for the head and for the rest of the list;
* `pkAddThread`, `pkSetPriority`, `irqSetIdleThread`, `pkRemoveDeadThreads`, `irqFindNextThread`;
* `step`, `run`.
-/

namespace Miosix

open Lib

/-- The fields of a thread that the scheduler uses. -/
structure EDFThread (T : Type) where
  next : Option T
  flags : ℕ
  deadline : EDFSchedulerPriority
deriving DecidableEq

structure EDFScheduler (T : Type) where
  mem : T → Option (EDFThread T)
  head : Option T
  cur : Option T
  kernelRunning : ℕ

inductive EDFEvent (T : Type) where
  | add (thread : T) (priority : EDFSchedulerPriority)
  | setIdle
  | setPriority (thread : T) (priority : EDFSchedulerPriority)
  | setFlags (thread : T) (flags : ℕ)
  | removeDead
  | find
  | pause (kernelRunning : ℕ)

namespace EDFScheduler

variable {T : Type}

def load (s : EDFScheduler T) (t : T) : Except Fault (EDFThread T) :=
  match s.mem t with
  | some o => .ok o
  | none => .error .badAccess

/-- The body of the loop of `IRQfindNextThread`. -/
def findStep (s : EDFScheduler T) : Option T → Except Fault (Flow (Option T) (EDFScheduler T))
  | none => throw .unexpected
  | some walk => do
    let o ← s.load walk
    if ThreadFlags.isReady o.flags then pure (.done { s with cur := some walk })
    else pure (.next o.next)

def irqFindNextThread (s : EDFScheduler T) (fuel : ℕ) : Except Fault (EDFScheduler T) :=
  if s.kernelRunning ≠ 0 then pure s else forever .diverges s.findStep fuel s.head

variable [DecidableEq T]

def modify (s : EDFScheduler T) (t : T) (f : EDFThread T → EDFThread T) : Except Fault (EDFScheduler T) := do
  let o ← s.load t
  pure { s with mem := Function.update s.mem t (some (f o)) }

/-- The thread goes between `walk` and the thread after it. -/
def insertAfter (s : EDFScheduler T) (walk thread : T) : Except Fault (EDFScheduler T) := do
  let o ← s.load walk
  let s ← s.modify thread fun t => { t with next := o.next }
  s.modify walk fun t => { t with next := some thread }

/-- The body of the loop of `add`. -/
def addStep (s : EDFScheduler T) (thread : T) (newDeadline : ℤ) (walk : T) :
    Except Fault (Flow T (EDFScheduler T)) := do
  let o ← s.load walk
  match o.next with
  | none => .done <$> s.insertAfter walk thread
  | some next => do
    let o ← s.load next
    if newDeadline ≤ o.deadline.deadline then .done <$> s.insertAfter walk thread else pure (.next next)

/-- The pointer of the thread is left as it is when the list is empty. -/
def add (s : EDFScheduler T) (thread : T) (fuel : ℕ) : Except Fault (EDFScheduler T) := do
  let newDeadline := (← s.load thread).deadline.deadline
  match s.head with
  | none => pure { s with head := some thread }
  | some head => do
    let o ← s.load head
    if newDeadline ≤ o.deadline.deadline then do
      let s ← s.modify thread fun t => { t with next := some head }
      pure { s with head := some thread }
    else forever .diverges (s.addStep thread newDeadline) fuel head

/-- The body of the loop of `remove`. The pointer of the thread is left as it is. -/
def removeStep (s : EDFScheduler T) (thread walk : T) : Except Fault (Flow T (EDFScheduler T)) := do
  let o ← s.load walk
  match o.next with
  | none => throw .unexpected
  | some next =>
    if next = thread then do
      let o ← s.load next
      .done <$> s.modify walk fun t => { t with next := o.next }
    else pure (.next next)

def remove (s : EDFScheduler T) (thread : T) (fuel : ℕ) : Except Fault (EDFScheduler T) :=
  match s.head with
  | none => throw .unexpected
  | some head =>
    if head = thread then do
      let o ← s.load head
      pure { s with head := o.next }
    else forever .diverges (s.removeStep thread) fuel head

/-! ## The operations -/

def pkAddThread (s : EDFScheduler T) (thread : T) (priority : EDFSchedulerPriority) (fuel : ℕ) :
    Except Fault (EDFScheduler T) := do
  let s ← s.modify thread fun t => { t with deadline := priority }
  s.add thread fuel

def pkSetPriority (s : EDFScheduler T) (thread : T) (newPriority : EDFSchedulerPriority) (fuel : ℕ) :
    Except Fault (EDFScheduler T) := do
  let s ← s.remove thread fuel
  let s ← s.modify thread fun t => { t with deadline := newPriority }
  s.add thread fuel

/-- The deadline of the idle thread, which no other thread may have. -/
def idleDeadline : EDFSchedulerPriority := ⟨2 ^ 63 - 2⟩

def irqSetIdleThread (s : EDFScheduler T) (idleThread : T) (fuel : ℕ) : Except Fault (EDFScheduler T) := do
  let s ← s.modify idleThread fun t => { t with deadline := idleDeadline }
  s.add idleThread fuel

/-- Delete all thread memory. -/
def dispose (s : EDFScheduler T) (toBeDeleted : T) : EDFScheduler T :=
  { s with mem := Function.update s.mem toBeDeleted none }

/-- The loop over the threads at the beginning of the list. -/
def removeHeadStep (s : EDFScheduler T) : Except Fault (Flow (EDFScheduler T) (EDFScheduler T × T)) :=
  match s.head with
  | none => throw .unexpected
  | some head => do
    let o ← s.load head
    if ThreadFlags.isDeleted o.flags = false then pure (.done (s, head))
    else pure (.next ({ s with head := o.next }.dispose head))

/-- The loop over the other threads. -/
def removeRestStep : EDFScheduler T × T → Except Fault (Flow (EDFScheduler T × T) (EDFScheduler T))
  | (s, walk) => do
    let o ← s.load walk
    match o.next with
    | none => pure (.done s)
    | some next => do
      let o ← s.load next
      if ThreadFlags.isDeleted o.flags then do
        let s ← s.modify walk fun t => { t with next := o.next }
        pure (.next (s.dispose next, walk))
      else pure (.next (s, next))

def pkRemoveDeadThreads (s : EDFScheduler T) (fuel : ℕ) : Except Fault (EDFScheduler T) := do
  let (s, walk) ← forever .diverges removeHeadStep fuel s
  forever .diverges removeRestStep fuel (s, walk)

/-! ## Runs -/

/-- Before the kernel is started there are no threads. -/
def initial : EDFScheduler T where
  mem _ := none
  head := none
  cur := none
  kernelRunning := 0

/-- A thread object that was just constructed. -/
def create (s : EDFScheduler T) (thread : T) : EDFScheduler T :=
  { s with mem := Function.update s.mem thread (some ⟨none, 0, ⟨1⟩⟩) }

/-- Threads that are created are added at once. The idle thread is set once, it is always ready and its deadline
stays the same. -/
def step (idle : T) (fuel : ℕ) (s : EDFScheduler T) : EDFEvent T → Except Fault (EDFScheduler T)
  | .add thread priority =>
    if (s.mem thread).isSome ∨ thread = idle then pure s else (s.create thread).pkAddThread thread priority fuel
  | .setIdle => if (s.mem idle).isSome then pure s else (s.create idle).irqSetIdleThread idle fuel
  | .setPriority thread priority =>
    if (s.mem thread).isNone ∨ thread = idle then pure s else s.pkSetPriority thread priority fuel
  | .setFlags thread flags =>
    if (s.mem thread).isNone ∨ thread = idle then pure s else s.modify thread fun t => { t with flags := flags }
  | .removeDead => s.pkRemoveDeadThreads fuel
  | .find => s.irqFindNextThread fuel
  | .pause kernelRunning => pure { s with kernelRunning := kernelRunning }

def run (idle : T) (fuel : ℕ) (s : EDFScheduler T) : List (EDFEvent T) → Except Fault (EDFScheduler T)
  | [] => pure s
  | e :: es => do
    let s ← s.step idle fuel e
    run idle fuel s es

end EDFScheduler

end Miosix
