import MiosixKernel.Lib.Heap
import MiosixKernel.Lib.Linked
import MiosixKernel.Lib.Loop
import MiosixKernel.Sched.Priority

/-!
# Mutexes with priority inheritance: the model

A `Mutex` keeps the threads that wait for it in a heap ordered by priority, a thread keeps the mutexes it
has locked in a list linked through them, and a thread that has to wait lends its priority to the owner,
to the thread that the owner waits for, and so on. A section with the kernel paused is one step, and so
is a section with interrupts disabled of a `ConditionVariable`. A thread that was suspended goes on when
neither its wait flag nor its condition wait flag is set; anybody may clear the wait flag.

* `MutexSystem`: the fields of the threads, of the mutexes and of the condition variables, with the
  history of what was locked, set and waited for;
* `pkLock`, `pkLockToDepth`, `pkTryLock`, `pkUnlock`, `pkUnlockAllDepthLevels`, `setPriority`;
* `condWait`, `signal`, `broadcast`;
* `step`, `run`: interleavings.
-/

namespace Miosix

open Lib

/-! ## The data -/

/-- How a section can end without returning: `errorHandler(MUTEX_DEADLOCK)`,
`errorHandler(UNEXPECTED)`, a null pointer, a loop that goes on for ever. -/
inductive MutexFault where
  | deadlock
  | unexpected
  | nullPointer
  | endless
deriving DecidableEq

/-- Where a thread is suspended. -/
inductive MutexPc (M C : Type) where
  | idle
  | locking (m : M)
  | condWaiting (c : C) (m : M) (depth : ℕ)
  | relocking (c : C) (m : M) (depth : ℕ)
deriving DecidableEq

structure MutexSystem (P M C T : Type) where
  /- The fields of a thread. -/
  priority : T → P
  savedPriority : T → P
  mutexLocked : T → Option M
  mutexWaiting : T → Option M
  wait : T → Bool
  condWait : T → Bool
  /- The fields of a mutex. The depth is negative for a mutex that is not recursive. -/
  owner : M → Option T
  next : M → Option M
  waiting : M → List T
  recursiveDepth : M → ℤ
  /- The fields of a condition variable, and the nodes of the threads that wait. -/
  first : C → Option T
  last : C → Option T
  condNext : T → Option T
  pc : T → MutexPc M C
  /-- How many times each thread has locked a mutex and not unlocked it. -/
  held : M → T → ℕ
  /-- What a thread in `wait` held when it called it, and the depth. -/
  saved : T → ℕ × ℤ
  /-- The last priority that a thread set. -/
  lastSet : T → P
  /-- The threads that waited on a condition variable, and those that were released, in order. -/
  waited : C → List T
  released : C → List T

namespace MutexSystem

variable {P M C T : Type} [SchedulerPriority P] [DecidableEq M] [DecidableEq C] [DecidableEq T]

/-- What the priority of a thread counts for in inheritance. -/
def level (s : MutexSystem P M C T) (t : T) : SchedulerPriority.Level P := SchedulerPriority.level (s.priority t)

def pkSetPriority (s : MutexSystem P M C T) (t : T) (pr : P) : MutexSystem P M C T :=
  { s with priority := Function.update s.priority t pr }

def setHeld (s : MutexSystem P M C T) (m : M) (t : T) (n : ℕ) : MutexSystem P M C T :=
  { s with held := Function.update s.held m (Function.update (s.held m) t n) }

def setDepth (s : MutexSystem P M C T) (m : M) (n : ℤ) : MutexSystem P M C T :=
  { s with recursiveDepth := Function.update s.recursiveDepth m n }

def setPc (s : MutexSystem P M C T) (t : T) (pc : MutexPc M C) : MutexSystem P M C T :=
  { s with pc := Function.update s.pc t pc }

def setWait (s : MutexSystem P M C T) (t : T) (w : Bool) : MutexSystem P M C T :=
  { s with wait := Function.update s.wait t w }

/-! ## Locking -/

/-- Make a thread the owner: save its priority if it has not locked another mutex, and add the mutex to
the list of those that it has locked. -/
def takeOwnership (s : MutexSystem P M C T) (m : M) (t : T) : MutexSystem P M C T :=
  { s with
    owner := Function.update s.owner m (some t)
    savedPriority :=
      if s.mutexLocked t = none then Function.update s.savedPriority t (s.priority t)
      else s.savedPriority
    next := Function.update s.next m (s.mutexLocked t)
    mutexLocked := Function.update s.mutexLocked t (some m) }

/-- `make_heap` of the threads that wait for a mutex. -/
def makeWaitingHeap (s : MutexSystem P M C T) (m : M) : MutexSystem P M C T :=
  { s with waiting := Function.update s.waiting m (makeHeap s.level (s.waiting m)) }

/-- The loop of priority inheritance: `p` lends its priority to `walk`, and to whom it waits for. -/
def inherit (p : T) : ℕ → MutexSystem P M C T → T → Except MutexFault (MutexSystem P M C T)
  | 0, _, _ => throw .endless
  | fuel + 1, s, walk =>
    let s := s.pkSetPriority walk (s.priority p)
    match s.mutexWaiting walk with
    | none => pure s
    | some m =>
      let s := s.makeWaitingHeap m
      match s.owner m with
      | none => throw .nullPointer
      | some o => inherit p fuel s o

/-- The mutex has another owner: enter the heap of those that wait. -/
def enterWaiting (fuel : ℕ) (s : MutexSystem P M C T) (m : M) (p owner : T) :
    Except MutexFault (MutexSystem P M C T) := do
  let waiting := pushHeap s.level (s.waiting m ++ [p])
  let s := { s with waiting := Function.update s.waiting m waiting }
  if s.mutexWaiting p ≠ none then throw .unexpected
  let s := { s with mutexWaiting := Function.update s.mutexWaiting p (some m) }
  if s.level owner < s.level p then inherit p fuel s owner else pure s

def pkLock (fuel : ℕ) (s : MutexSystem P M C T) (m : M) (p : T) :
    Except MutexFault (MutexSystem P M C T) :=
  match s.owner m with
  | none => pure ((s.takeOwnership m p).setHeld m p (s.held m p + 1))
  | some o =>
    if o = p then
      if 0 ≤ s.recursiveDepth m then
        pure ((s.setDepth m (s.recursiveDepth m + 1)).setHeld m p (s.held m p + 1))
      else throw .deadlock
    else do
      let s ← s.enterWaiting fuel m p o
      pure ((s.setWait p true).setPc p (.locking m))

/-- The depth at the end of `pkLockToDepth`. -/
def restoreDepth (s : MutexSystem P M C T) (m : M) (depth : ℕ) : MutexSystem P M C T :=
  if 0 ≤ s.recursiveDepth m then s.setDepth m depth else s

/-- `wait` returns. -/
def condReturn (s : MutexSystem P M C T) (m : M) (p : T) : MutexSystem P M C T :=
  (s.setHeld m p (s.saved p).1).setPc p .idle

def pkLockToDepth (fuel : ℕ) (s : MutexSystem P M C T) (c : C) (m : M) (p : T) (depth : ℕ) :
    Except MutexFault (MutexSystem P M C T) :=
  match s.owner m with
  | none => pure (((s.takeOwnership m p).restoreDepth m depth).condReturn m p)
  | some o =>
    if o = p then
      if 0 ≤ s.recursiveDepth m then pure ((s.setDepth m depth).condReturn m p) else throw .deadlock
    else do
      let s ← s.enterWaiting fuel m p o
      pure ((s.setWait p true).setPc p (.relocking c m depth))

def pkTryLock (s : MutexSystem P M C T) (m : M) (p : T) : MutexSystem P M C T × Bool :=
  match s.owner m with
  | none => ((s.takeOwnership m p).setHeld m p (s.held m p + 1), true)
  | some o =>
    if o = p ∧ 0 ≤ s.recursiveDepth m then
      ((s.setDepth m (s.recursiveDepth m + 1)).setHeld m p (s.held m p + 1), true)
    else (s, false)

/-! ## Unlocking -/

/-- The loop that looks for the mutex in the list of its owner. -/
def unlinkAfter (m : M) : ℕ → MutexSystem P M C T → M → Except MutexFault (MutexSystem P M C T)
  | 0, _, _ => throw .endless
  | fuel + 1, s, walk =>
    match s.next walk with
    | none => throw .unexpected
    | some n =>
      if n = m then pure { s with next := Function.update s.next walk (s.next n) }
      else unlinkAfter m fuel s n

/-- Remove the mutex from the list of its owner. -/
def removeLocked (fuel : ℕ) (s : MutexSystem P M C T) (m : M) (p : T) :
    Except MutexFault (MutexSystem P M C T) :=
  match s.mutexLocked p with
  | none => throw .nullPointer
  | some walk =>
    if walk = m then pure { s with mutexLocked := Function.update s.mutexLocked p (s.next walk) }
    else unlinkAfter m fuel s walk

/-- The larger of a priority and that of the first thread that waits for a mutex. -/
def raised (s : MutexSystem P M C T) (less : P → P → Bool) (m : M) (pr : P) : P :=
  match (s.waiting m).head? with
  | none => pr
  | some u => if less pr (s.priority u) then s.priority u else pr

/-- The loop that computes the largest of a priority and those inherited through a list of mutexes. -/
def inheritedPriority (s : MutexSystem P M C T) (less : P → P → Bool) :
    ℕ → Option M → P → Except MutexFault P
  | _, none, pr => pure pr
  | 0, some _, _ => throw .endless
  | fuel + 1, some walk, pr => s.inheritedPriority less fuel (s.next walk) (s.raised less walk pr)

/-- `PKsetPriority`, if the priority changes. -/
def changePriority (s : MutexSystem P M C T) (p : T) (pr : P) : MutexSystem P M C T :=
  if pr ≠ s.priority p then s.pkSetPriority p pr else s

/-- The priority of a thread that has unlocked a mutex. -/
def restorePriority (fuel : ℕ) (s : MutexSystem P M C T) (p : T) :
    Except MutexFault (MutexSystem P M C T) :=
  if s.mutexLocked p = none then pure (s.changePriority p (s.savedPriority p))
  else do
    let pr ← s.inheritedPriority mutexLessOp fuel (s.mutexLocked p) (s.savedPriority p)
    pure (s.changePriority p pr)

/-- Choose the next thread to lock the mutex. -/
def handOver (s : MutexSystem P M C T) (m : M) : Except MutexFault (MutexSystem P M C T) :=
  match s.waiting m with
  | [] => pure { s with owner := Function.update s.owner m none }
  | u :: _ => do
    let waiting := (popHeap s.level (s.waiting m)).dropLast
    let s := { s with waiting := Function.update s.waiting m waiting }
    if s.mutexWaiting u ≠ some m then throw .unexpected
    let s := { s with
      mutexWaiting := Function.update s.mutexWaiting u none
      wait := Function.update s.wait u false }
    let s := s.takeOwnership m u
    pure (s.changePriority u (s.raised mutexLessOp m (s.priority u)))

/-- What `pkUnlock` and `pkUnlockAllDepthLevels` do when the mutex is released. -/
def releaseMutex (fuel : ℕ) (s : MutexSystem P M C T) (m : M) (p : T) :
    Except MutexFault (MutexSystem P M C T) := do
  let s ← s.removeLocked fuel m p
  let s ← s.restorePriority fuel p
  s.handOver m

/-- The new owner, if any, has a higher priority than the thread that unlocked the mutex. -/
def ownerAbove (s : MutexSystem P M C T) (m : M) (p : T) : Bool :=
  match s.owner m with
  | none => false
  | some u => mutexLessOp (s.priority p) (s.priority u)

def pkUnlock (fuel : ℕ) (s : MutexSystem P M C T) (m : M) (p : T) :
    Except MutexFault (MutexSystem P M C T × Bool) :=
  if s.owner m ≠ some p then pure (s, false)
  else if 0 < s.recursiveDepth m then
    pure ((s.setDepth m (s.recursiveDepth m - 1)).setHeld m p (s.held m p - 1), false)
  else do
    let s' ← s.releaseMutex fuel m p
    pure (s'.setHeld m p (s.held m p - 1), s'.ownerAbove m p)

/-- The mutex is released, and its depth is returned. -/
def pkUnlockAllDepthLevels (fuel : ℕ) (s : MutexSystem P M C T) (m : M) (p : T) :
    Except MutexFault (MutexSystem P M C T × ℕ) :=
  if s.owner m ≠ some p then pure (s, 0)
  else do
    let s' ← s.releaseMutex fuel m p
    if s'.recursiveDepth m < 0 then pure (s'.setHeld m p 0, 0)
    else pure ((s'.setDepth m 0).setHeld m p 0, (s'.recursiveDepth m).toNat)

/-! ## Setting the priority -/

def setPriority (fuel : ℕ) (s : MutexSystem P M C T) (p : T) (pr : P) :
    Except MutexFault (MutexSystem P M C T) :=
  if SchedulerPriority.validate pr = false then pure s
  else
    let s := { s with lastSet := Function.update s.lastSet p pr }
    if s.mutexLocked p = none then pure (s.changePriority p pr)
    else if s.savedPriority p = pr then pure s
    else do
      let s := { s with savedPriority := Function.update s.savedPriority p pr }
      let pr ← s.inheritedPriority SchedulerPriority.less fuel (s.mutexLocked p) pr
      pure (s.changePriority p pr)

/-! ## Condition variables -/

/-- Put the current thread last on the list of the condition variable. -/
def enqueueCond (s : MutexSystem P M C T) (c : C) (p : T) : MutexSystem P M C T :=
  { s with
    condNext := LinkedQueue.appendNext s.condNext (s.first c) (s.last c) p
    first := Function.update s.first c (LinkedQueue.appendFirst (s.first c) p)
    last := Function.update s.last c (some p)
    condWait := Function.update s.condWait p true
    waited := Function.update s.waited c (s.waited c ++ [p]) }

/-- The first section of `ConditionVariable::wait`. -/
def waitOn (fuel : ℕ) (s : MutexSystem P M C T) (c : C) (m : M) (p : T) :
    Except MutexFault (MutexSystem P M C T) := do
  let (s', depth) ← (s.enqueueCond c p).pkUnlockAllDepthLevels fuel m p
  pure { s'.setPc p (.condWaiting c m depth) with
    saved := Function.update s.saved p (s.held m p, s.recursiveDepth m) }

/-- Release the thread of the first node. -/
def release (s : MutexSystem P M C T) (c : C) (t : T) : MutexSystem P M C T :=
  { s with
    condWait := Function.update s.condWait t false
    first := Function.update s.first c (s.condNext t)
    released := Function.update s.released c (s.released c ++ [t]) }

/-- The current thread has a lower priority than the one that is released, and yields. -/
def signal (s : MutexSystem P M C T) (c : C) (cur : T) : MutexSystem P M C T × Bool :=
  match s.first c with
  | none => (s, false)
  | some t => (s.release c t, SchedulerPriority.less (s.priority cur) (s.priority t))

/-- The loop of `broadcast`. -/
def broadcast (c : C) (cur : T) :
    ℕ → MutexSystem P M C T → Bool → Except MutexFault (MutexSystem P M C T × Bool)
  | 0, _, _ => throw .endless
  | fuel + 1, s, hppw =>
    match s.first c with
    | none => pure (s, hppw)
    | some t =>
      broadcast c cur fuel (s.release c t) (hppw || SchedulerPriority.less (s.priority cur) (s.priority t))

/-! ## Interleavings -/

/-- The next section of a suspended thread. -/
def resume (fuel : ℕ) (s : MutexSystem P M C T) (t : T) :
    Except MutexFault (MutexSystem P M C T) :=
  match s.pc t with
  | .idle => pure s
  | .locking m =>
    if s.owner m = some t then pure ((s.setHeld m t (s.held m t + 1)).setPc t .idle)
    else pure (s.setWait t true)
  | .condWaiting c m depth => s.pkLockToDepth fuel c m t depth
  | .relocking _ m depth =>
    if s.owner m = some t then pure ((s.restoreDepth m depth).condReturn m t)
    else pure (s.setWait t true)

inductive Event (P M C T : Type) where
  | lock (t : T) (m : M)
  | tryLock (t : T) (m : M)
  | unlock (t : T) (m : M)
  | setPriority (t : T) (pr : P)
  | wait (t : T) (c : C) (m : M)
  | signal (t : T) (c : C)
  | broadcast (t : T) (c : C)
  | resume (t : T)
  | wakeup (t : T)

/-- A step of the system. An event that cannot take place, because its thread is suspended or waits
with a mutex that it does not own, changes nothing. -/
def step (fuel : ℕ) (s : MutexSystem P M C T) :
    Event P M C T → Except MutexFault (MutexSystem P M C T)
  | .lock t m => if s.pc t = .idle then s.pkLock fuel m t else pure s
  | .tryLock t m => if s.pc t = .idle then pure (s.pkTryLock m t).1 else pure s
  | .unlock t m => if s.pc t = .idle then Prod.fst <$> s.pkUnlock fuel m t else pure s
  | .setPriority t pr => if s.pc t = .idle then s.setPriority fuel t pr else pure s
  | .wait t c m =>
    if s.pc t = .idle ∧ s.owner m = some t then s.waitOn fuel c m t else pure s
  | .signal t c => if s.pc t = .idle then pure (s.signal c t).1 else pure s
  | .broadcast t c =>
    if s.pc t = .idle then Prod.fst <$> broadcast c t fuel s false else pure s
  | .resume t => if s.wait t || s.condWait t then pure s else s.resume fuel t
  | .wakeup t => pure (s.setWait t false)

def run (fuel : ℕ) : MutexSystem P M C T → List (Event P M C T) →
    Except MutexFault (MutexSystem P M C T)
  | s, [] => pure s
  | s, e :: events => do
    let s ← s.step fuel e
    run fuel s events

/-- No mutex is locked. The pointers to the last nodes, the nodes and the saved priorities hold
anything. -/
def init (isRecursive : M → Bool) (priority savedPriority : T → P) (next : M → Option M)
    (last : C → Option T) (condNext : T → Option T) (saved : T → ℕ × ℤ) : MutexSystem P M C T where
  priority := priority
  savedPriority := savedPriority
  mutexLocked _ := none
  mutexWaiting _ := none
  wait _ := false
  condWait _ := false
  owner _ := none
  next := next
  waiting _ := []
  recursiveDepth m := if isRecursive m then 0 else -1
  first _ := none
  last := last
  condNext := condNext
  pc _ := .idle
  held _ _ := 0
  saved := saved
  lastSet := priority
  waited _ := []
  released _ := []

end MutexSystem

end Miosix
