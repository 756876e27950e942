import MiosixKernel.Lib.Linked
import Mathlib.Data.Int.Basic

/-!
# Fast mutexes and condition variables: the model

The mutexes and the condition variables of the pthread library keep the threads that wait for them in
linked lists whose nodes are on the stacks of the threads. A section with interrupts disabled is one
step. A thread that was suspended goes on when neither its wait flag nor its condition wait flag is
set; anybody may clear the wait flag.

* `PthreadMutex`, `PthreadCond`, `Pthread`: the data, with the history of who came and who went;
* `irqDoMutexLock`, `irqDoMutexLockToDepth`, `irqDoMutexUnlock`, `irqDoMutexUnlockAllDepthLevels`;
* `pthreadCondWait`, `pthreadCondSignal`, `pthreadCondBroadcast`;
* `step`, `run`: interleavings.
-/

namespace Miosix

open Lib

structure PthreadMutex (T : Type) where
  owner : Option T
  first : Option T
  last : Option T
  /-- Negative for a mutex that is not recursive, otherwise how many times more than once the owner
  has locked it. -/
  recursive : ℤ

structure PthreadCond (T : Type) where
  first : Option T
  last : Option T

/-- Where a thread is suspended. -/
inductive PthreadPc (M C : Type) where
  | idle
  | locking (m : M)
  | condWaiting (c : C) (m : M) (depth : ℕ)
  | relocking (m : M) (depth : ℕ)
deriving DecidableEq

structure Pthread (M C T : Type) where
  mutex : M → PthreadMutex T
  cond : C → PthreadCond T
  /-- The next node after that with which a thread waits for a mutex. -/
  mutexNext : T → Option T
  /-- The next node after that with which a thread waits on a condition variable. -/
  condNext : T → Option T
  wait : T → Bool
  condWait : T → Bool
  pc : T → PthreadPc M C
  /-- How many times each thread has locked a mutex and not unlocked it. -/
  held : M → T → ℕ
  /-- What a thread in `pthread_cond_wait` held when it called it, and the field `recursive`. -/
  saved : T → ℕ × ℤ
  /-- The threads that queued up for a mutex, and those that got it, in order. -/
  arrived : M → List T
  granted : M → List T
  /-- The threads that waited on a condition variable, and those that were released, in order. -/
  waited : C → List T
  released : C → List T
  /-- The field `recursive` before and after each call of `pthread_cond_wait` that returned. -/
  condReturned : List (ℤ × ℤ)

namespace Pthread

variable {M C T : Type} [DecidableEq M] [DecidableEq C] [DecidableEq T]

/-! ## Mutexes -/

def setOwner (s : Pthread M C T) (m : M) (t : Option T) : Pthread M C T :=
  { s with mutex := Function.update s.mutex m { s.mutex m with owner := t } }

def setRecursive (s : Pthread M C T) (m : M) (n : ℤ) : Pthread M C T :=
  { s with mutex := Function.update s.mutex m { s.mutex m with recursive := n } }

def setHeld (s : Pthread M C T) (m : M) (t : T) (n : ℕ) : Pthread M C T :=
  { s with held := Function.update s.held m (Function.update (s.held m) t n) }

def setPc (s : Pthread M C T) (t : T) (pc : PthreadPc M C) : Pthread M C T :=
  { s with pc := Function.update s.pc t pc }

def setWait (s : Pthread M C T) (t : T) (w : Bool) : Pthread M C T :=
  { s with wait := Function.update s.wait t w }

/-- Put the current thread last on the list. -/
def enqueue (s : Pthread M C T) (m : M) (t : T) : Pthread M C T :=
  let x := s.mutex m
  { s with
    mutexNext := LinkedQueue.appendNext s.mutexNext x.first x.last t
    mutex := Function.update s.mutex m
      { x with first := LinkedQueue.appendFirst x.first t, last := some t }
    arrived := Function.update s.arrived m (s.arrived m ++ [t]) }

/-- The mutex is owned by another thread: wait in the loop. -/
def waitMutex (s : Pthread M C T) (m : M) (t : T) (pc : PthreadPc M C) : Pthread M C T :=
  ((s.enqueue m t).setWait t true).setPc t pc

/-- `errorHandler(MUTEX_DEADLOCK)` does not return. -/
def irqDoMutexLock (s : Pthread M C T) (m : M) (t : T) : Option (Pthread M C T) :=
  if (s.mutex m).owner = none then
    some ((s.setOwner m (some t)).setHeld m t (s.held m t + 1))
  else if (s.mutex m).owner = some t then
    if (s.mutex m).recursive ≥ 0 then
      some ((s.setRecursive m ((s.mutex m).recursive + 1)).setHeld m t (s.held m t + 1))
    else none
  else some (s.waitMutex m t (.locking m))

/-- What `irqDoMutexLockToDepth` does when the thread owns the mutex. -/
def setDepth (s : Pthread M C T) (m : M) (depth : ℕ) : Pthread M C T :=
  if (s.mutex m).recursive ≥ 0 then s.setRecursive m depth else s

/-- `pthread_cond_wait` returns. -/
def condReturn (s : Pthread M C T) (m : M) (t : T) : Pthread M C T :=
  { (s.setHeld m t (s.saved t).1).setPc t .idle with
    condReturned := s.condReturned ++ [((s.saved t).2, (s.mutex m).recursive)] }

def irqDoMutexLockToDepth (s : Pthread M C T) (m : M) (t : T) (depth : ℕ) : Option (Pthread M C T) :=
  if (s.mutex m).owner = none then
    some (((s.setOwner m (some t)).setDepth m depth).condReturn m t)
  else if (s.mutex m).owner = some t then
    if (s.mutex m).recursive ≥ 0 then some ((s.setRecursive m depth).condReturn m t) else none
  else some (s.waitMutex m t (.relocking m depth))

/-- Give the mutex to the first thread of the list, if any. -/
def handOver (s : Pthread M C T) (m : M) : Pthread M C T :=
  let x := s.mutex m
  match x.first with
  | none => s.setOwner m none
  | some t =>
    { s.setWait t false with
      mutex := Function.update s.mutex m { x with owner := some t, first := s.mutexNext t }
      granted := Function.update s.granted m (s.granted m ++ [t]) }

def irqDoMutexUnlock (s : Pthread M C T) (m : M) : Pthread M C T :=
  if (s.mutex m).recursive > 0 then s.setRecursive m ((s.mutex m).recursive - 1) else s.handOver m

/-- The mutex is released, and its depth is returned. -/
def irqDoMutexUnlockAllDepthLevels (s : Pthread M C T) (m : M) : Pthread M C T × ℕ :=
  let s' := s.handOver m
  if (s.mutex m).recursive < 0 then (s', 0) else (s'.setRecursive m 0, (s.mutex m).recursive.toNat)

def pthreadMutexTrylock (s : Pthread M C T) (m : M) (t : T) : Pthread M C T × Bool :=
  if (s.mutex m).owner = none then
    ((s.setOwner m (some t)).setHeld m t (s.held m t + 1), true)
  else if (s.mutex m).owner = some t ∧ (s.mutex m).recursive ≥ 0 then
    ((s.setRecursive m ((s.mutex m).recursive + 1)).setHeld m t (s.held m t + 1), true)
  else (s, false)

/-! ## Condition variables -/

/-- Put the current thread last on the list of the condition variable. -/
def enqueueCond (s : Pthread M C T) (c : C) (t : T) : Pthread M C T :=
  let x := s.cond c
  { s with
    condNext := LinkedQueue.appendNext s.condNext x.first x.last t
    cond := Function.update s.cond c ⟨LinkedQueue.appendFirst x.first t, some t⟩
    condWait := Function.update s.condWait t true
    waited := Function.update s.waited c (s.waited c ++ [t]) }

/-- The first section of `pthread_cond_wait`. -/
def pthreadCondWait (s : Pthread M C T) (c : C) (m : M) (t : T) : Pthread M C T :=
  let (s', depth) := (s.enqueueCond c t).irqDoMutexUnlockAllDepthLevels m
  { (s'.setHeld m t 0).setPc t (.condWaiting c m depth) with
    saved := Function.update s.saved t (s.held m t, (s.mutex m).recursive) }

/-- Release the thread of the first node. -/
def release (s : Pthread M C T) (c : C) (t : T) : Pthread M C T :=
  { s with
    condWait := Function.update s.condWait t false
    cond := Function.update s.cond c { s.cond c with first := s.condNext t }
    released := Function.update s.released c (s.released c ++ [t]) }

def pthreadCondSignal (s : Pthread M C T) (c : C) : Pthread M C T :=
  match (s.cond c).first with
  | none => s
  | some t => s.release c t

/-- The loop of `pthread_cond_broadcast`, for at most `fuel` nodes. -/
def pthreadCondBroadcast : ℕ → Pthread M C T → C → Option (Pthread M C T)
  | 0, _, _ => none
  | fuel + 1, s, c =>
    match (s.cond c).first with
    | none => some s
    | some t => pthreadCondBroadcast fuel (s.release c t) c

/-! ## Interleavings -/

/-- The next section of a suspended thread. -/
def resume (s : Pthread M C T) (t : T) : Option (Pthread M C T) :=
  match s.pc t with
  | .idle => none
  | .locking m =>
    if (s.mutex m).owner = some t then some ((s.setHeld m t (s.held m t + 1)).setPc t .idle)
    else some (s.setWait t true)
  | .condWaiting _ m depth => s.irqDoMutexLockToDepth m t depth
  | .relocking m depth =>
    if (s.mutex m).owner = some t then some ((s.setDepth m depth).condReturn m t)
    else some (s.setWait t true)

inductive Event (M C T : Type) where
  | lock (t : T) (m : M)
  | trylock (t : T) (m : M)
  | unlock (t : T) (m : M)
  | condWait (t : T) (c : C) (m : M)
  | condSignal (c : C)
  | condBroadcast (c : C) (fuel : ℕ)
  | resume (t : T)
  | wakeup (t : T)

/-- The thread owns the mutex and is not suspended. -/
def owns (s : Pthread M C T) (t : T) (m : M) : Prop := s.pc t = .idle ∧ (s.mutex m).owner = some t

instance (s : Pthread M C T) (t : T) (m : M) : Decidable (s.owns t m) :=
  inferInstanceAs (Decidable (_ ∧ _))

/-- Only the owner unlocks a mutex or waits with it. -/
def step (s : Pthread M C T) : Event M C T → Option (Pthread M C T)
  | .lock t m => if s.pc t = .idle then s.irqDoMutexLock m t else none
  | .trylock t m => if s.pc t = .idle then some (s.pthreadMutexTrylock m t).1 else none
  | .unlock t m =>
    if s.owns t m then some ((s.irqDoMutexUnlock m).setHeld m t (s.held m t - 1)) else none
  | .condWait t c m => if s.owns t m then some (s.pthreadCondWait c m t) else none
  | .condSignal c => some (s.pthreadCondSignal c)
  | .condBroadcast c fuel => pthreadCondBroadcast fuel s c
  | .resume t => if s.wait t || s.condWait t then none else s.resume t
  | .wakeup t => some (s.setWait t false)

def run : Pthread M C T → List (Event M C T) → Option (Pthread M C T)
  | s, [] => some s
  | s, e :: events => (s.step e).bind fun s' => run s' events

/-- No mutex is locked. The pointers to the last nodes and the nodes hold anything. -/
def init (isRecursive : M → Bool) (mutexLast : M → Option T) (condLast : C → Option T)
    (mutexNext condNext : T → Option T) (saved : T → ℕ × ℤ) : Pthread M C T where
  mutex m := ⟨none, none, mutexLast m, if isRecursive m then 0 else -1⟩
  cond c := ⟨none, condLast c⟩
  mutexNext := mutexNext
  condNext := condNext
  wait _ := false
  condWait _ := false
  pc _ := .idle
  held _ _ := 0
  saved := saved
  arrived _ := []
  granted _ := []
  waited _ := []
  released _ := []
  condReturned := []

end Pthread

end Miosix
