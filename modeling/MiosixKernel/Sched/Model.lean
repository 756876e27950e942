import MiosixKernel.Lib.Loop
import Mathlib.Logic.Function.Basic

/-!
# The priority scheduler: the model

Each priority has a circular singly linked list of threads, entered through `thread_list`. The
threads live in a memory that `PKremoveDeadThreads` frees, so that reading a thread that is not there
is the fault `badAccess`; `errorHandler(UNEXPECTED)` and a loop that does not end are faults too.

* `Thread`, `PriorityScheduler`: the data;
* `pkAddThread`, `pkExists`, `pkSetPriority`, `pkRemoveDeadThreads`, `irqFindNextThread`.
-/

namespace Miosix

open Lib

/-- What can go wrong. -/
inductive Fault where
  | unexpected
  | badAccess
  | diverges
deriving DecidableEq

/-- The fields of a thread that the scheduler uses. -/
structure Thread (T : Type) where
  priority : ℕ
  next : Option T
  flags : ℕ
deriving DecidableEq

namespace Thread

variable {T : Type}

def isReady (t : Thread T) : Bool := t.flags &&& 0x67 == 0

/-- Both the deleted and the detached flag are set. -/
def isDeleted (t : Thread T) : Bool := t.flags &&& 0x14 == 0x14

end Thread

structure PriorityScheduler (T : Type) where
  mem : T → Option (Thread T)
  threadList : ℕ → Option T
  idle : T
  cur : T
  kernelRunning : ℕ

namespace PriorityScheduler

variable {T : Type} [DecidableEq T]

/-! ## Memory -/

def load (s : PriorityScheduler T) (t : T) : Except Fault (Thread T) :=
  match s.mem t with
  | some o => .ok o
  | none => .error .badAccess

def modify (s : PriorityScheduler T) (t : T) (f : Thread T → Thread T) :
    Except Fault (PriorityScheduler T) := do
  let o ← s.load t
  pure { s with mem := Function.update s.mem t (some (f o)) }

/-- `t->schedData.next`, about to be followed. -/
def next (s : PriorityScheduler T) (t : T) : Except Fault T := do
  let o ← s.load t
  match o.next with
  | some n => pure n
  | none => throw .badAccess

def setNext (s : PriorityScheduler T) (t n : T) : Except Fault (PriorityScheduler T) :=
  s.modify t fun o => { o with next := some n }

def setHead (s : PriorityScheduler T) (i : ℕ) (h : Option T) : PriorityScheduler T :=
  { s with threadList := Function.update s.threadList i h }

/-- Call the destructor and delete all thread memory. -/
def free (s : PriorityScheduler T) (t : T) : PriorityScheduler T :=
  { s with mem := Function.update s.mem t none }

/-- A thread object that was just constructed, and is in no list. -/
def create (s : PriorityScheduler T) (t : T) (flags : ℕ) : PriorityScheduler T :=
  { s with mem := Function.update s.mem t (some ⟨0, none, flags⟩) }

/-! ## Insertion -/

/-- Insert after the head, which is where the next search starts. -/
def insert (s : PriorityScheduler T) (thread : T) (i : ℕ) : Except Fault (PriorityScheduler T) :=
  match s.threadList i with
  | none => (s.setHead i (some thread)).setNext thread thread
  | some head => do
    let n ← s.next head
    let s ← s.setNext thread n
    s.setNext head thread

def pkAddThread (s : PriorityScheduler T) (thread : T) (priority : ℕ) :
    Except Fault (PriorityScheduler T) := do
  let s ← s.modify thread fun o => { o with priority := priority }
  s.insert thread priority

/-! ## Removal of a thread -/

/-- Walk to the tail of the list. -/
def tailStep (s : PriorityScheduler T) (head tail : T) : Except Fault (Flow T T) := do
  let n ← s.next tail
  if n = head then pure (.done tail) else pure (.next n)

def findTail (s : PriorityScheduler T) (fuel : ℕ) (head : T) : Except Fault T :=
  forever .diverges (s.tailStep head) fuel head

/-- Walk to the thread before `thread`, which is not the head, and unlink it. -/
def unlinkStep (s : PriorityScheduler T) (head thread temp : T) :
    Except Fault (Flow T (PriorityScheduler T)) := do
  let n ← s.next temp
  if n = head then throw .unexpected
  else if n = thread then
    let s ← s.setNext temp (← s.next n)
    pure (.done s)
  else pure (.next n)

def remove (s : PriorityScheduler T) (fuel : ℕ) (thread : T) (i : ℕ) :
    Except Fault (PriorityScheduler T) :=
  match s.threadList i with
  | none => throw .badAccess
  | some head =>
    if head = thread then do
      let n ← s.next head
      if n = head then pure (s.setHead i none)
      else
        let tail ← s.findTail fuel head
        (s.setHead i (some n)).setNext tail n
    else forever .diverges (s.unlinkStep head thread) fuel head

def pkSetPriority (s : PriorityScheduler T) (fuel : ℕ) (thread : T) (newPriority : ℕ) :
    Except Fault (PriorityScheduler T) := do
  let oldPriority := (← s.load thread).priority
  let s ← s.modify thread fun o => { o with priority := newPriority }
  let s ← s.remove fuel thread oldPriority
  s.insert thread newPriority

/-! ## Removal of the dead threads -/

/-- Remove the head while it is deleted. The tail is calculated the first time. -/
def purgeHeadStep (fuel i : ℕ) :
    PriorityScheduler T × Option T →
      Except Fault (Flow (PriorityScheduler T × Option T) (PriorityScheduler T))
  | (s, tail) =>
    match s.threadList i with
    | none => throw .badAccess
    | some head => do
      if (← s.load head).isDeleted = false then pure (.done s)
      else
        let n ← s.next head
        if n = head then pure (.done ((s.free head).setHead i none))
        else
          let tail ← match tail with
            | some tail => pure tail
            | none => s.findTail fuel head
          let s ← (s.setHead i (some n)).setNext tail n
          pure (.next (s.free head, some tail))

/-- Remove the deleted threads after the head. -/
def purgeRestStep (head : T) :
    PriorityScheduler T × T → Except Fault (Flow (PriorityScheduler T × T) (PriorityScheduler T))
  | (s, temp) => do
    let n ← s.next temp
    if n = head then pure (.done s)
    else if (← s.load n).isDeleted then
      let s ← s.setNext temp (← s.next n)
      pure (.next (s.free n, temp))
    else pure (.next (s, n))

def purgeList (fuel i : ℕ) (s : PriorityScheduler T) : Except Fault (PriorityScheduler T) :=
  match s.threadList i with
  | none => pure s
  | some _ => do
    let s ← forever .diverges (purgeHeadStep fuel i) fuel (s, none)
    match s.threadList i with
    | none => pure s
    | some head => forever .diverges (purgeRestStep head) fuel (s, head)

/-- The loop over the priorities, from the highest one. -/
def pkRemoveDeadThreads (fuel : ℕ) :
    ℕ → PriorityScheduler T → Except Fault (PriorityScheduler T)
  | 0, s => pure s
  | i + 1, s => do
    let s ← s.purgeList fuel i
    pkRemoveDeadThreads fuel i s

/-! ## Selection -/

/-- Look for a ready thread, starting after the head. -/
def findStep (s : PriorityScheduler T) (head temp : T) : Except Fault (Flow T (Option T)) := do
  if (← s.load temp).isReady then pure (.done (some temp))
  else
    let n ← s.next temp
    if n = (← s.next head) then pure (.done none) else pure (.next n)

def findIn (s : PriorityScheduler T) (fuel i : ℕ) : Except Fault (Option T) :=
  match s.threadList i with
  | none => pure none
  | some head => do
    let temp ← s.next head
    forever .diverges (s.findStep head) fuel temp

/-- The loop over the priorities, from the highest one. -/
def findFrom (fuel : ℕ) : ℕ → PriorityScheduler T → Except Fault (PriorityScheduler T)
  | 0, s => pure { s with cur := s.idle }
  | i + 1, s => do
    match ← s.findIn fuel i with
    | some temp => pure { s.setHead i (some temp) with cur := temp }
    | none => findFrom fuel i s

def irqFindNextThread (fuel priorityMax : ℕ) (s : PriorityScheduler T) :
    Except Fault (PriorityScheduler T) :=
  if s.kernelRunning ≠ 0 then pure s else findFrom fuel priorityMax s

/-! ## Search -/

/-- Look for a thread, starting from the head. -/
def existsStep (s : PriorityScheduler T) (head thread temp : T) : Except Fault (Flow T Bool) := do
  if temp = thread && !(← s.load temp).isDeleted then pure (.done true)
  else
    let n ← s.next temp
    if n = head then pure (.done false) else pure (.next n)

def pkExists (s : PriorityScheduler T) (fuel : ℕ) (thread : T) : ℕ → Except Fault Bool
  | 0 => pure false
  | i + 1 =>
    match s.threadList i with
    | none => s.pkExists fuel thread i
    | some head => do
      if ← forever .diverges (s.existsStep head thread) fuel head then pure true
      else s.pkExists fuel thread i

end PriorityScheduler

end Miosix
