import MiosixKernel.Sched.Invariant

/-!
# Joining, detaching and ending threads: the model

The thread that waits to join another and the result of a thread that ended share the union `joinData`,
whose meaning depends on the flags of the thread. Every section with interrupts disabled or with the
kernel paused is one step, and the scheduler may run any ready thread next.

* `ThreadFlags`: the flags `DELETED`, `DETACHED` and `WAIT_JOIN`;
* `JoinData`, `UnionRead`: the union, with the member written last, and the reads of it;
* `JoinSystem`: the scheduler, the unions, the place of each thread in its code, what happened so far;
* `join`, `resumeJoin`, `detach`, `threadLauncher`, `purge`: the sections;
* `step`, `run`.
-/

namespace Miosix

open Lib

/-! ## Flags -/

namespace ThreadFlags

def deleted : ℕ := 1 <<< 2

def detached : ℕ := 1 <<< 4

def waitJoin : ℕ := 1 <<< 5

/-- `flags &= ~mask`. -/
def clear (flags mask : ℕ) : ℕ := flags ^^^ (flags &&& mask)

/-- The thread ended. -/
def isDeletedJoin (flags : ℕ) : Bool := flags &&& deleted != 0

def isDetached (flags : ℕ) : Bool := flags &&& detached != 0

def isWaitingJoin (flags : ℕ) : Bool := flags &&& waitJoin != 0

end ThreadFlags

/-! ## The union -/

/-- The members of `joinData`. -/
inductive Member where
  | waitingForJoin
  | result
deriving DecidableEq

/-- The union `joinData`, with the member that was written last. `none` is the null pointer. -/
inductive JoinData (T V : Type) where
  | waitingForJoin (thread : Option T)
  | result (value : Option V)
deriving DecidableEq

namespace JoinData

variable {T V : Type}

def active : JoinData T V → Member
  | waitingForJoin _ => .waitingForJoin
  | result _ => .result

/-- Compare the word with `NULL`, whichever member it belongs to. -/
def isNull : JoinData T V → Bool
  | waitingForJoin thread => thread.isNone
  | result value => value.isNone

end JoinData

inductive JoinOperation where
  | detach
  | join
  | threadLauncher
deriving DecidableEq

/-- One read of the union of a thread: the member that was read and the one written last, and whether
the value was used or only compared with `NULL`. -/
structure UnionRead (T : Type) where
  operation : JoinOperation
  thread : T
  member : Member
  active : Member
  used : Bool
deriving DecidableEq

/-! ## Threads -/

/-- What can happen to a thread. A join is complete once it has set the detached flag, and returns true
later; its result is `none` when the caller passed no place for it. -/
inductive Happening (T V : Type) where
  | created (thread : T) (joinable : Bool)
  | detached (thread : T)
  | terminated (thread : T) (result : Option V)
  | joined (joiner thread : T) (result : Option (Option V))
  | returned (joiner thread : T) (result : Option (Option V))
  | freed (thread : T)
deriving DecidableEq

/-- The thread it happens to. -/
def Happening.thread {T V : Type} : Happening T V → T
  | created thread _ | detached thread | terminated thread _ | joined _ thread _
  | returned _ thread _ | freed thread => thread

/-- Where a thread is in its code. -/
inductive JoinPoint (T V : Type) where
  | fresh
  | running
  | waiting (this : T) (wanted : Bool)
  | joined (this : T) (result : Option (Option V))
  | ended
deriving DecidableEq

/-- The scheduler and the unions, and what the threads did: `created` lists all the threads there ever
were, `history` and `reads` have the newest first. -/
@[ext]
structure JoinSystem (T V : Type) where
  sched : PriorityScheduler T
  joinData : T → JoinData T V
  existDeleted : Bool
  point : T → JoinPoint T V
  created : List T
  history : List (Happening T V)
  reads : List (UnionRead T)

inductive JoinEvent (T V : Type) where
  | create (thread : T) (priority : ℕ) (joinable : Bool)
  | setPriority (thread : T) (newPriority : ℕ)
  | find
  | join (cur this : T) (wanted : Bool)
  | resume (cur : T)
  | removeDead (cur : T)
  | detach (cur this : T)
  | terminate (cur : T) (result : Option V)
  | idle

namespace JoinSystem

variable {T V : Type}

/-- No thread was created yet. -/
def initial (idle : T) : JoinSystem T V :=
  ⟨⟨fun _ => none, fun _ => none, idle, idle, 0⟩, fun _ => .waitingForJoin none, false,
    fun _ => .fresh, [], [], []⟩

def waitingJoin (s : JoinSystem T V) (t : T) : Bool :=
  (s.sched.flagsOf t).any ThreadFlags.isWaitingJoin

/-- Record a read of the union of `t`. -/
def readUnion (s : JoinSystem T V) (operation : JoinOperation) (t : T) (member : Member)
    (used : Bool) : JoinSystem T V :=
  { s with reads := ⟨operation, t, member, (s.joinData t).active, used⟩ :: s.reads }

variable [DecidableEq T]

/-- Change the flags of a thread. Freed memory is not used again, so that writing to it changes no
thread. -/
def modifyFlags (s : JoinSystem T V) (t : T) (f : ℕ → ℕ) : JoinSystem T V :=
  { s with sched := { s.sched with
      mem := Function.update s.sched.mem t
        ((s.sched.mem t).map fun o => { o with flags := f o.flags }) } }

def goto (s : JoinSystem T V) (t : T) (p : JoinPoint T V) : JoinSystem T V :=
  { s with point := Function.update s.point t p }

def setJoinData (s : JoinSystem T V) (t : T) (d : JoinData T V) : JoinSystem T V :=
  { s with joinData := Function.update s.joinData t d }

def note (s : JoinSystem T V) (h : Happening T V) : JoinSystem T V :=
  { s with history := h :: s.history }

/-- `joinData.waitingForJoin->flags.IRQsetJoinWait(false)`. -/
def wakeJoiner (s : JoinSystem T V) (operation : JoinOperation) (this : T) :
    Except Fault (JoinSystem T V) :=
  match s.joinData this with
  | .waitingForJoin (some joiner) =>
    pure ((s.readUnion operation this .waitingForJoin true).modifyFlags joiner
      (ThreadFlags.clear · ThreadFlags.waitJoin))
  | _ => throw .badAccess

/-- `*result=this->joinData.result`. -/
def readResult (s : JoinSystem T V) (this : T) : Except Fault (JoinSystem T V × Option V) :=
  match s.joinData this with
  | .result value => pure (s.readUnion .join this .result true, value)
  | _ => throw .badAccess

/-! ## Sections -/

/-- The thread ended: setting the detached flag lets its memory be deallocated. -/
def completeJoin (s : JoinSystem T V) (cur this : T) (wanted : Bool) :
    Except Fault (JoinSystem T V) := do
  let s := s.modifyFlags this (· ||| ThreadFlags.detached)
  if wanted then
    let (s, value) ← s.readResult this
    pure ((s.goto cur (.joined this (some value))).note (.joined cur this (some value)))
  else pure ((s.goto cur (.joined this none)).note (.joined cur this none))

def irqJoinWait (s : JoinSystem T V) (cur this : T) (wanted : Bool) : JoinSystem T V :=
  (s.modifyFlags cur (· ||| ThreadFlags.waitJoin)).goto cur (.waiting this wanted)

variable (fuel priorityMax : ℕ)

/-- `Thread::join`, up to the first wait. A join that returns false leaves the caller running. -/
def join (s : JoinSystem T V) (cur this : T) (wanted : Bool) : Except Fault (JoinSystem T V) := do
  if this = cur then pure s
  else if !(← s.sched.pkExists fuel this priorityMax) then pure s
  else
    let flags := (← s.sched.load this).flags
    if ThreadFlags.isDetached flags then pure s
    else if ThreadFlags.isDeletedJoin flags then s.completeJoin cur this wanted
    else
      let s := s.readUnion .join this .waitingForJoin false
      -- another thread already called join
      if !(s.joinData this).isNull then pure s
      else pure ((s.setJoinData this (.waitingForJoin (some cur))).irqJoinWait cur this wanted)

/-- The body of the loop of `Thread::join`, after the wait. -/
def resumeJoin (s : JoinSystem T V) (cur this : T) (wanted : Bool) :
    Except Fault (JoinSystem T V) := do
  if !(← s.sched.pkExists fuel this priorityMax) then pure (s.goto cur .running)
  else
    let flags := (← s.sched.load this).flags
    if ThreadFlags.isDetached flags then pure (s.goto cur .running)
    else if ThreadFlags.isDeletedJoin flags then s.completeJoin cur this wanted
    else pure (s.irqJoinWait cur this wanted)

/-- `Scheduler::PKremoveDeadThreads`, recording which threads it freed. -/
def purge (s : JoinSystem T V) : Except Fault (JoinSystem T V) := do
  let sched ← PriorityScheduler.pkRemoveDeadThreads fuel priorityMax s.sched
  let freed := s.created.filter fun t => (s.sched.mem t).isSome && (sched.mem t).isNone
  pure { s with sched := sched, history := freed.map .freed ++ s.history }

def detach (s : JoinSystem T V) (this : T) : Except Fault (JoinSystem T V) := do
  let s := s.modifyFlags this (· ||| ThreadFlags.detached)
  let flags := (← s.sched.load this).flags
  let s := { s with existDeleted := s.existDeleted || ThreadFlags.isDeletedJoin flags }
  let s := s.readUnion .detach this .waitingForJoin false
  if !(s.joinData this).isNull then
    -- the content can be an invalid thread, if the thread already ended
    if !ThreadFlags.isDeletedJoin flags then
      let s ← s.wakeJoiner .detach this
      pure (s.note (.detached this))
    else pure (s.note (.detached this))
  else pure (s.note (.detached this))

/-- The end of `Thread::threadLauncher`, once the entry point returned `result`. -/
def threadLauncher (s : JoinSystem T V) (cur : T) (result : Option V) :
    Except Fault (JoinSystem T V) := do
  let s := s.modifyFlags cur (· ||| ThreadFlags.deleted)
  let flags := (← s.sched.load cur).flags
  let s := (s.goto cur .ended).note (.terminated cur result)
  if !ThreadFlags.isDetached flags then
    let s := s.readUnion .threadLauncher cur .waitingForJoin false
    if !(s.joinData cur).isNull then
      let s ← s.wakeJoiner .threadLauncher cur
      pure (s.setJoinData cur (.result result))
    else pure (s.setJoinData cur (.result result))
  else pure { s with existDeleted := true }

/-! ## Runs -/

/-- A step of the system. An event that cannot take place, such as one of a thread that is not ready or
is elsewhere in its code, does nothing. A thread can be detached until its memory is freed, and a
freed thread is not created again. -/
def step (s : JoinSystem T V) : JoinEvent T V → Except Fault (JoinSystem T V)
  | .create thread priority joinable =>
    if thread ∈ s.created ∨ thread = s.sched.idle ∨ priorityMax ≤ priority then pure s
    else do
      let flags := if joinable then 0 else ThreadFlags.detached
      let sched ← (s.sched.create thread flags).pkAddThread thread priority
      pure ((({ s with sched := sched, created := thread :: s.created }.setJoinData thread
        (.waitingForJoin none)).goto thread .running).note (.created thread joinable))
  | .setPriority thread newPriority =>
    if (s.sched.mem thread).isNone ∨ priorityMax ≤ newPriority then pure s
    else do
      let sched ← s.sched.pkSetPriority fuel thread newPriority
      pure { s with sched := sched }
  | .find => do
    let sched ← PriorityScheduler.irqFindNextThread fuel priorityMax s.sched
    pure { s with sched := sched }
  | .join cur this wanted =>
    match s.sched.ready cur, s.point cur with
    | true, .running => s.join fuel priorityMax cur this wanted
    | _, _ => pure s
  | .resume cur =>
    match s.sched.ready cur, s.point cur with
    | true, .waiting this wanted => s.resumeJoin fuel priorityMax cur this wanted
    | _, _ => pure s
  | .removeDead cur =>
    match s.sched.ready cur, s.point cur with
    | true, .joined this result => do
      let s ← s.purge fuel priorityMax
      pure ((s.goto cur .running).note (.returned cur this result))
    | _, _ => pure s
  | .detach cur this =>
    match s.sched.ready cur, s.point cur with
    | true, .running => if (s.sched.mem this).isNone then pure s else s.detach this
    | _, _ => pure s
  | .terminate cur result =>
    match s.sched.ready cur, s.point cur with
    | true, .running => s.threadLauncher cur result
    | _, _ => pure s
  | .idle =>
    if s.existDeleted then { s with existDeleted := false }.purge fuel priorityMax else pure s

def run (s : JoinSystem T V) : List (JoinEvent T V) → Except Fault (JoinSystem T V)
  | [] => pure s
  | e :: es => do
    let s ← s.step fuel priorityMax e
    s.run es

end JoinSystem

end Miosix
