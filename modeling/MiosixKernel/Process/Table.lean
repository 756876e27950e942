import MiosixKernel.Lib.History
import MiosixKernel.Sched.Model
import Mathlib.Data.List.Nodup
import Mathlib.Data.Int.Notation
import Mathlib.Logic.Function.Basic

/-!
# The process table: the model

The table maps each pid to its process, zombies included. Every section that holds `procMutex` is one
step. The kernel process has any number of threads and every other process has one; a thread that waits
in `waitpid` goes on once the condition variable it waits on was broadcast.

* `Tid`, `WaitPoint`: the threads, and where each is in `waitpid`;
* `ProcessTable`: the fields of the processes, the table, what happened so far;
* `getNewPid`, `create`, `waitpid`, `resume`, `exit`: the sections;
* `step`, `run`.
-/

namespace Miosix

open Lib

/-- A thread: one of the kernel's, or the one of a process. -/
inductive Tid (K P : Type) where
  | kernel (thread : K)
  | process (process : P)
deriving DecidableEq

/-- Where a thread is. One that waits knows if its caller wants the exit code, and if it was woken. -/
inductive WaitPoint (P : Type) where
  | absent
  | running
  | generic (exit woken : Bool)
  | specific (joined : P) (exit woken : Bool)
  | ended
deriving DecidableEq

/-- What can happen to a process. The exit code is `none` if the caller of `waitpid` does not want it. -/
inductive ProcessHappening (K P : Type) where
  | exited (process : P) (exitCode : ℤ)
  | returned (thread : Tid K P) (process : P) (exitCode : Option ℤ)
  | deleted (process : P)
deriving DecidableEq

/-- The processes that are allocated and their fields, the table, the places of the threads, the
processes there ever were, and what happened to them with the newest first. -/
structure ProcessTable (K P : Type) where
  live : P → Bool
  pid : P → ℤ
  ppid : P → ℤ
  childs : P → List P
  zombies : P → List P
  waitCount : P → ℤ
  zombie : P → Bool
  exitCode : P → ℤ
  processes : ℤ → Option P
  pidCounter : ℤ
  kernel : P
  point : Tid K P → WaitPoint P
  created : List P
  history : List (ProcessHappening K P)

inductive ProcessEvent (K P : Type) where
  | create (thread : Tid K P) (process : P) (fuel : ℕ)
  | waitpid (thread : Tid K P) (pid : ℤ) (exit nohang : Bool)
  | resume (thread : Tid K P)
  | exit (process : P) (exitCode : ℤ)

/-- The greatest value of a `pid_t`. -/
def pidMax : ℤ := 2147483647

/-- `pidCounter++`, which wraps around. -/
def nextPid (n : ℤ) : ℤ := if n = pidMax then -pidMax - 1 else n + 1

/-- The loop of `getNewPid`: the pid, and the counter after it. It goes round while the pid is in use. -/
def getNewPid {P : Type} (processes : ℤ → Option P) : ℕ → ℤ → Option (ℤ × ℤ)
  | 0, _ => none
  | fuel + 1, pidCounter =>
    let pidCounter := if pidCounter < 0 then 1 else pidCounter
    if pidCounter = 0 then getNewPid processes fuel (nextPid pidCounter)
    else if (processes pidCounter).isSome then getNewPid processes fuel (nextPid pidCounter)
    else some (pidCounter, nextPid pidCounter)

namespace ProcessTable

variable {K P : Type} [DecidableEq K] [DecidableEq P]

/-- Only the kernel is there, with its threads. -/
def initial (K : Type) (kernel : P) : ProcessTable K P where
  live p := p = kernel
  pid _ := 0
  ppid _ := 0
  childs _ := []
  zombies _ := []
  waitCount _ := 0
  zombie _ := false
  exitCode _ := 0
  processes n := if n = 0 then some kernel else none
  pidCounter := 0
  kernel := kernel
  point
    | .kernel _ => .running
    | .process _ => .absent
  created := [kernel]
  history := []

/-- The process a thread belongs to. -/
def owner (s : ProcessTable K P) : Tid K P → P
  | .kernel _ => s.kernel
  | .process p => p

/-- Follow a pointer to a process. -/
def check (s : ProcessTable K P) (p : P) : Except Fault Unit :=
  if s.live p then pure () else throw .badAccess

def goto (s : ProcessTable K P) (t : Tid K P) (w : WaitPoint P) : ProcessTable K P :=
  { s with point := Function.update s.point t w }

/-! ## Sections -/

/-- The first section of `Process::create`, that gives the process its place in the table. -/
def create (s : ProcessTable K P) (t : Tid K P) (proc : P) (fuel : ℕ) :
    Except Fault (ProcessTable K P) :=
  match getNewPid s.processes fuel s.pidCounter with
  | none => pure s
  | some (pid, pidCounter) => do
    let parent := s.owner t
    s.check parent
    pure { s with
      live := Function.update s.live proc true
      pid := Function.update s.pid proc pid
      ppid := Function.update s.ppid proc (s.pid parent)
      childs := Function.update (Function.update s.childs proc []) parent (s.childs parent ++ [proc])
      zombies := Function.update s.zombies proc []
      waitCount := Function.update s.waitCount proc 0
      zombie := Function.update s.zombie proc false
      exitCode := Function.update s.exitCode proc 0
      processes := Function.update s.processes pid (some proc)
      pidCounter := pidCounter
      point := Function.update s.point (.process proc) .running
      created := proc :: s.created }

/-- Remove a zombie from the list of its parent and from the table, return its exit code and delete
it. -/
def reap (s : ProcessTable K P) (t : Tid K P) (joined : P) (exit : Bool) : ProcessTable K P :=
  { s with
    live := Function.update s.live joined false
    processes := Function.update s.processes (s.pid joined) none
    point := Function.update s.point t .running
    history := .deleted joined ::
      .returned t joined (if exit then some (s.exitCode joined) else none) :: s.history }

/-- `waitpid` on any child, from the head of its loop. -/
def waitGeneric (s : ProcessTable K P) (t : Tid K P) (exit : Bool) :
    Except Fault (ProcessTable K P) := do
  let self := s.owner t
  s.check self
  match s.zombies self with
  | [] =>
    if s.childs self = [] then pure (s.goto t .running)
    else pure (s.goto t (.generic exit false))
  | joined :: rest =>
    let s := { s with zombies := Function.update s.zombies self rest }
    s.check joined
    if s.waitCount joined ≠ 0 then throw .unexpected
    else pure (s.reap t joined exit)

/-- `waitpid` on one child, once that is a zombie. -/
def finishWait (s : ProcessTable K P) (t : Tid K P) (joined : P) (exit : Bool) :
    Except Fault (ProcessTable K P) := do
  let self := s.owner t
  s.check joined
  if s.waitCount joined = 0 then
    s.check self
    let s := { s with
      zombies := Function.update s.zombies self ((s.zombies self).filter (· ≠ joined)) }
    pure (s.reap t joined exit)
  else pure (s.goto t .running)

def waitpid (s : ProcessTable K P) (t : Tid K P) (pid : ℤ) (exit nohang : Bool) :
    Except Fault (ProcessTable K P) := do
  let self := s.owner t
  s.check self
  if pid ≤ 0 then
    if s.zombies self = [] ∧ nohang then pure s else s.waitGeneric t exit
  else
    match s.processes pid with
    | none => pure s
    | some joined => do
      s.check joined
      if s.ppid joined ≠ s.pid self ∨ pid = s.pid self then pure s
      else if s.zombie joined then s.finishWait t joined exit
      else if nohang then pure s
      else
        let s := { s with
          waitCount := Function.update s.waitCount joined (s.waitCount joined + 1) }
        pure (s.goto t (.specific joined exit false))

/-- A thread goes on after `genericWaiting.wait(l)` or `joined->waiting.wait(l)`. -/
def resume (s : ProcessTable K P) (t : Tid K P) : Except Fault (ProcessTable K P) :=
  match s.point t with
  | .generic exit true => s.waitGeneric t exit
  | .specific joined exit true => do
    s.check joined
    let s := { s with waitCount := Function.update s.waitCount joined (s.waitCount joined - 1) }
    if s.waitCount joined < (0 : ℤ) ∨ s.zombie joined = false then throw .unexpected
    else s.finishWait t joined exit
  | _ => pure s

/-- The loops over the children of a process that ends. -/
def orphan (s : ProcessTable K P) : List P → Except Fault (ProcessTable K P)
  | [] => pure s
  | c :: l => do
    s.check c
    { s with ppid := Function.update s.ppid c 0 }.orphan l

/-- `proc->waiting.broadcast()`. -/
def wakeSpecific (proc : P) : WaitPoint P → WaitPoint P
  | .specific joined exit woken => .specific joined exit (woken || joined = proc)
  | p => p

/-- `genericWaiting.broadcast()`. -/
def wakeGeneric : WaitPoint P → WaitPoint P
  | .generic exit _ => .generic exit true
  | p => p

/-- Move the lists of a process that ends to the front of those of the kernel. -/
def splice (s : ProcessTable K P) (kernel proc : P) : ProcessTable K P :=
  { s with
    childs := Function.update (Function.update s.childs kernel (s.childs proc ++ s.childs kernel)) proc []
    zombies :=
      Function.update (Function.update s.zombies kernel (s.zombies proc ++ s.zombies kernel)) proc [] }

/-- The last section of `Process::start`. -/
def exit (s : ProcessTable K P) (proc : P) (exitCode : ℤ) : Except Fault (ProcessTable K P) := do
  s.check proc
  let s := { s with
    exitCode := Function.update s.exitCode proc exitCode
    zombie := Function.update s.zombie proc true
    history := .exited proc exitCode :: s.history }
  let s ← s.orphan (s.childs proc)
  let s ← s.orphan (s.zombies proc)
  match s.processes 0 with
  | none => throw .badAccess
  | some kernel => do
    s.check kernel
    let s := s.splice kernel proc
    match s.processes (s.ppid proc) with
    | none => throw .unexpected
    | some parent => do
      s.check parent
      let s := { s with
        childs := Function.update s.childs parent ((s.childs parent).filter (· ≠ proc)) }
      let s := s.goto (.process proc) .ended
      if s.waitCount proc > 0 then
        pure { s with point := fun t => wakeSpecific proc (s.point t) }
      else
        pure { s with
          zombies := Function.update s.zombies parent (s.zombies parent ++ [proc])
          point := fun t => wakeGeneric (s.point t) }

/-! ## Runs -/

/-- A step of the system. An event of a thread that is elsewhere does nothing. -/
def step (s : ProcessTable K P) : ProcessEvent K P → Except Fault (ProcessTable K P)
  | .create t proc fuel =>
    if s.point t = .running ∧ proc ∉ s.created then s.create t proc fuel else pure s
  | .waitpid t pid exit nohang =>
    if s.point t = .running then s.waitpid t pid exit nohang else pure s
  | .resume t => s.resume t
  | .exit proc exitCode =>
    if s.point (.process proc) = .running then s.exit proc exitCode else pure s

def run (s : ProcessTable K P) : List (ProcessEvent K P) → Except Fault (ProcessTable K P)
  | [] => pure s
  | e :: es => do
    let s ← s.step e
    s.run es

end ProcessTable

end Miosix
