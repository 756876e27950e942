import MiosixKernel.Lib.Log
import MiosixKernel.Lib.Ring

/-!
# The queue between one producer and one consumer

`Queue` is a ring buffer with a single field for the thread that waits, shared by both sides. A section
with interrupts disabled is one step; a thread inside a wait loop goes on when its wait flag is clear,
whoever cleared it.

* `Queue`, `QueueSystem`: the data, with the flags of the two threads and the history of the elements;
* `irqWakeWaitingThread`, `waitLoop`, `irqGet`, `irqPut`, `irqReset`: the sections;
* `step`, `run`: interleavings;
* `puts`, `gets`: what the calls that come back put in the queue and obtain from it, and what resets discard;
* `Registered`: the invariant;
* **`run_queue`**: it holds of every interleaving.
-/

namespace Miosix

open Lib

inductive Side where
  | producer
  | consumer
deriving DecidableEq

structure Queue (α : Type) where
  /-- Queued elements are put here. Used as a ring buffer. -/
  buffer : ℕ → α
  /-- If not null holds the thread waiting. -/
  waiting : Option Side
  numElem : ℕ
  putPos : ℕ
  getPos : ℕ

/-- The functions that can block. -/
inductive QueueOp (α : Type) where
  | waitUntilNotEmpty
  | waitUntilNotFull
  | get
  | put (elem : α)

/-- Who calls the function. -/
def QueueOp.side {α : Type} : QueueOp α → Side
  | .waitUntilNotEmpty => .consumer
  | .waitUntilNotFull => .producer
  | .get => .consumer
  | .put _ => .producer

structure QueueSystem (α : Type) where
  queue : Queue α
  /-- The wait flag of each thread. -/
  wait : Side → Bool
  /-- The function in whose wait loop a thread is suspended. -/
  inside : Side → Option (QueueOp α)
  /-- The elements put in the queue so far. -/
  accepted : List α
  /-- The elements that left the queue so far, and whether they were obtained from it. -/
  departed : List (α × Bool)

namespace QueueSystem

variable {α : Type} {len : ℕ} {s s' : QueueSystem α} {op : QueueOp α} {t : Side}

/-- The elements obtained from the queue. -/
def obtained (s : QueueSystem α) : List α := (s.departed.filter (·.2)).map (·.1)

/-- The elements that resets discarded. -/
def discarded (s : QueueSystem α) : List α := (s.departed.filter (!·.2)).map (·.1)

/-- The elements in the queue. -/
def contents (len : ℕ) (s : QueueSystem α) : List α :=
  ringContents len s.queue.buffer s.queue.getPos s.queue.numElem

/-! ## Sections -/

/-- Wake an eventual waiting thread. -/
def irqWakeWaitingThread (s : QueueSystem α) : QueueSystem α :=
  match s.queue.waiting with
  | none => s
  | some t =>
    { s with wait := Function.update s.wait t false, queue := { s.queue with waiting := none } }

def isEmpty (s : QueueSystem α) : Bool := s.queue.numElem == 0

def isFull (len : ℕ) (s : QueueSystem α) : Bool := s.queue.numElem == len

/-- Take the element at `getPos`. -/
def takeElem (len : ℕ) (s : QueueSystem α) : QueueSystem α :=
  { s with
    queue := { s.queue with
      numElem := s.queue.numElem - 1
      getPos := if s.queue.getPos + 1 = len then 0 else s.queue.getPos + 1 }
    departed := s.departed ++ [(s.queue.buffer s.queue.getPos, true)] }

/-- Store an element at `putPos`. -/
def storeElem (len : ℕ) (s : QueueSystem α) (elem : α) : QueueSystem α :=
  { s with
    queue := { s.queue with
      numElem := s.queue.numElem + 1
      buffer := Function.update s.queue.buffer s.queue.putPos elem
      putPos := if s.queue.putPos + 1 = len then 0 else s.queue.putPos + 1 }
    accepted := s.accepted ++ [elem] }

/-- The condition of the loop of a function. -/
def mustWait (len : ℕ) (s : QueueSystem α) : QueueOp α → Bool
  | .waitUntilNotEmpty => s.isEmpty
  | .waitUntilNotFull => s.isFull len
  | .get => s.isEmpty
  | .put _ => s.isFull len

/-- What the function does after its loop. -/
def finish (len : ℕ) (s : QueueSystem α) : QueueOp α → QueueSystem α
  | .waitUntilNotEmpty => s
  | .waitUntilNotFull => s
  | .get => s.takeElem len
  | .put elem => s.storeElem len elem

/-- Register the current thread and let it wait. -/
def suspend (s : QueueSystem α) (op : QueueOp α) : QueueSystem α :=
  { s with
    queue := { s.queue with waiting := some op.side }
    wait := Function.update s.wait op.side true
    inside := Function.update s.inside op.side (some op) }

def leave (s : QueueSystem α) (t : Side) : QueueSystem α :=
  { s with inside := Function.update s.inside t none }

/-- From a wakeup of the waiting thread to the next wait, or to the end of the function. -/
def waitLoop (len : ℕ) (s : QueueSystem α) (op : QueueOp α) : QueueSystem α :=
  let s := s.irqWakeWaitingThread
  if s.mustWait len op then s.suspend op else (s.finish len op).leave op.side

def irqGet (len : ℕ) (s : QueueSystem α) : QueueSystem α × Bool :=
  let s := s.irqWakeWaitingThread
  if s.isEmpty then (s, false) else (s.takeElem len, true)

def irqPut (len : ℕ) (s : QueueSystem α) (elem : α) : QueueSystem α × Bool :=
  let s := s.irqWakeWaitingThread
  if s.isFull len then (s, false) else (s.storeElem len elem, true)

/-- The waiting thread, if any, has a higher priority than the running one. -/
def hppw (s : QueueSystem α) (priority : Side → ℕ) (current : ℕ) (hppw : Bool) : Bool :=
  match s.queue.waiting with
  | none => hppw
  | some t => if current < priority t then true else hppw

/-- The overload of `irqGet` that says whether to reschedule. -/
def irqGetHppw (len : ℕ) (s : QueueSystem α) (priority : Side → ℕ) (current : ℕ) (h : Bool) :
    QueueSystem α × Bool × Bool :=
  let r := s.irqGet len
  (r.1, r.2, s.hppw priority current h)

/-- The overload of `irqPut` that says whether to reschedule. -/
def irqPutHppw (len : ℕ) (s : QueueSystem α) (elem : α) (priority : Side → ℕ) (current : ℕ)
    (h : Bool) : QueueSystem α × Bool × Bool :=
  let r := s.irqPut len elem
  (r.1, r.2, s.hppw priority current h)

/-- The history remembers which elements a reset discards. -/
def irqReset (len : ℕ) (s : QueueSystem α) : QueueSystem α :=
  let s := s.irqWakeWaitingThread
  { s with
    queue := { s.queue with putPos := 0, getPos := 0, numElem := 0 }
    departed := s.departed ++ (s.contents len).map fun x => (x, false) }

/-! ## Interleavings -/

inductive QueueEvent (α : Type) where
  | call (op : QueueOp α)
  | resume (t : Side)
  | irqGet
  | irqPut (elem : α)
  | irqGetHppw (priority : Side → ℕ) (current : ℕ) (hppw : Bool)
  | irqPutHppw (elem : α) (priority : Side → ℕ) (current : ℕ) (hppw : Bool)
  | reset
  | wakeup (t : Side)

/-- A thread calls a function only when it is not inside one, and it goes on in a wait loop only when
its wait flag is clear. Other events can happen at any time. -/
def step (len : ℕ) (s : QueueSystem α) : QueueEvent α → Option (QueueSystem α)
  | .call op => if (s.inside op.side).isNone then some (s.waitLoop len op) else none
  | .resume t =>
    match s.inside t with
    | none => none
    | some op => if s.wait t then none else some (s.waitLoop len op)
  | .irqGet => some (s.irqGet len).1
  | .irqPut elem => some (s.irqPut len elem).1
  | .irqGetHppw priority current h => some (s.irqGetHppw len priority current h).1
  | .irqPutHppw elem priority current h => some (s.irqPutHppw len elem priority current h).1
  | .reset => some (s.irqReset len)
  | .wakeup t => some { s with wait := Function.update s.wait t false }

def run (len : ℕ) : QueueSystem α → List (QueueEvent α) → Option (QueueSystem α)
  | s, [] => some s
  | s, e :: events => (s.step len e).bind fun s' => run len s' events

/-- The constructor leaves the buffer as it is. -/
def init (buffer : ℕ → α) : QueueSystem α where
  queue := { buffer, waiting := none, numElem := 0, putPos := 0, getPos := 0 }
  wait _ := false
  inside _ := none
  accepted := []
  departed := []

/-! ## What the callers see -/

/-- What the function puts in the queue after its loop. -/
def putsAtEnd : QueueOp α → List α
  | .put elem => [elem]
  | _ => []

/-- What the function obtains from the queue after its loop. -/
def getsAtEnd (s : QueueSystem α) : QueueOp α → List (α × Bool)
  | .get => [(s.queue.buffer s.queue.getPos, true)]
  | _ => []

/-- The element that a step puts in the queue: that of a `put` that comes back, or of an `IRQput` that answers
`true`. -/
def puts (len : ℕ) (s : QueueSystem α) (e : QueueEvent α) (s' : QueueSystem α) : List α :=
  match e with
  | .call op => if (s'.inside op.side).isNone then putsAtEnd op else []
  | .resume t =>
    match s.inside t with
    | none => []
    | some op => if (s'.inside op.side).isNone then putsAtEnd op else []
  | .irqPut elem => if (s.irqPut len elem).2 then [elem] else []
  | .irqPutHppw elem priority current h => if (s.irqPutHppw len elem priority current h).2.1 then [elem] else []
  | _ => []

/-- The element that a step obtains from the queue: that of a `get` that comes back, or of an `IRQget` that
answers `true`; and the elements that a reset discards. -/
def gets (len : ℕ) (s : QueueSystem α) (e : QueueEvent α) (s' : QueueSystem α) : List (α × Bool) :=
  match e with
  | .call op => if (s'.inside op.side).isNone then s.getsAtEnd op else []
  | .resume t =>
    match s.inside t with
    | none => []
    | some op => if (s'.inside op.side).isNone then s.getsAtEnd op else []
  | .irqGet => if (s.irqGet len).2 then s.getsAtEnd .get else []
  | .irqGetHppw priority current h =>
    if (s.irqGetHppw len priority current h).2.1 then s.getsAtEnd .get else []
  | .reset => (s.contents len).map fun x => (x, false)
  | _ => []

/-! ## The invariant -/

/-- What holds between steps. -/
structure Registered (len : ℕ) (s : QueueSystem α) : Prop where
  ring : RingPos len s.queue.putPos s.queue.getPos s.queue.numElem
  history : s.accepted = s.departed.map (·.1) ++ s.contents len
  side : ∀ t op, s.inside t = some op → op.side = t
  waiting : ∀ t, s.queue.waiting = some t → ∃ op, s.inside t = some op
  blocked : ∀ t op, s.inside t = some op → s.wait t = true →
    s.queue.waiting = some t ∧ s.mustWait len op = true

/-- No thread is registered or blocked. -/
structure Awake (len : ℕ) (s : QueueSystem α) : Prop where
  ring : RingPos len s.queue.putPos s.queue.getPos s.queue.numElem
  history : s.accepted = s.departed.map (·.1) ++ s.contents len
  side : ∀ t op, s.inside t = some op → op.side = t
  waiting : s.queue.waiting = none
  awake : ∀ t op, s.inside t = some op → s.wait t = false

theorem Awake.registered (h : s.Awake len) : s.Registered len where
  ring := h.ring
  history := h.history
  side := h.side
  waiting := fun t ht => by rw [h.waiting] at ht; cases ht
  blocked := fun t op hin hw => by rw [h.awake t op hin] at hw; cases hw

theorem init_awake (hlen : 0 < len) (buffer : ℕ → α) : (init buffer).Awake len where
  ring := RingPos.empty hlen
  history := rfl
  side := fun _ _ h => by cases h
  waiting := rfl
  awake := fun _ _ h => by cases h

/-- After a wakeup of the waiting thread nobody is blocked: whoever was blocked was registered. -/
theorem wake_awake (h : s.Registered len) : s.irqWakeWaitingThread.Awake len := by
  unfold irqWakeWaitingThread
  cases hw : s.queue.waiting with
  | none =>
    refine ⟨h.ring, h.history, h.side, hw, fun t op hin => ?_⟩
    by_contra hwait
    obtain ⟨hreg, -⟩ := h.blocked t op hin (Bool.eq_true_of_not_eq_false hwait)
    rw [hw] at hreg
    cases hreg
  | some u =>
    refine ⟨h.ring, h.history, h.side, rfl, fun t op hin => ?_⟩
    by_cases htu : t = u
    · simp [htu]
    · show Function.update s.wait u false t = false
      rw [Function.update_of_ne htu]
      by_contra hwait
      obtain ⟨hreg, -⟩ := h.blocked t op hin (Bool.eq_true_of_not_eq_false hwait)
      rw [hw, Option.some.injEq] at hreg
      exact htu hreg.symm

theorem takeElem_awake (h : s.Awake len) (hne : s.isEmpty = false) : (s.takeElem len).Awake len := by
  have hpos : 0 < s.queue.numElem := by
    simp only [isEmpty, beq_eq_false_iff_ne] at hne
    omega
  have hwrap := wrap_eq_mod h.ring.get_lt
  refine ⟨?_, ?_, h.side, h.waiting, h.awake⟩
  · show RingPos len _ (if s.queue.getPos + 1 = len then 0 else s.queue.getPos + 1) _
    rw [hwrap]
    exact h.ring.pop hpos
  · show s.accepted = (s.departed ++ [(s.queue.buffer s.queue.getPos, true)]).map (·.1) ++
      ringContents len s.queue.buffer
        (if s.queue.getPos + 1 = len then 0 else s.queue.getPos + 1) (s.queue.numElem - 1)
    rw [hwrap, h.history, contents, ringContents_pop h.ring hpos]
    simp

theorem storeElem_awake (h : s.Awake len) (hnf : s.isFull len = false) (elem : α) :
    (s.storeElem len elem).Awake len := by
  have hlt : s.queue.numElem < len := by
    have := h.ring.count
    simp only [isFull, beq_eq_false_iff_ne] at hnf
    omega
  have hwrap := wrap_eq_mod h.ring.put_lt
  refine ⟨?_, ?_, h.side, h.waiting, h.awake⟩
  · show RingPos len (if s.queue.putPos + 1 = len then 0 else s.queue.putPos + 1) _ _
    rw [hwrap]
    exact h.ring.push hlt
  · show s.accepted ++ [elem] = s.departed.map (·.1) ++
      ringContents len (Function.update s.queue.buffer s.queue.putPos elem) s.queue.getPos
        (s.queue.numElem + 1)
    rw [ringContents_push h.ring hlt, h.history, contents, List.append_assoc]

theorem finish_awake (h : s.Awake len) (hgo : s.mustWait len op = false) :
    (s.finish len op).Awake len := by
  cases op with
  | waitUntilNotEmpty => exact h
  | waitUntilNotFull => exact h
  | get => exact takeElem_awake h hgo
  | put elem => exact storeElem_awake h hgo elem

theorem leave_awake (h : s.Awake len) (t : Side) : (s.leave t).Awake len := by
  have hold : ∀ u op, (s.leave t).inside u = some op → s.inside u = some op := by
    intro u op hin
    by_cases hut : u = t
    · simp [leave, hut] at hin
    · simpa [leave, hut] using hin
  exact ⟨h.ring, h.history, fun u op hin => h.side u op (hold u op hin), h.waiting,
    fun u op hin => h.awake u op (hold u op hin)⟩

theorem suspend_registered (h : s.Awake len) (hwait : s.mustWait len op = true) :
    (s.suspend op).Registered len := by
  have hmust : ∀ op', (s.suspend op).mustWait len op' = s.mustWait len op' := by
    intro op'
    cases op' <;> rfl
  refine ⟨h.ring, h.history, fun t op' hin => ?_, fun t ht => ?_, fun t op' hin hw => ?_⟩
  · by_cases ht : t = op.side
    · subst ht
      simp only [suspend, Function.update_self, Option.some.injEq] at hin
      rw [← hin]
    · simp only [suspend, Function.update_of_ne ht] at hin
      exact h.side t op' hin
  · obtain rfl : op.side = t := Option.some.inj ht
    exact ⟨op, by simp [suspend]⟩
  · by_cases ht : t = op.side
    · subst ht
      simp only [suspend, Function.update_self, Option.some.injEq] at hin
      exact ⟨rfl, by rw [hmust, ← hin]; exact hwait⟩
    · simp only [suspend, Function.update_of_ne ht] at hin hw
      rw [h.awake t op' hin] at hw
      cases hw

/-! ## Steps and runs -/

theorem waitLoop_registered (h : s.Registered len) (op : QueueOp α) :
    (s.waitLoop len op).Registered len := by
  have hawake := wake_awake h
  unfold waitLoop
  cases hm : s.irqWakeWaitingThread.mustWait len op with
  | true =>
    rw [if_pos hm]
    exact suspend_registered hawake hm
  | false =>
    simp only [hm, Bool.false_eq_true, if_false]
    exact (leave_awake (finish_awake hawake hm) op.side).registered

theorem irqGet_registered (h : s.Registered len) : (s.irqGet len).1.Registered len := by
  have hawake := wake_awake h
  unfold irqGet
  cases he : s.irqWakeWaitingThread.isEmpty with
  | true => simpa [he] using hawake.registered
  | false => simpa [he] using (takeElem_awake hawake he).registered

theorem irqPut_registered (h : s.Registered len) (elem : α) :
    (s.irqPut len elem).1.Registered len := by
  have hawake := wake_awake h
  unfold irqPut
  cases hf : s.irqWakeWaitingThread.isFull len with
  | true => simpa [hf] using hawake.registered
  | false => simpa [hf] using (storeElem_awake hawake hf elem).registered

theorem irqReset_registered (h : s.Registered len) : (s.irqReset len).Registered len := by
  have hawake := wake_awake h
  have hlen : 0 < len := by
    have := h.ring.get_lt
    omega
  have hreset : (s.irqReset len).Awake len := by
    refine ⟨RingPos.empty hlen, ?_, hawake.side, hawake.waiting, hawake.awake⟩
    show s.irqWakeWaitingThread.accepted = (s.irqWakeWaitingThread.departed ++
      (s.irqWakeWaitingThread.contents len).map fun x => (x, false)).map (·.1) ++ []
    rw [hawake.history]
    simp [Function.comp_def]
  exact hreset.registered

theorem wakeup_registered (h : s.Registered len) (t : Side) :
    Registered len { s with wait := Function.update s.wait t false } := by
  refine ⟨h.ring, h.history, h.side, h.waiting, fun u op hin hw => ?_⟩
  by_cases hut : u = t
  · rw [hut] at hw
    simp at hw
  · refine h.blocked u op hin ?_
    simpa [Function.update_of_ne hut] using hw

/-- **One step** keeps the invariant. -/
theorem step_registered (h : s.Registered len) (e : QueueEvent α) (hstep : s.step len e = some s') :
    s'.Registered len := by
  cases e with
  | call op =>
    simp only [step] at hstep
    split at hstep
    · cases hstep
      exact waitLoop_registered h op
    · cases hstep
  | resume t =>
    simp only [step] at hstep
    split at hstep
    · cases hstep
    · rename_i op _
      split at hstep
      · cases hstep
      · cases hstep
        exact waitLoop_registered h op
  | irqGet =>
    cases hstep
    exact irqGet_registered h
  | irqPut elem =>
    cases hstep
    exact irqPut_registered h elem
  | irqGetHppw priority current hppw =>
    cases hstep
    exact irqGet_registered h
  | irqPutHppw elem priority current hppw =>
    cases hstep
    exact irqPut_registered h elem
  | reset =>
    cases hstep
    exact irqReset_registered h
  | wakeup t =>
    cases hstep
    exact wakeup_registered h t

/-- **A whole run** keeps the invariant. -/
theorem run_registered (h : s.Registered len) (events : List (QueueEvent α))
    (hrun : run len s events = some s') : s'.Registered len := by
  induction events generalizing s with
  | nil =>
    cases hrun
    exact h
  | cons e events ih =>
    obtain ⟨s₁, hstep, hrest⟩ := Option.bind_eq_some_iff.mp hrun
    exact ih (step_registered h e hstep) hrest

/-! ## The history -/

theorem irqWakeWaitingThread_history (s : QueueSystem α) :
    s.irqWakeWaitingThread.accepted = s.accepted ∧ s.irqWakeWaitingThread.departed = s.departed ∧
    s.irqWakeWaitingThread.queue.buffer = s.queue.buffer ∧
    s.irqWakeWaitingThread.queue.getPos = s.queue.getPos ∧
    s.irqWakeWaitingThread.queue.numElem = s.queue.numElem := by
  unfold irqWakeWaitingThread
  cases s.queue.waiting <;> exact ⟨rfl, rfl, rfl, rfl, rfl⟩

theorem getsAtEnd_wake (s : QueueSystem α) (op : QueueOp α) :
    s.irqWakeWaitingThread.getsAtEnd op = s.getsAtEnd op := by
  obtain ⟨-, -, hbuffer, hget, -⟩ := irqWakeWaitingThread_history s
  cases op <;> simp only [getsAtEnd, hbuffer, hget]

theorem contents_wake (len : ℕ) (s : QueueSystem α) : s.irqWakeWaitingThread.contents len = s.contents len := by
  obtain ⟨-, -, hbuffer, hget, hnum⟩ := irqWakeWaitingThread_history s
  rw [contents, hbuffer, hget, hnum, contents]

theorem finish_history (len : ℕ) (s : QueueSystem α) (op : QueueOp α) :
    (s.finish len op).accepted = s.accepted ++ putsAtEnd op ∧
    (s.finish len op).departed = s.departed ++ s.getsAtEnd op := by
  cases op <;> simp [finish, putsAtEnd, getsAtEnd, takeElem, storeElem]

/-- A function that can block does its work exactly when it comes back. -/
theorem waitLoop_history (len : ℕ) (s : QueueSystem α) (op : QueueOp α) :
    (s.waitLoop len op).accepted =
      s.accepted ++ (if ((s.waitLoop len op).inside op.side).isNone then putsAtEnd op else []) ∧
    (s.waitLoop len op).departed =
      s.departed ++ (if ((s.waitLoop len op).inside op.side).isNone then s.getsAtEnd op else []) := by
  obtain ⟨haccepted, hdeparted, -⟩ := irqWakeWaitingThread_history s
  cases hm : s.irqWakeWaitingThread.mustWait len op with
  | true =>
    have hloop : s.waitLoop len op = s.irqWakeWaitingThread.suspend op := if_pos hm
    have hin : ((s.waitLoop len op).inside op.side).isNone = false := by simp [hloop, suspend]
    rw [hin, hloop]
    exact ⟨haccepted.trans (List.append_nil _).symm, hdeparted.trans (List.append_nil _).symm⟩
  | false =>
    have hloop : s.waitLoop len op = (s.irqWakeWaitingThread.finish len op).leave op.side :=
      if_neg (by rw [hm]; exact Bool.false_ne_true)
    have hin : ((s.waitLoop len op).inside op.side).isNone = true := by simp [hloop, leave]
    obtain ⟨hput, hget⟩ := finish_history len s.irqWakeWaitingThread op
    rw [hin, hloop, ← haccepted, ← hdeparted, ← getsAtEnd_wake]
    exact ⟨hput, hget⟩

/-- `IRQget` obtains an element exactly when it answers `true`. -/
theorem irqGet_history (len : ℕ) (s : QueueSystem α) :
    (s.irqGet len).1.accepted = s.accepted ∧
    (s.irqGet len).1.departed = s.departed ++ (if (s.irqGet len).2 then s.getsAtEnd .get else []) := by
  obtain ⟨haccepted, hdeparted, -⟩ := irqWakeWaitingThread_history s
  cases he : s.irqWakeWaitingThread.isEmpty with
  | true =>
    have hget : s.irqGet len = (s.irqWakeWaitingThread, false) := if_pos he
    rw [hget]
    exact ⟨haccepted, hdeparted.trans (List.append_nil _).symm⟩
  | false =>
    have hget : s.irqGet len = (s.irqWakeWaitingThread.takeElem len, true) :=
      if_neg (by rw [he]; exact Bool.false_ne_true)
    rw [hget, ← getsAtEnd_wake, ← hdeparted]
    exact ⟨haccepted, rfl⟩

/-- `IRQput` adds its element exactly when it answers `true`. -/
theorem irqPut_history (len : ℕ) (s : QueueSystem α) (elem : α) :
    (s.irqPut len elem).1.accepted = s.accepted ++ (if (s.irqPut len elem).2 then [elem] else []) ∧
    (s.irqPut len elem).1.departed = s.departed := by
  obtain ⟨haccepted, hdeparted, -⟩ := irqWakeWaitingThread_history s
  cases hf : s.irqWakeWaitingThread.isFull len with
  | true =>
    have hput : s.irqPut len elem = (s.irqWakeWaitingThread, false) := if_pos hf
    rw [hput]
    exact ⟨haccepted.trans (List.append_nil _).symm, hdeparted⟩
  | false =>
    have hput : s.irqPut len elem = (s.irqWakeWaitingThread.storeElem len elem, true) :=
      if_neg (by rw [hf]; exact Bool.false_ne_true)
    rw [hput, ← haccepted]
    exact ⟨rfl, hdeparted⟩

/-- **The history of one step**: what its caller sees. -/
theorem step_history (s : QueueSystem α) (e : QueueEvent α) (s' : QueueSystem α)
    (hstep : s.step len e = some s') :
    s'.accepted = s.accepted ++ puts len s e s' ∧ s'.departed = s.departed ++ gets len s e s' := by
  cases e with
  | call op =>
    obtain ⟨-, ⟨⟩⟩ := Option.ite_none_right_eq_some.mp hstep
    exact waitLoop_history len s op
  | resume t =>
    cases hin : s.inside t with
    | none => simp [step, hin] at hstep
    | some op =>
      simp only [step, hin] at hstep
      obtain ⟨-, ⟨⟩⟩ := Option.ite_none_left_eq_some.mp hstep
      simp only [puts, gets, hin]
      exact waitLoop_history len s op
  | irqGet =>
    cases hstep
    obtain ⟨haccepted, hdeparted⟩ := irqGet_history len s
    exact ⟨haccepted.trans (List.append_nil _).symm, hdeparted⟩
  | irqPut elem =>
    cases hstep
    obtain ⟨haccepted, hdeparted⟩ := irqPut_history len s elem
    exact ⟨haccepted, hdeparted.trans (List.append_nil _).symm⟩
  | irqGetHppw priority current hppw =>
    cases hstep
    obtain ⟨haccepted, hdeparted⟩ := irqGet_history len s
    exact ⟨haccepted.trans (List.append_nil _).symm, hdeparted⟩
  | irqPutHppw elem priority current hppw =>
    cases hstep
    obtain ⟨haccepted, hdeparted⟩ := irqPut_history len s elem
    exact ⟨haccepted, hdeparted.trans (List.append_nil _).symm⟩
  | reset =>
    cases hstep
    obtain ⟨haccepted, hdeparted, -⟩ := irqWakeWaitingThread_history s
    refine ⟨haccepted.trans (List.append_nil _).symm, ?_⟩
    simp only [irqReset, gets]
    rw [hdeparted, contents_wake]
  | wakeup t =>
    cases hstep
    exact ⟨(List.append_nil _).symm, (List.append_nil _).symm⟩

theorem run_eq_foldlM (len : ℕ) (s : QueueSystem α) (events : List (QueueEvent α)) :
    run len s events = events.foldlM (step len) s := by
  induction events generalizing s with
  | nil => rfl
  | cons e events ih => exact congrArg _ (funext fun s' => ih s')

/-- A thread is blocked when its wait flag is set inside a wait loop. -/
def Blocked (s : QueueSystem α) (t : Side) : Prop := (s.inside t).isSome ∧ s.wait t = true

/-- **The queue between one producer and one consumer.** In every interleaving, the elements that went
in are those of the calls that came back or answered `true`; they are those that came out, obtained by such a
call or discarded by a reset, followed by those in the queue, in order; the positions describe a ring; the
thread registered is in a wait loop, and nobody else is blocked; and a blocked thread is registered, a
consumer with an empty queue and a producer with a full one. -/
theorem run_queue (len : ℕ) (hlen : 0 < len) (buffer : ℕ → α) (events : List (QueueEvent α))
    (s : QueueSystem α) (hrun : run len (init buffer) events = some s) :
    s.accepted = logged (step len) (puts len) (init buffer) events ∧
    s.departed = logged (step len) (gets len) (init buffer) events ∧
    s.accepted = s.departed.map (·.1) ++ s.contents len ∧
    RingPos len s.queue.putPos s.queue.getPos s.queue.numElem ∧
    (∀ t, s.queue.waiting = some t → (s.inside t).isSome ∧ ∀ u, s.Blocked u → u = t) ∧
    (∀ t, s.Blocked t → s.queue.waiting = some t) ∧
    (s.Blocked .consumer → s.queue.numElem = 0) ∧
    (s.Blocked .producer → s.queue.numElem = len) := by
  have h := run_registered (init_awake hlen buffer).registered events hrun
  have hblocked : ∀ t, s.Blocked t →
      ∃ op, op.side = t ∧ s.queue.waiting = some t ∧ s.mustWait len op = true := by
    rintro t ⟨hin, hw⟩
    obtain ⟨op, hop⟩ := Option.isSome_iff_exists.mp hin
    exact ⟨op, h.side t op hop, h.blocked t op hop hw⟩
  have hfold := (run_eq_foldlM len (init buffer) events).symm.trans hrun
  refine ⟨eq_logged accepted (fun s e s' hstep => (step_history s e s' hstep).1) hfold,
    eq_logged departed (fun s e s' hstep => (step_history s e s' hstep).2) hfold, h.history, h.ring,
    fun t ht => ⟨?_, fun u hu => ?_⟩, fun t ht => ?_, fun hc => ?_, fun hp => ?_⟩
  · obtain ⟨op, hop⟩ := h.waiting t ht
    rw [hop]
    rfl
  · obtain ⟨op, -, hreg, -⟩ := hblocked u hu
    rw [ht, Option.some.injEq] at hreg
    exact hreg.symm
  · obtain ⟨op, -, hreg, -⟩ := hblocked t ht
    exact hreg
  · obtain ⟨op, hside, -, hmust⟩ := hblocked .consumer hc
    cases op <;> simp_all [QueueOp.side, mustWait, isEmpty]
  · obtain ⟨op, hside, -, hmust⟩ := hblocked .producer hp
    cases op <;> simp_all [QueueOp.side, mustWait, isFull]

/-- A consumer that waits, is woken, and finds the queue refilled after a reset; the producer finds it empty and
full again. -/
def resetEvents : List (QueueEvent ℕ) :=
  [.call .get, .irqPut 7, .reset, .irqPut 8, .call (.put 9), .resume .consumer, .resume .producer, .irqPut 6,
    .irqGet, .call .get]

theorem run_queue_reset :
    ∃ s, run 1 (init fun _ => 0) resetEvents = some s ∧ s.accepted = [7, 8, 9] ∧ s.obtained = [8, 9] ∧
      s.discarded = [7] ∧ s.contents 1 = [] ∧ s.Blocked .consumer ∧ s.queue.waiting = some .consumer := by
  obtain ⟨s, hrun, hputs, hgets, hin, hw⟩ : ∃ s : QueueSystem ℕ, run 1 (init fun _ => 0) resetEvents = some s ∧
      logged (step 1) (puts 1) (init fun _ => 0) resetEvents = [7, 8, 9] ∧
      logged (step 1) (gets 1) (init fun _ => 0) resetEvents = [(7, false), (8, true), (9, true)] ∧
      (s.inside .consumer).isSome ∧ s.wait .consumer = true :=
    ⟨_, rfl, by decide, by decide, by decide, by decide⟩
  obtain ⟨haccepted, hdeparted, hhist, -, -, hreg, -⟩ :=
    run_queue 1 (by decide) (fun _ => 0) resetEvents s hrun
  rw [hputs] at haccepted
  rw [hgets] at hdeparted
  rw [haccepted, hdeparted] at hhist
  exact ⟨s, hrun, haccepted, by rw [obtained, hdeparted]; rfl, by rw [discarded, hdeparted]; rfl,
    List.self_eq_append_right.mp hhist, ⟨hin, hw⟩, hreg _ ⟨hin, hw⟩⟩

/-- A thread that was registered in a wait loop stays registered when somebody else clears its wait flag: until it
goes on it is not blocked, and the queue still refers to it. -/
theorem run_queue_spurious :
    ∃ s, run 1 (init fun _ => 0) [.call .get, .wakeup .consumer] = some s ∧
      s.queue.waiting = some .consumer ∧ ∀ t, ¬(s : QueueSystem ℕ).Blocked t := by
  refine ⟨_, rfl, rfl, fun t => ?_⟩
  rintro ⟨hin, hw⟩
  cases t with
  | producer => cases hin
  | consumer => cases hw

end QueueSystem

end Miosix
