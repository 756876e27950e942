import MiosixKernel.Lib.Log
import MiosixKernel.Lib.Ring
import MiosixKernel.Lib.WaitList

/-!
# The fixed size event queue

Any number of threads and interrupts post events, and any number of threads run them. A thread that
has to wait puts a node that lives on its stack at the front of a list; whoever makes room for it, or
posts an event, takes the first node off the list, leaves a token in it and wakes its thread. Between
the wakeup and the moment the thread goes on somebody else may take what it was woken for.

* `EventQueue`: the data, with the nodes, the wait flags and the history of the events;
* `irqPostImpl`, `takeEvent`, `postLoop`, `runLoop`: the sections with interrupts disabled;
* `step`, `run`: interleavings;
* `posted`, `taken`: the events of the posts that came back or answered `true`, and those that were run;
* `Balanced`: the invariant, with the number of events and slots that have no token yet;
* **`run_exactly_once`**: events come out in the order in which they went in, and no wakeup is lost.
-/

namespace Miosix

open Lib

/-- Where a thread is. -/
inductive EventPc (α : Type) where
  | idle
  | waitGet
  | waitPut (event : α)

structure EventQueue (α T : Type) where
  events : ℕ → α
  put : ℕ
  get : ℕ
  n : ℕ
  /-- List of threads waiting to get an event. -/
  waitingGet : Option T
  /-- List of threads waiting to put an event. -/
  waitingPut : Option T
  /-- The next node after that of a thread. -/
  next : T → Option T
  /-- To tolerate spurious wakeups. -/
  token : T → Bool
  /-- The wait flag of each thread. -/
  wait : T → Bool
  pc : T → EventPc α
  /-- The events posted so far. -/
  accepted : List α
  /-- The events taken so far. -/
  dequeued : List α

namespace EventQueue

variable {α T : Type} [DecidableEq T]

/-! ## Sections -/

/-- Leave a token in a node and wake its thread. -/
def giveToken (s : EventQueue α T) (t : T) : EventQueue α T :=
  { s with
    token := Function.update s.token t true
    wait := Function.update s.wait t false }

/-- Take the first node off the list of those who wait for an event. -/
def wakeGet (s : EventQueue α T) : EventQueue α T :=
  match s.waitingGet with
  | none => s
  | some t => { s.giveToken t with waitingGet := s.next t }

/-- Take the first node off the list of those who wait for a slot. -/
def wakePut (s : EventQueue α T) : EventQueue α T :=
  match s.waitingPut with
  | none => s
  | some t => { s.giveToken t with waitingPut := s.next t }

def storeEvent (size : ℕ) (s : EventQueue α T) (event : α) : EventQueue α T :=
  { s with
    events := Function.update s.events s.put event
    put := if s.put + 1 ≥ size then 0 else s.put + 1
    n := s.n + 1
    accepted := s.accepted ++ [event] }

def irqPostImpl (size : ℕ) (s : EventQueue α T) (event : α) : EventQueue α T × Bool :=
  if s.n ≥ size then (s, false) else ((s.storeEvent size event).wakeGet, true)

/-- What `irqPostImpl` leaves in `hppw`: whether the thread it wakes has a higher priority than the
running one. -/
def hppw (size : ℕ) (s : EventQueue α T) (priority : T → ℕ) (current : ℕ) : Bool :=
  match s.waitingGet with
  | none => false
  | some t => s.n < size && current < priority t

def dropEvent (size : ℕ) (s : EventQueue α T) : EventQueue α T :=
  { s with
    get := if s.get + 1 ≥ size then 0 else s.get + 1
    n := s.n - 1
    dequeued := s.dequeued ++ [s.events s.get] }

/-- Take an event out of the queue, to run it with interrupts enabled. -/
def takeEvent (size : ℕ) (s : EventQueue α T) : EventQueue α T := (s.dropEvent size).wakePut

def blockGet (s : EventQueue α T) (t : T) : EventQueue α T :=
  { s with
    token := Function.update s.token t false
    next := Function.update s.next t s.waitingGet
    waitingGet := some t
    wait := Function.update s.wait t true
    pc := Function.update s.pc t .waitGet }

def blockPut (s : EventQueue α T) (t : T) (event : α) : EventQueue α T :=
  { s with
    token := Function.update s.token t false
    next := Function.update s.next t s.waitingPut
    waitingPut := some t
    wait := Function.update s.wait t true
    pc := Function.update s.pc t (.waitPut event) }

/-- The node of the thread is gone. -/
def leave (s : EventQueue α T) (t : T) : EventQueue α T :=
  { s with pc := Function.update s.pc t .idle }

/-- From the test of the outer loop of `postImpl` to the next wait, or to the end. -/
def postLoop (size : ℕ) (s : EventQueue α T) (t : T) (event : α) : EventQueue α T :=
  if s.n ≥ size then s.blockPut t event else (s.irqPostImpl size event).1

/-- From the test of the outer loop of `runImpl` to the next wait, or to an event to run. -/
def runLoop (size : ℕ) (s : EventQueue α T) (t : T) : EventQueue α T :=
  if s.n ≤ 0 then s.blockGet t else s.takeEvent size

def runOneImpl (size : ℕ) (s : EventQueue α T) : EventQueue α T :=
  if s.n ≤ 0 then s else s.takeEvent size

/-- A thread that waits goes on: without a token it waits again. -/
def resume (size : ℕ) (s : EventQueue α T) (t : T) : EventQueue α T :=
  match s.pc t with
  | .idle => s
  | .waitGet =>
    if s.token t = false then { s with wait := Function.update s.wait t true }
    else (s.leave t).runLoop size t
  | .waitPut event =>
    if s.token t = false then { s with wait := Function.update s.wait t true }
    else (s.leave t).postLoop size t event

/-! ## Interleavings -/

inductive Step (α T : Type) where
  | post (t : T) (event : α)
  | postNonBlocking (t : T) (event : α)
  | irqPost (event : α)
  | run (t : T)
  | runOne (t : T)
  | resume (t : T)
  | wakeup (t : T)

/-- The thread is not inside a function of the queue, or it runs an event. -/
def isIdle (s : EventQueue α T) (t : T) : Bool :=
  match s.pc t with
  | .idle => true
  | _ => false

/-- A thread goes on in a wait loop only when its wait flag is clear. -/
def step (size : ℕ) (s : EventQueue α T) : Step α T → Option (EventQueue α T)
  | .post t event => if s.isIdle t then some (s.postLoop size t event) else none
  | .postNonBlocking t event => if s.isIdle t then some (s.irqPostImpl size event).1 else none
  | .irqPost event => some (s.irqPostImpl size event).1
  | .run t => if s.isIdle t then some (s.runLoop size t) else none
  | .runOne t => if s.isIdle t then some (s.runOneImpl size) else none
  | .resume t => if s.wait t then none else some (s.resume size t)
  | .wakeup t => some { s with wait := Function.update s.wait t false }

def run (size : ℕ) : EventQueue α T → List (Step α T) → Option (EventQueue α T)
  | s, [] => some s
  | s, e :: steps => (s.step size e).bind fun s' => run size s' steps

/-- The nodes and the slots hold anything at first. -/
def init (events : ℕ → α) (next : T → Option T) (token : T → Bool) : EventQueue α T where
  events := events
  put := 0
  get := 0
  n := 0
  waitingGet := none
  waitingPut := none
  next := next
  token := token
  wait _ := false
  pc _ := .idle
  accepted := []
  dequeued := []

/-! ## What the callers see -/

/-- The event that a step posts: that of a `post` that comes back, or of a post that answers `true`. -/
def posts (size : ℕ) (s : EventQueue α T) (e : Step α T) (s' : EventQueue α T) : List α :=
  match e with
  | .post t event => if s'.isIdle t then [event] else []
  | .postNonBlocking _ event => if (s.irqPostImpl size event).2 then [event] else []
  | .irqPost event => if (s.irqPostImpl size event).2 then [event] else []
  | .resume t =>
    match s.pc t with
    | .waitPut event => if s'.isIdle t then [event] else []
    | _ => []
  | _ => []

/-- The event that a thread copies out of the queue in a step, to run it. -/
def takes (s : EventQueue α T) (e : Step α T) (s' : EventQueue α T) : List α :=
  match e with
  | .run t => if s'.isIdle t then [s.events s.get] else []
  | .runOne _ => if s.n ≤ 0 then [] else [s.events s.get]
  | .resume t =>
    match s.pc t with
    | .waitGet => if s'.isIdle t then [s.events s.get] else []
    | _ => []
  | _ => []

def posted (size : ℕ) (s : EventQueue α T) (steps : List (Step α T)) : List α :=
  logged (step size) (posts size) s steps

def taken (size : ℕ) (s : EventQueue α T) (steps : List (Step α T)) : List α :=
  logged (step size) takes s steps

/-! ## The invariant -/

/-- The events in the queue. -/
def contents (size : ℕ) (s : EventQueue α T) : List α := ringContents size s.events s.get s.n

/-- The thread waits for an event. -/
def Getting (s : EventQueue α T) (t : T) : Prop := s.pc t = .waitGet

/-- The thread waits for a slot. -/
def Putting (s : EventQueue α T) (t : T) : Prop := ∃ event, s.pc t = .waitPut event

/-- Those who were woken for an event and have not gone on. -/
def getTokens (s : EventQueue α T) : Set T := tokens s.Getting s.token

/-- Those who were woken for a slot and have not gone on. -/
def putTokens (s : EventQueue α T) : Set T := tokens s.Putting s.token

/-- What holds between steps, for `a = b = 0`; within a step there can be one event or one slot more
than tokens. -/
structure Balanced (size a b : ℕ) (s : EventQueue α T) : Prop where
  ring : RingPos size s.put s.get s.n
  history : s.accepted = s.dequeued ++ s.contents size
  gets : TokenList s.next s.token s.Getting s.waitingGet
  puts : TokenList s.next s.token s.Putting s.waitingPut
  getBalance : s.waitingGet ≠ none → s.n ≤ s.getTokens.ncard + a
  putBalance : s.waitingPut ≠ none → size ≤ s.n + s.putTokens.ncard + b

variable {size a b : ℕ} {s s' : EventQueue α T} {t : T} {event : α}

omit [DecidableEq T] in
theorem init_balanced (hsize : 0 < size) (events : ℕ → α) (next : T → Option T) (token : T → Bool) :
    (init events next token).Balanced size 0 0 where
  ring := RingPos.empty hsize
  history := rfl
  gets := TokenList.empty next token fun _ h => by cases h
  puts := TokenList.empty next token fun _ ⟨_, h⟩ => by cases h
  getBalance := fun h => absurd rfl h
  putBalance := fun h => absurd rfl h

omit [DecidableEq T] in
theorem not_putting_of_getting (h : s.Getting t) : ¬s.Putting t := by
  rintro ⟨event, he⟩
  rw [show s.pc t = .waitGet from h] at he
  cases he

/-- A token for one who waits for an event. -/
theorem wakeGet_balanced (h : s.Balanced size (a + 1) b) : s.wakeGet.Balanced size a b := by
  unfold wakeGet
  cases hg : s.waitingGet with
  | none => exact ⟨h.ring, h.history, h.gets, h.puts, fun hne => absurd hg hne, h.putBalance⟩
  | some x =>
    have hgets := h.gets
    rw [hg] at hgets
    obtain ⟨hgets', hcard⟩ := hgets.give
    obtain ⟨hputs', hset⟩ := h.puts.update_token_of_not (not_putting_of_getting hgets.first_waits.1) true
    refine ⟨h.ring, h.history, hgets', hputs', fun _ => ?_, fun hne => ?_⟩
    · have hbal := h.getBalance (by rw [hg]; simp)
      show s.n ≤ (tokens s.Getting (Function.update s.token x true)).ncard + a
      unfold getTokens at hbal
      omega
    · show size ≤ s.n + (tokens s.Putting (Function.update s.token x true)).ncard + b
      rw [hset]
      exact h.putBalance hne

/-- A token for one who waits for a slot. -/
theorem wakePut_balanced (h : s.Balanced size a (b + 1)) : s.wakePut.Balanced size a b := by
  unfold wakePut
  cases hp : s.waitingPut with
  | none => exact ⟨h.ring, h.history, h.gets, h.puts, h.getBalance, fun hne => absurd hp hne⟩
  | some x =>
    have hputs := h.puts
    rw [hp] at hputs
    obtain ⟨hputs', hcard⟩ := hputs.give
    have hx : ¬s.Getting x := fun hg => not_putting_of_getting hg hputs.first_waits.1
    obtain ⟨hgets', hset⟩ := h.gets.update_token_of_not hx true
    refine ⟨h.ring, h.history, hgets', hputs', fun hne => ?_, fun _ => ?_⟩
    · show s.n ≤ (tokens s.Getting (Function.update s.token x true)).ncard + a
      rw [hset]
      exact h.getBalance hne
    · have hbal := h.putBalance (by rw [hp]; simp)
      show size ≤ s.n + (tokens s.Putting (Function.update s.token x true)).ncard + b
      unfold putTokens at hbal
      omega

omit [DecidableEq T] in
theorem wrap_ge_eq_mod {p : ℕ} (h : p < size) :
    (if p + 1 ≥ size then 0 else p + 1) = (p + 1) % size := by
  rw [← wrap_eq_mod h]
  split_ifs <;> omega

omit [DecidableEq T] in
theorem storeEvent_balanced (h : s.Balanced size a (b + 1)) (hn : s.n < size) (event : α) :
    (s.storeEvent size event).Balanced size (a + 1) b := by
  have hwrap := wrap_ge_eq_mod h.ring.put_lt
  refine ⟨?_, ?_, h.gets, h.puts, fun hne => ?_, fun hne => ?_⟩
  · show RingPos size (if s.put + 1 ≥ size then 0 else s.put + 1) s.get (s.n + 1)
    rw [hwrap]
    exact h.ring.push hn
  · show s.accepted ++ [event] =
      s.dequeued ++ ringContents size (Function.update s.events s.put event) s.get (s.n + 1)
    rw [ringContents_push h.ring hn, h.history, contents, List.append_assoc]
  · have hbal := h.getBalance hne
    show s.n + 1 ≤ s.getTokens.ncard + (a + 1)
    omega
  · have hbal := h.putBalance hne
    show size ≤ s.n + 1 + s.putTokens.ncard + b
    omega

omit [DecidableEq T] in
theorem dropEvent_balanced (h : s.Balanced size (a + 1) b) (hn : 0 < s.n) :
    (s.dropEvent size).Balanced size a (b + 1) := by
  have hwrap := wrap_ge_eq_mod h.ring.get_lt
  refine ⟨?_, ?_, h.gets, h.puts, fun hne => ?_, fun hne => ?_⟩
  · show RingPos size s.put (if s.get + 1 ≥ size then 0 else s.get + 1) (s.n - 1)
    rw [hwrap]
    exact h.ring.pop hn
  · show s.accepted = s.dequeued ++ [s.events s.get] ++
      ringContents size s.events (if s.get + 1 ≥ size then 0 else s.get + 1) (s.n - 1)
    rw [hwrap, h.history, contents, ringContents_pop h.ring hn]
    simp
  · have hbal := h.getBalance hne
    show s.n - 1 ≤ s.getTokens.ncard + a
    omega
  · have hbal := h.putBalance hne
    show size ≤ s.n - 1 + s.putTokens.ncard + (b + 1)
    omega

omit [DecidableEq T] in
theorem Balanced.mono {a' b' : ℕ} (h : s.Balanced size a b) (ha : a ≤ a') (hb : b ≤ b') :
    s.Balanced size a' b' :=
  ⟨h.ring, h.history, h.gets, h.puts, fun hne => (h.getBalance hne).trans (by omega),
    fun hne => (h.putBalance hne).trans (by omega)⟩

/-- Posting an event uses up the slot that the thread that posts it was woken for. -/
theorem irqPostImpl_balanced (h : s.Balanced size 0 1) (hn : s.n < size) (event : α) :
    (s.irqPostImpl size event).1.Balanced size 0 0 := by
  rw [irqPostImpl, if_neg (by omega)]
  exact wakeGet_balanced (storeEvent_balanced h hn event)

/-- Taking an event uses up the event that the thread that takes it was woken for. -/
theorem takeEvent_balanced (h : s.Balanced size 1 0) (hn : 0 < s.n) :
    (s.takeEvent size).Balanced size 0 0 :=
  wakePut_balanced (dropEvent_balanced h hn)

theorem blockGet_balanced (h : s.Balanced size 1 0) (hn : s.n = 0) (ht : s.pc t = .idle) :
    (s.blockGet t).Balanced size 0 0 := by
  have hg : ¬s.Getting t := by simp [Getting, ht]
  have hp : ¬s.Putting t := by simp [Putting, ht]
  have hgetting : ∀ u, (s.blockGet t).Getting u ↔ u = t ∨ s.Getting u := by
    intro u
    by_cases hut : u = t <;> simp [Getting, blockGet, hut]
  have hputting : ∀ u, (s.blockGet t).Putting u ↔ s.Putting u := by
    intro u
    by_cases hut : u = t
    · subst hut
      simp [Putting, blockGet, ht]
    · simp [Putting, blockGet, hut]
  obtain ⟨hgets, -⟩ := h.gets.push hg hgetting
  obtain ⟨hputs, hset⟩ := h.puts.update_of_not hp s.waitingGet false
  refine ⟨h.ring, h.history, hgets, hputs.congr hputting, fun _ => ?_, fun hne => ?_⟩
  · show s.n ≤ _
    omega
  · have hbal := h.putBalance hne
    have hcongr : (s.blockGet t).putTokens = s.putTokens := by
      rw [putTokens, putTokens, ← hset]
      exact congrArg (fun w => tokens w _) (funext fun u => propext (hputting u))
    show size ≤ s.n + (s.blockGet t).putTokens.ncard + 0
    rw [hcongr]
    exact hbal

theorem blockPut_balanced (h : s.Balanced size 0 1) (hn : size ≤ s.n) (ht : s.pc t = .idle)
    (event : α) : (s.blockPut t event).Balanced size 0 0 := by
  have hg : ¬s.Getting t := by simp [Getting, ht]
  have hp : ¬s.Putting t := by simp [Putting, ht]
  have hputting : ∀ u, (s.blockPut t event).Putting u ↔ u = t ∨ s.Putting u := by
    intro u
    by_cases hut : u = t <;> simp [Putting, blockPut, hut]
  have hgetting : ∀ u, (s.blockPut t event).Getting u ↔ s.Getting u := by
    intro u
    by_cases hut : u = t
    · subst hut
      simp [Getting, blockPut, ht]
    · simp [Getting, blockPut, hut]
  obtain ⟨hputs, -⟩ := h.puts.push hp hputting
  obtain ⟨hgets, hset⟩ := h.gets.update_of_not hg s.waitingPut false
  refine ⟨h.ring, h.history, hgets.congr hgetting, hputs, fun hne => ?_, fun _ => ?_⟩
  · have hbal := h.getBalance hne
    have hcongr : (s.blockPut t event).getTokens = s.getTokens := by
      rw [getTokens, getTokens, ← hset]
      exact congrArg (fun w => tokens w _) (funext fun u => propext (hgetting u))
    show s.n ≤ (s.blockPut t event).getTokens.ncard + 0
    rw [hcongr]
    exact hbal
  · show size ≤ s.n + _ + 0
    omega

theorem leave_get_balanced (h : s.Balanced size 0 0) (ht : s.Getting t) (htok : s.token t = true) :
    (s.leave t).Balanced size 1 0 := by
  have hgetting : ∀ u, (s.leave t).Getting u ↔ u ≠ t ∧ s.Getting u := by
    intro u
    by_cases hut : u = t <;> simp [Getting, leave, hut]
  have hputting : (s.leave t).Putting = s.Putting := by
    funext u
    by_cases hut : u = t
    · subst hut
      simp [Putting, leave, show s.pc u = .waitGet from ht]
    · simp [Putting, leave, hut]
  obtain ⟨hgets, hcard⟩ := h.gets.leave ht htok hgetting
  refine ⟨h.ring, h.history, hgets, h.puts.congr fun u => iff_of_eq (congrFun hputting u),
    fun hne => ?_, fun hne => ?_⟩
  · have hbal := h.getBalance hne
    show s.n ≤ (tokens (s.leave t).Getting s.token).ncard + 1
    unfold getTokens at hbal
    omega
  · show size ≤ s.n + (tokens (s.leave t).Putting s.token).ncard + 0
    rw [hputting]
    exact h.putBalance hne

theorem leave_put_balanced (h : s.Balanced size 0 0) (ht : s.Putting t) (htok : s.token t = true) :
    (s.leave t).Balanced size 0 1 := by
  have hputting : ∀ u, (s.leave t).Putting u ↔ u ≠ t ∧ s.Putting u := by
    intro u
    by_cases hut : u = t <;> simp [Putting, leave, hut]
  have hgetting : (s.leave t).Getting = s.Getting := by
    funext u
    by_cases hut : u = t
    · subst hut
      obtain ⟨event, he⟩ := ht
      simp [Getting, leave, he]
    · simp [Getting, leave, hut]
  obtain ⟨hputs, hcard⟩ := h.puts.leave ht htok hputting
  refine ⟨h.ring, h.history, h.gets.congr fun u => iff_of_eq (congrFun hgetting u), hputs,
    fun hne => ?_, fun hne => ?_⟩
  · show s.n ≤ (tokens (s.leave t).Getting s.token).ncard + 0
    rw [hgetting]
    exact h.getBalance hne
  · have hbal := h.putBalance hne
    show size ≤ s.n + (tokens (s.leave t).Putting s.token).ncard + 1
    unfold putTokens at hbal
    omega

/-! ## Steps and runs -/

theorem postLoop_balanced (h : s.Balanced size 0 1) (ht : s.pc t = .idle) (event : α) :
    (s.postLoop size t event).Balanced size 0 0 := by
  unfold postLoop
  split_ifs with hn
  · exact blockPut_balanced h hn ht event
  · exact irqPostImpl_balanced h (by omega) event

theorem runLoop_balanced (h : s.Balanced size 1 0) (ht : s.pc t = .idle) :
    (s.runLoop size t).Balanced size 0 0 := by
  unfold runLoop
  split_ifs with hn
  · exact blockGet_balanced h (by omega) ht
  · exact takeEvent_balanced h (by omega)

theorem post_balanced (h : s.Balanced size 0 0) (event : α) :
    (s.irqPostImpl size event).1.Balanced size 0 0 := by
  by_cases hn : s.n ≥ size
  · rw [irqPostImpl, if_pos hn]
    exact h
  · exact irqPostImpl_balanced (h.mono (le_refl 0) (Nat.zero_le 1)) (by omega) event

theorem runOneImpl_balanced (h : s.Balanced size 0 0) : (s.runOneImpl size).Balanced size 0 0 := by
  unfold runOneImpl
  split_ifs with hn
  · exact h
  · exact takeEvent_balanced (h.mono (Nat.zero_le 1) (le_refl 0)) (by omega)

theorem resume_balanced (h : s.Balanced size 0 0) (t : T) : (s.resume size t).Balanced size 0 0 := by
  unfold resume
  split
  · exact h
  · rename_i hpc
    split_ifs with htok
    · exact ⟨h.ring, h.history, h.gets, h.puts, h.getBalance, h.putBalance⟩
    · exact runLoop_balanced (leave_get_balanced h hpc (by simpa using htok)) (by simp [leave])
  · rename_i event hpc
    split_ifs with htok
    · exact ⟨h.ring, h.history, h.gets, h.puts, h.getBalance, h.putBalance⟩
    · exact postLoop_balanced (leave_put_balanced h ⟨event, hpc⟩ (by simpa using htok))
        (by simp [leave]) event

omit [DecidableEq T] in
theorem pc_of_isIdle (h : s.isIdle t = true) : s.pc t = .idle := by
  unfold isIdle at h
  split at h
  · assumption
  · cases h

/-- **One step** keeps the balance. -/
theorem step_balanced (h : s.Balanced size 0 0) (e : Step α T) (hstep : s.step size e = some s') :
    s'.Balanced size 0 0 := by
  cases e with
  | post t event =>
    obtain ⟨hidle, ⟨⟩⟩ := Option.ite_none_right_eq_some.mp hstep
    exact postLoop_balanced (h.mono (le_refl 0) (Nat.zero_le 1)) (pc_of_isIdle hidle) event
  | postNonBlocking t event =>
    obtain ⟨-, ⟨⟩⟩ := Option.ite_none_right_eq_some.mp hstep
    exact post_balanced h event
  | irqPost event =>
    cases hstep
    exact post_balanced h event
  | run t =>
    obtain ⟨hidle, ⟨⟩⟩ := Option.ite_none_right_eq_some.mp hstep
    exact runLoop_balanced (h.mono (Nat.zero_le 1) (le_refl 0)) (pc_of_isIdle hidle)
  | runOne t =>
    obtain ⟨-, ⟨⟩⟩ := Option.ite_none_right_eq_some.mp hstep
    exact runOneImpl_balanced h
  | resume t =>
    obtain ⟨-, ⟨⟩⟩ := Option.ite_none_left_eq_some.mp hstep
    exact resume_balanced h t
  | wakeup t =>
    cases hstep
    exact ⟨h.ring, h.history, h.gets, h.puts, h.getBalance, h.putBalance⟩

/-- **A whole run** keeps the balance. -/
theorem run_balanced (h : s.Balanced size 0 0) (steps : List (Step α T))
    (hrun : run size s steps = some s') : s'.Balanced size 0 0 := by
  induction steps generalizing s with
  | nil =>
    cases hrun
    exact h
  | cons e steps ih =>
    obtain ⟨s₁, hstep, hrest⟩ := Option.bind_eq_some_iff.mp hrun
    exact ih (step_balanced h e hstep) hrest

/-! ## The history -/

omit [DecidableEq T] in
theorem isIdle_of_pc (h : s.pc t = .idle) : s.isIdle t = true := by
  simp only [isIdle, h]

theorem wakeGet_history (s : EventQueue α T) : s.wakeGet.accepted = s.accepted ∧
    s.wakeGet.dequeued = s.dequeued ∧ s.wakeGet.pc = s.pc := by
  unfold wakeGet
  cases s.waitingGet <;> exact ⟨rfl, rfl, rfl⟩

theorem wakePut_history (s : EventQueue α T) : s.wakePut.accepted = s.accepted ∧
    s.wakePut.dequeued = s.dequeued ∧ s.wakePut.pc = s.pc := by
  unfold wakePut
  cases s.waitingPut <;> exact ⟨rfl, rfl, rfl⟩

/-- A post adds its event exactly when it answers `true`. -/
theorem irqPostImpl_history (size : ℕ) (s : EventQueue α T) (event : α) :
    (s.irqPostImpl size event).1.accepted =
      s.accepted ++ (if (s.irqPostImpl size event).2 then [event] else []) ∧
    (s.irqPostImpl size event).1.dequeued = s.dequeued ∧ (s.irqPostImpl size event).1.pc = s.pc := by
  by_cases hn : s.n ≥ size
  · rw [irqPostImpl, if_pos hn]
    exact ⟨(List.append_nil _).symm, rfl, rfl⟩
  · rw [irqPostImpl, if_neg hn]
    exact wakeGet_history (s.storeEvent size event)

/-- A post adds its event exactly when it comes back. -/
theorem postLoop_history (size : ℕ) (ht : s.pc t = .idle) (event : α) :
    (s.postLoop size t event).accepted =
      s.accepted ++ (if (s.postLoop size t event).isIdle t then [event] else []) ∧
    (s.postLoop size t event).dequeued = s.dequeued := by
  by_cases hn : s.n ≥ size
  · rw [postLoop, if_pos hn]
    have hidle : (s.blockPut t event).isIdle t = false := by simp [isIdle, blockPut]
    rw [hidle]
    exact ⟨(List.append_nil _).symm, rfl⟩
  · rw [postLoop, if_neg hn]
    obtain ⟨haccepted, hdequeued, hpc⟩ := irqPostImpl_history size s event
    rw [isIdle_of_pc ((congrFun hpc t).trans ht), haccepted, irqPostImpl, if_neg hn]
    exact ⟨rfl, (wakeGet_history _).2.1⟩

theorem takeEvent_history (size : ℕ) (s : EventQueue α T) :
    (s.takeEvent size).accepted = s.accepted ∧
    (s.takeEvent size).dequeued = s.dequeued ++ [s.events s.get] ∧ (s.takeEvent size).pc = s.pc :=
  wakePut_history (s.dropEvent size)

/-- A thread takes an event exactly when it no longer waits for one. -/
theorem runLoop_history (size : ℕ) (ht : s.pc t = .idle) :
    (s.runLoop size t).accepted = s.accepted ∧
    (s.runLoop size t).dequeued =
      s.dequeued ++ (if (s.runLoop size t).isIdle t then [s.events s.get] else []) := by
  by_cases hn : s.n ≤ 0
  · rw [runLoop, if_pos hn]
    have hidle : (s.blockGet t).isIdle t = false := by simp [isIdle, blockGet]
    rw [hidle]
    exact ⟨rfl, (List.append_nil _).symm⟩
  · rw [runLoop, if_neg hn]
    obtain ⟨haccepted, hdequeued, hpc⟩ := takeEvent_history size s
    rw [isIdle_of_pc ((congrFun hpc t).trans ht)]
    exact ⟨haccepted, hdequeued⟩

theorem resume_history (size : ℕ) (s : EventQueue α T) (t : T) :
    (s.resume size t).accepted = s.accepted ++ posts size s (.resume t) (s.resume size t) ∧
    (s.resume size t).dequeued = s.dequeued ++ takes s (.resume t) (s.resume size t) := by
  have hleave : (s.leave t).pc t = .idle := by simp [leave]
  cases hpc : s.pc t with
  | idle => simp [resume, posts, takes, hpc]
  | waitGet =>
    simp only [posts, takes, hpc]
    by_cases htok : s.token t = false
    · simp [resume, hpc, htok, isIdle]
    · simp only [resume, hpc, if_neg htok]
      obtain ⟨haccepted, hdequeued⟩ := runLoop_history size hleave
      exact ⟨haccepted.trans (List.append_nil _).symm, hdequeued⟩
  | waitPut event =>
    simp only [posts, takes, hpc]
    by_cases htok : s.token t = false
    · simp [resume, hpc, htok, isIdle]
    · simp only [resume, hpc, if_neg htok]
      obtain ⟨haccepted, hdequeued⟩ := postLoop_history size hleave event
      exact ⟨haccepted, hdequeued.trans (List.append_nil _).symm⟩

/-- **The history of one step**: what its caller sees. -/
theorem step_history (s : EventQueue α T) (e : Step α T) (s' : EventQueue α T)
    (hstep : s.step size e = some s') :
    s'.accepted = s.accepted ++ posts size s e s' ∧ s'.dequeued = s.dequeued ++ takes s e s' := by
  cases e with
  | post t event =>
    obtain ⟨hidle, ⟨⟩⟩ := Option.ite_none_right_eq_some.mp hstep
    obtain ⟨haccepted, hdequeued⟩ := postLoop_history size (pc_of_isIdle hidle) event
    exact ⟨haccepted, hdequeued.trans (List.append_nil _).symm⟩
  | postNonBlocking t event =>
    obtain ⟨-, ⟨⟩⟩ := Option.ite_none_right_eq_some.mp hstep
    obtain ⟨haccepted, hdequeued, -⟩ := irqPostImpl_history size s event
    exact ⟨haccepted, hdequeued.trans (List.append_nil _).symm⟩
  | irqPost event =>
    cases hstep
    obtain ⟨haccepted, hdequeued, -⟩ := irqPostImpl_history size s event
    exact ⟨haccepted, hdequeued.trans (List.append_nil _).symm⟩
  | run t =>
    obtain ⟨hidle, ⟨⟩⟩ := Option.ite_none_right_eq_some.mp hstep
    obtain ⟨haccepted, hdequeued⟩ := runLoop_history size (pc_of_isIdle hidle)
    exact ⟨haccepted.trans (List.append_nil _).symm, hdequeued⟩
  | runOne t =>
    obtain ⟨-, ⟨⟩⟩ := Option.ite_none_right_eq_some.mp hstep
    simp only [posts, takes, runOneImpl]
    split_ifs with hn
    · exact ⟨(List.append_nil _).symm, (List.append_nil _).symm⟩
    · obtain ⟨haccepted, hdequeued, -⟩ := takeEvent_history size s
      exact ⟨haccepted.trans (List.append_nil _).symm, hdequeued⟩
  | resume t =>
    obtain ⟨-, ⟨⟩⟩ := Option.ite_none_left_eq_some.mp hstep
    exact resume_history size s t
  | wakeup t =>
    cases hstep
    exact ⟨(List.append_nil _).symm, (List.append_nil _).symm⟩

theorem run_eq_foldlM (size : ℕ) (s : EventQueue α T) (steps : List (Step α T)) :
    run size s steps = steps.foldlM (step size) s := by
  induction steps generalizing s with
  | nil => rfl
  | cons e steps ih => exact congrArg _ (funext fun s' => ih s')

/-- **The event queue.** In every interleaving, the events accepted are those of the posts that came back or
answered `true`, each once and in that order; they are those that were taken to be run, in the same order,
followed by those in the queue; the positions describe a ring; the two lists have exactly the threads
that wait without a token; and while some thread waits without a token, there are no more events, or
free slots, than threads that have a token and have not gone on. -/
theorem run_exactly_once (size : ℕ) (hsize : 0 < size) (events : ℕ → α) (next : T → Option T)
    (token : T → Bool) (steps : List (Step α T)) (s : EventQueue α T)
    (hrun : run size (init events next token) steps = some s) :
    s.accepted = posted size (init events next token) steps ∧
    s.dequeued = taken size (init events next token) steps ∧
    s.accepted = s.dequeued ++ s.contents size ∧
    RingPos size s.put s.get s.n ∧
    (∃ l, Linked s.next s.waitingGet l ∧ l.Nodup ∧ ∀ t, t ∈ l ↔ s.Getting t ∧ s.token t = false) ∧
    (∃ l, Linked s.next s.waitingPut l ∧ l.Nodup ∧ ∀ t, t ∈ l ↔ s.Putting t ∧ s.token t = false) ∧
    (s.getTokens.Finite ∧ ((∃ t, s.Getting t ∧ s.token t = false) → s.n ≤ s.getTokens.ncard)) ∧
    (s.putTokens.Finite ∧
      ((∃ t, s.Putting t ∧ s.token t = false) → size - s.n ≤ s.putTokens.ncard)) := by
  have h := run_balanced (init_balanced hsize events next token) steps hrun
  have hfold := (run_eq_foldlM size (init events next token) steps).symm.trans hrun
  refine ⟨eq_logged accepted (fun s e s' hstep => (step_history s e s' hstep).1) hfold,
    eq_logged dequeued (fun s e s' hstep => (step_history s e s' hstep).2) hfold, h.history, h.ring,
    h.gets.list, h.puts.list, ⟨h.gets.finite, fun hex => ?_⟩,
    h.puts.finite, fun hex => ?_⟩
  · exact h.getBalance fun hnone => h.gets.first_eq_none_iff.mp hnone hex
  · have hbal := h.putBalance fun hnone => h.puts.first_eq_none_iff.mp hnone hex
    omega

def noEvents : EventQueue ℕ ℕ := init (fun _ => 0) (fun _ => none) fun _ => false

/-- Two consumers wait, one event is posted, and a third thread takes it before the woken one goes on; then a
producer finds the queue full, and comes back when there is room again. -/
def stolenSteps : List (Step ℕ ℕ) :=
  [.run 1, .run 2, .irqPost 7, .runOne 3, .postNonBlocking 4 8, .post 4 9, .irqPost 5, .resume 2, .resume 4,
    .run 3, .run 3]

theorem run_exactly_once_stolen :
    ∃ s, run 1 noEvents stolenSteps = some s ∧ s.accepted = [7, 8, 9] ∧ s.dequeued = [7, 8, 9] ∧
      s.contents 1 = [] ∧ s.n ≤ s.getTokens.ncard := by
  obtain ⟨s, hrun, hposted, htaken, hpc, htok⟩ : ∃ s : EventQueue ℕ ℕ, run 1 noEvents stolenSteps = some s ∧
      posted 1 noEvents stolenSteps = [7, 8, 9] ∧ taken 1 noEvents stolenSteps = [7, 8, 9] ∧
      s.Getting 3 ∧ s.token 3 = false := ⟨_, rfl, by decide, by decide, rfl, by decide⟩
  obtain ⟨haccepted, hdequeued, hhist, -, -, -, ⟨-, hbal⟩, -⟩ :=
    run_exactly_once 1 (by decide) _ _ _ _ s hrun
  replace haccepted : s.accepted = [7, 8, 9] := haccepted.trans hposted
  replace hdequeued : s.dequeued = [7, 8, 9] := hdequeued.trans htaken
  rw [haccepted, hdequeued] at hhist
  exact ⟨s, hrun, haccepted, hdequeued, List.self_eq_append_right.mp hhist, hbal ⟨3, hpc, htok⟩⟩

end EventQueue

end Miosix
