import MiosixKernel.Sync.PthreadInvariant

/-!
# Fast mutexes and condition variables: runs

Any number of threads lock and unlock mutexes, wait on condition variables, signal them, and wake each
other up for no reason.

* `step_inv`, `run_inv`: every interleaving keeps the invariant;
* **`run_mutex_cond`**: what the invariant says about mutexes and condition variables.
-/

namespace Miosix

open Lib

namespace Pthread

variable {M C T : Type} [DecidableEq M] [DecidableEq C] [DecidableEq T] {isRecursive : M → Bool}
  {s s' : Pthread M C T} {q : M → List T} {cq : C → List T}

/-! ## Steps and runs -/

/-- **One step** keeps the invariant. -/
theorem step_inv (h : Inv isRecursive s q cq) (e : Event M C T) (hstep : s.step e = some s') :
    ∃ q' cq', Inv isRecursive s' q' cq' := by
  cases e with
  | lock t m =>
    obtain ⟨ht, hstep⟩ := Option.ite_none_right_eq_some.mp hstep
    obtain ⟨q', h'⟩ := irqDoMutexLock_inv h ht hstep
    exact ⟨q', cq, h'⟩
  | trylock t m =>
    obtain ⟨ht, ⟨⟩⟩ := Option.ite_none_right_eq_some.mp hstep
    obtain ⟨q', h'⟩ := pthreadMutexTrylock_inv h (m := m) ht
    exact ⟨q', cq, h'⟩
  | unlock t m =>
    obtain ⟨hown, ⟨⟩⟩ := Option.ite_none_right_eq_some.mp hstep
    obtain ⟨q', h'⟩ := unlock_inv h hown
    exact ⟨q', cq, h'⟩
  | condWait t c m =>
    obtain ⟨hown, ⟨⟩⟩ := Option.ite_none_right_eq_some.mp hstep
    exact condWait_inv h hown c
  | condSignal c =>
    cases hstep
    exact ⟨q, _, (pthreadCondSignal_inv h c).1⟩
  | condBroadcast c fuel => exact ⟨q, _, ((pthreadCondBroadcast_inv h c fuel).2 s' hstep).1⟩
  | resume t =>
    obtain ⟨hflags, hstep⟩ := Option.ite_none_left_eq_some.mp hstep
    simp only [Bool.or_eq_true, not_or, Bool.not_eq_true] at hflags
    obtain ⟨q', h'⟩ := resume_inv h hflags.2 hflags.1 hstep
    exact ⟨q', cq, h'⟩
  | wakeup t =>
    cases hstep
    exact ⟨q, cq, wakeup_inv h t⟩

/-- **A whole run** keeps the invariant. -/
theorem run_inv (h : Inv isRecursive s q cq) (events : List (Event M C T))
    (hrun : run s events = some s') : ∃ q' cq', Inv isRecursive s' q' cq' := by
  induction events generalizing s q cq with
  | nil =>
    cases hrun
    exact ⟨q, cq, h⟩
  | cons e events ih =>
    obtain ⟨s₁, hstep, hrest⟩ := Option.bind_eq_some_iff.mp hrun
    obtain ⟨q₁, cq₁, h₁⟩ := step_inv h e hstep
    exact ih h₁ hrest

omit [DecidableEq C] in
theorem init_inv (isRecursive : M → Bool) (mutexLast : M → Option T) (condLast : C → Option T)
    (mutexNext condNext : T → Option T) (saved : T → ℕ × ℤ) :
    Inv isRecursive (init isRecursive mutexLast condLast mutexNext condNext saved) (fun _ => [])
      (fun _ => []) where
  mutex m := by
    refine ⟨LinkedQueue.nil _ _, fun t => ?_, rfl, fun _ => rfl, fun t ht => ?_, fun t => ?_, fun _ => ?_,
      ?_⟩
    · simp [init, PthreadPc.waitsFor]
    · cases ht
    · simp [init]
    · cases hm : isRecursive m <;> simp [init, hm]
    · cases hm : isRecursive m <;> simp [init, hm]
  cond c := ⟨LinkedQueue.nil _ _, fun t => by simp [init, PthreadPc.waitsOn], rfl⟩
  saved t m depth ht := by cases ht
  awake _ _ := rfl
  flag t ht := by cases ht
  returned r hr := by cases hr

omit [DecidableEq C] in
/-- A `trylock` that returns true makes the thread the owner, with one more lock; otherwise it does nothing. -/
theorem pthreadMutexTrylock_spec (s : Pthread M C T) (m : M) (t : T) :
    (∀ s', s.pthreadMutexTrylock m t = (s', true) →
      (s'.mutex m).owner = some t ∧ s'.held m t = s.held m t + 1) ∧
    ∀ s', s.pthreadMutexTrylock m t = (s', false) → s' = s := by
  unfold pthreadMutexTrylock
  split_ifs with hfree hown
  · refine ⟨fun s' hs => ?_, fun s' hs => by cases hs⟩
    cases hs
    simp [setHeld, setOwner]
  · refine ⟨fun s' hs => ?_, fun s' hs => by cases hs⟩
    cases hs
    simp [setHeld, setRecursive, hown.1]
  · refine ⟨fun s' hs => (by cases hs), fun s' hs => ?_⟩
    cases hs
    rfl

/-- **Fast mutexes and condition variables.** In every interleaving:
* at most one thread has locked a mutex and not unlocked it, and it is the owner;
* `pthread_mutex_trylock` makes the thread the owner when it returns true, and does nothing otherwise;
* the queue of a mutex has exactly the threads in the lock loop that were not given it, each once, and
  those that arrived are those that were given it followed by the queue, in order;
* a thread given the mutex is not kept waiting;
* `pthread_cond_wait` returns with the depth that the mutex had before;
* the queue of a condition variable has exactly the threads not yet released, each once, in order; such
  a thread cannot go on, and every other one can;
* a signal releases exactly the first thread, and a broadcast returns and releases exactly those in the
  queue. -/
theorem run_mutex_cond (isRecursive : M → Bool) (mutexLast : M → Option T) (condLast : C → Option T)
    (mutexNext condNext : T → Option T) (saved : T → ℕ × ℤ) (events : List (Event M C T))
    (s : Pthread M C T)
    (hrun : run (init isRecursive mutexLast condLast mutexNext condNext saved) events = some s) :
    (∀ m t u, 0 < s.held m t → 0 < s.held m u → t = u) ∧
    (∀ m t, 0 < s.held m t → (s.mutex m).owner = some t) ∧
    (∀ m t, (∀ s', s.pthreadMutexTrylock m t = (s', true) →
        (s'.mutex m).owner = some t ∧ s'.held m t = s.held m t + 1) ∧
      ∀ s', s.pthreadMutexTrylock m t = (s', false) → s' = s) ∧
    (∀ m, ∃ q, LinkedQueue s.mutexNext (s.mutex m).first (s.mutex m).last q ∧
      (∀ t, t ∈ q ↔ (s.pc t).waitsFor = some m ∧ (s.mutex m).owner ≠ some t) ∧
      s.arrived m = s.granted m ++ q ∧
      ∀ t, (s.pc t).waitsFor = some m → t ∉ q → s.wait t = false) ∧
    (∀ r ∈ s.condReturned, r.1 = r.2) ∧
    ∀ c, ∃ q, LinkedQueue s.condNext (s.cond c).first (s.cond c).last q ∧
      (∀ t, t ∈ q ↔ (s.pc t).waitsOn = some c ∧ s.condWait t = true) ∧
      s.waited c = s.released c ++ q ∧
      (∀ t ∈ q, s.step (.resume t) = none) ∧
      (∀ t, (s.pc t).waitsOn = some c → t ∉ q → s.wait t = false ∧ s.condWait t = false) ∧
      (s.pthreadCondSignal c).released c = s.released c ++ q.take 1 ∧
      (∀ t, (s.pthreadCondSignal c).condWait t = (s.condWait t && decide (t ∉ q.take 1))) ∧
      (∀ fuel, q.length < fuel → ∃ s', pthreadCondBroadcast fuel s c = some s') ∧
      ∀ fuel s', pthreadCondBroadcast fuel s c = some s' →
        s'.released c = s.released c ++ q ∧
        ∀ t, s'.condWait t = (s.condWait t && decide (t ∉ q)) := by
  obtain ⟨q, cq, h⟩ := run_inv (init_inv isRecursive mutexLast condLast mutexNext condNext saved) events
    hrun
  have howner : ∀ m t, 0 < s.held m t → (s.mutex m).owner = some t := by
    intro m t ht
    rw [(h.mutex m).held t] at ht
    by_contra hne
    rw [if_neg fun hn => hne hn.1] at ht
    exact absurd ht (lt_irrefl 0)
  refine ⟨fun m t u ht hu => ?_, howner, pthreadMutexTrylock_spec s, fun m => ⟨q m, (h.mutex m).queue, (h.mutex m).mem,
    (h.mutex m).fifo, fun t ht htq => ?_⟩, h.returned, fun c => ⟨cq c, (h.cond c).queue, (h.cond c).mem,
    (h.cond c).fifo, fun t ht => ?_, fun t ht htq => ⟨?_, ?_⟩, (pthreadCondSignal_inv h c).2.1,
    (pthreadCondSignal_inv h c).2.2, fun fuel => (pthreadCondBroadcast_inv h c fuel).1,
    fun fuel s' hs => ((pthreadCondBroadcast_inv h c fuel).2 s' hs).2⟩⟩
  · exact Option.some.inj ((howner m t ht).symm.trans (howner m u hu))
  · refine (h.mutex m).awake t ?_ ht
    by_contra hne
    exact htq (((h.mutex m).mem t).mpr ⟨ht, hne⟩)
  · simp [step, (((h.cond c).mem t).mp ht).2]
  · refine h.awake t ?_
    cases hp : s.pc t <;> simp_all [PthreadPc.waitsOn, PthreadPc.waitsFor]
  · by_contra hne
    exact htq (((h.cond c).mem t).mpr ⟨ht, by simpa using hne⟩)

/-- A thread waits on a condition variable, and another one signals it with the mutex locked, which a third one
tries to lock. -/
def signalEvents : List (Event Unit Unit ℕ) :=
  [.lock 1 (), .lock 1 (), .condWait 1 () (), .lock 2 (), .wakeup 1, .condSignal (), .resume 1, .trylock 3 (),
    .unlock 2 (), .resume 1]

theorem run_mutex_cond_signal :
    ∃ s s' : Pthread Unit Unit ℕ, run (init (fun _ => true) (fun _ => none) (fun _ => none) (fun _ => none)
      (fun _ => none) (fun _ => (0, 0))) signalEvents = some s ∧ s.condReturned = [(1, 1)] ∧ s.held () 1 = 2 ∧
      (s.mutex ()).owner = some 1 ∧ s.pthreadMutexTrylock () 1 = (s', true) ∧ s'.held () 1 = 3 ∧
      (s'.mutex ()).owner = some 1 := by
  obtain ⟨s, hrun, hret, hheld, htry⟩ : ∃ s : Pthread Unit Unit ℕ, run (init (fun _ => true)
      (fun _ => none) (fun _ => none) (fun _ => none) (fun _ => none) (fun _ => (0, 0))) signalEvents = some s ∧
      s.condReturned = [(1, 1)] ∧ s.held () 1 = 2 ∧ (s.pthreadMutexTrylock () 1).2 = true :=
    ⟨_, rfl, by decide, by decide, by decide⟩
  obtain ⟨-, howner, htrylock, -⟩ := run_mutex_cond _ _ _ _ _ _ _ s hrun
  have htry' : s.pthreadMutexTrylock () 1 = ((s.pthreadMutexTrylock () 1).1, true) := Prod.ext rfl htry
  obtain ⟨hown, hheld'⟩ := (htrylock () 1).1 _ htry'
  exact ⟨s, _, hrun, hret, hheld, howner () 1 (by rw [hheld]; decide), htry', by rw [hheld', hheld], hown⟩

end Pthread

end Miosix
