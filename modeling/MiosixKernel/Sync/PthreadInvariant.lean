import MiosixKernel.Sync.Pthread

/-!
# Fast mutexes and condition variables: the invariant

A thread waits for at most one mutex and on at most one condition variable, so the lists of different
objects share no node, and a step on one of them leaves the others as they are.

* `MutexOk`: a mutex, its queue, and what each thread holds of it;
* `CondOk`: a condition variable and its queue;
* `Inv`: all of them, and the threads inside `pthread_cond_wait`;
* `irqDoMutexLock_inv`, `unlock_inv`, `condWait_inv`, `resume_inv`: each operation keeps it;
* **`pthreadCondSignal_inv`**, **`pthreadCondBroadcast_inv`**: who is released.
-/

namespace Miosix

open Lib

variable {M C T : Type}

/-- The mutex in whose lock loop a thread is. -/
def PthreadPc.waitsFor : PthreadPc M C → Option M
  | .locking m => some m
  | .relocking m _ => some m
  | _ => none

/-- The condition variable on which a thread waits. -/
def PthreadPc.waitsOn : PthreadPc M C → Option C
  | .condWaiting c _ _ => some c
  | _ => none

/-- The mutex that a thread in `pthread_cond_wait` locks before it returns, and how deep. -/
def PthreadPc.relocks : PthreadPc M C → Option (M × ℕ)
  | .condWaiting _ m depth => some (m, depth)
  | .relocking m depth => some (m, depth)
  | _ => none

namespace Pthread

variable [DecidableEq M] [DecidableEq T]

/-- A mutex, and its queue. -/
structure MutexOk (isRecursive : Bool) (s : Pthread M C T) (m : M) (q : List T) : Prop where
  queue : LinkedQueue s.mutexNext (s.mutex m).first (s.mutex m).last q
  mem : ∀ t, t ∈ q ↔ (s.pc t).waitsFor = some m ∧ (s.mutex m).owner ≠ some t
  fifo : s.arrived m = s.granted m ++ q
  free : (s.mutex m).owner = none → q = []
  /-- A thread that was given the mutex can go on. -/
  awake : ∀ t, (s.mutex m).owner = some t → (s.pc t).waitsFor = some m → s.wait t = false
  held : ∀ t, s.held m t = if (s.mutex m).owner = some t ∧ (s.pc t).waitsFor ≠ some m then
    (s.mutex m).recursive.toNat + 1 else 0
  /-- A mutex that nobody has locked yet has depth zero. -/
  depth : (∀ t, (s.mutex m).owner = some t → (s.pc t).waitsFor = some m) →
    (s.mutex m).recursive.toNat = 0
  kind : if isRecursive then 0 ≤ (s.mutex m).recursive else (s.mutex m).recursive = -1

/-- A condition variable, and its queue. -/
structure CondOk (s : Pthread M C T) (c : C) (q : List T) : Prop where
  queue : LinkedQueue s.condNext (s.cond c).first (s.cond c).last q
  mem : ∀ t, t ∈ q ↔ (s.pc t).waitsOn = some c ∧ s.condWait t = true
  fifo : s.waited c = s.released c ++ q

/-- A thread inside `pthread_cond_wait` will lock the mutex as deep as it had it. -/
def SavedOk (isRecursive : M → Bool) (s : Pthread M C T) (t : T) : Prop :=
  ∀ m depth, (s.pc t).relocks = some (m, depth) →
    (s.saved t).1 = depth + 1 ∧ (if isRecursive m then (s.saved t).2 = depth
      else (s.saved t).2 = -1 ∧ depth = 0)

structure Inv (isRecursive : M → Bool) (s : Pthread M C T) (q : M → List T) (cq : C → List T) :
    Prop where
  mutex : ∀ m, MutexOk (isRecursive m) s m (q m)
  cond : ∀ c, CondOk s c (cq c)
  saved : ∀ t, SavedOk isRecursive s t
  /-- A thread that is in no lock loop is not kept waiting. -/
  awake : ∀ t, (s.pc t).waitsFor = none → s.wait t = false
  /-- Only a thread that waits has its condition wait flag set. -/
  flag : ∀ t, s.condWait t = true → (s.pc t).waitsOn ≠ none
  returned : ∀ r ∈ s.condReturned, r.1 = r.2

variable {isRecursive : M → Bool} {s s' : Pthread M C T} {m : M} {c : C} {t : T} {q : M → List T}
  {cq : C → List T} {l : List T} {k : Bool}

/-! ## What does not change -/

/-- A step that does not concern the mutex. -/
theorem MutexOk.frame (h : MutexOk k s m l) (hm : s'.mutex m = s.mutex m)
    (hfifo : s'.arrived m = s.arrived m ∧ s'.granted m = s.granted m) (hheld : s'.held m = s.held m)
    (hnext : ∀ x ∈ l, s'.mutexNext x = s.mutexNext x)
    (hpc : ∀ u, (s'.pc u).waitsFor = some m ↔ (s.pc u).waitsFor = some m)
    (hwait : ∀ u, (s.pc u).waitsFor = some m → s.wait u = false → s'.wait u = false) :
    MutexOk k s' m l := by
  refine ⟨?_, ?_, ?_, ?_, ?_, ?_, ?_, ?_⟩
  · rw [hm]
    exact h.queue.congr hnext
  · intro u
    rw [h.mem u, hm, hpc u]
  · rw [hfifo.1, hfifo.2]
    exact h.fifo
  · rw [hm]
    exact h.free
  · intro u hown hu
    rw [hm] at hown
    rw [hpc u] at hu
    exact hwait u hu (h.awake u hown hu)
  · intro u
    rw [hheld, h.held u, hm]
    simp only [ne_eq, hpc u]
  · intro hall
    rw [hm] at hall ⊢
    exact h.depth fun u hu => (hpc u).mp (hall u hu)
  · rw [hm]
    exact h.kind

omit [DecidableEq M] [DecidableEq T] in
/-- A step that does not concern the condition variable. -/
theorem CondOk.frame (h : CondOk s c l) (hc : s'.cond c = s.cond c)
    (hfifo : s'.waited c = s.waited c ∧ s'.released c = s.released c)
    (hnext : ∀ x ∈ l, s'.condNext x = s.condNext x)
    (hmem : ∀ u, (s'.pc u).waitsOn = some c ∧ s'.condWait u = true ↔
      (s.pc u).waitsOn = some c ∧ s.condWait u = true) : CondOk s' c l := by
  refine ⟨?_, fun u => ?_, ?_⟩
  · rw [hc]
    exact h.queue.congr hnext
  · rw [h.mem u, hmem u]
  · rw [hfifo.1, hfifo.2]
    exact h.fifo

/-! ## One mutex -/

section Mutex

variable (h : MutexOk k s m l)
include h

/-- The running thread locks a free mutex, or changes the depth of one that it owns. -/
theorem MutexOk.level (hown : (s.mutex m).owner = none ∨ (s.mutex m).owner = some t)
    (ht : (s.pc t).waitsFor ≠ some m) (r : ℤ) (hr : if k then 0 ≤ r else r = -1)
    (hmutex : s'.mutex m = { s.mutex m with owner := some t, recursive := r })
    (hfifo : s'.arrived m = s.arrived m ∧ s'.granted m = s.granted m)
    (hheld : s'.held m = Function.update (s.held m) t (r.toNat + 1))
    (hnext : s'.mutexNext = s.mutexNext)
    (hpc : ∀ u, (s'.pc u).waitsFor = some m ↔ (s.pc u).waitsFor = some m) : MutexOk k s' m l := by
  refine ⟨?_, fun u => ?_, ?_, ?_, fun u hu hw => ?_, fun u => ?_, fun hall => ?_, ?_⟩
  · rw [hmutex, hnext]
    exact h.queue
  · rw [h.mem u, hmutex, hpc u]
    rcases hown with hown | hown
    · -- nobody waits for a free mutex
      have hnot : ¬((s.pc u).waitsFor = some m ∧ (s.mutex m).owner ≠ some u) := by
        rw [← h.mem u, h.free hown]
        simp
      simp only [hown, ne_eq, reduceCtorEq, not_false_eq_true, and_true] at hnot
      simp [hnot]
    · rw [hown]
  · rw [hfifo.1, hfifo.2]
    exact h.fifo
  · rw [hmutex]
    exact fun hn => by cases hn
  · rw [hmutex] at hu
    obtain rfl : t = u := Option.some.inj hu
    exact absurd ((hpc t).mp hw) ht
  · rw [hheld, hmutex]
    by_cases hut : u = t
    · subst hut
      simp [(hpc u).not.mpr ht]
    · have hz : s.held m u = 0 := by
        rw [h.held u, if_neg]
        rintro ⟨hou, -⟩
        rcases hown with hown | hown <;> rw [hown] at hou <;> cases hou
        exact hut rfl
      simp [Function.update_of_ne hut, hz, Ne.symm hut]
  · rw [hmutex] at hall
    exact absurd ((hpc t).mp (hall t rfl)) ht
  · rw [hmutex]
    exact hr

/-- A thread that was given the mutex leaves the loop. -/
theorem MutexOk.granted (hown : (s.mutex m).owner = some t) (ht : (s.pc t).waitsFor = some m) (r : ℤ)
    (hr : if k then 0 ≤ r else r = -1) (hmutex : s'.mutex m = { s.mutex m with recursive := r })
    (hfifo : s'.arrived m = s.arrived m ∧ s'.granted m = s.granted m)
    (hheld : s'.held m = Function.update (s.held m) t (r.toNat + 1))
    (hnext : s'.mutexNext = s.mutexNext)
    (hpc : ∀ u, (s'.pc u).waitsFor = some m ↔ u ≠ t ∧ (s.pc u).waitsFor = some m) :
    MutexOk k s' m l := by
  have hnot : (s'.pc t).waitsFor ≠ some m := fun hw => ((hpc t).mp hw).1 rfl
  have howner : (s'.mutex m).owner = some t := by rw [hmutex]; exact hown
  refine ⟨?_, fun u => ?_, ?_, ?_, fun u hu hw => ?_, fun u => ?_, fun hall => ?_, ?_⟩
  · rw [hmutex, hnext]
    exact h.queue
  · rw [h.mem u, howner, hown, hpc u]
    constructor
    · rintro ⟨hw, hne⟩
      exact ⟨⟨fun heq => hne (by rw [heq]), hw⟩, hne⟩
    · rintro ⟨⟨-, hw⟩, hne⟩
      exact ⟨hw, hne⟩
  · rw [hfifo.1, hfifo.2]
    exact h.fifo
  · rw [howner]
    exact fun hn => by cases hn
  · obtain rfl : t = u := Option.some.inj (howner.symm.trans hu)
    exact absurd hw hnot
  · rw [hheld, howner]
    by_cases hut : u = t
    · subst hut
      simp [hnot, hmutex]
    · have hz : s.held m u = 0 := by
        rw [h.held u, if_neg]
        rintro ⟨hou, -⟩
        exact hut (Option.some.inj (hou.symm.trans hown))
      simp [Function.update_of_ne hut, hz, Ne.symm hut]
  · exact absurd (hall t howner) hnot
  · rw [hmutex]
    exact hr

/-- A thread waits for a mutex that another one has. -/
theorem MutexOk.wait (hown : (s.mutex m).owner ≠ none ∧ (s.mutex m).owner ≠ some t)
    (ht : (s.pc t).waitsFor ≠ some m) (pc : PthreadPc M C) (hw : pc.waitsFor = some m) :
    MutexOk k (s.waitMutex m t pc) m (l ++ [t]) := by
  have htl : t ∉ l := fun htl => ht ((h.mem t).mp htl).1
  have hmutex : (s.waitMutex m t pc).mutex m = { s.mutex m with
      first := LinkedQueue.appendFirst (s.mutex m).first t, last := some t } := by
    simp [waitMutex, setPc, setWait, enqueue]
  have hpc : ∀ u, ((s.waitMutex m t pc).pc u).waitsFor = some m ↔
      u = t ∨ (s.pc u).waitsFor = some m := by
    intro u
    by_cases hut : u = t <;> simp [waitMutex, setPc, setWait, enqueue, hut, hw]
  refine ⟨?_, fun u => ?_, ?_, ?_, fun u hu hwu => ?_, fun u => ?_, fun hall => ?_, ?_⟩
  · rw [hmutex]
    exact h.queue.append htl
  · rw [List.mem_append, h.mem u, hmutex, hpc u, List.mem_singleton]
    constructor
    · rintro (⟨hwu, hne⟩ | rfl)
      · exact ⟨.inr hwu, hne⟩
      · exact ⟨.inl rfl, hown.2⟩
    · rintro ⟨rfl | hwu, hne⟩
      · exact .inr rfl
      · exact .inl ⟨hwu, hne⟩
  · simp [waitMutex, setPc, setWait, enqueue, h.fifo]
  · rw [hmutex]
    exact fun hn => absurd hn hown.1
  · rw [hmutex] at hu
    have hut : u ≠ t := by
      rintro rfl
      exact hown.2 hu
    have hold := h.awake u hu (((hpc u).mp hwu).resolve_left hut)
    simpa [waitMutex, setPc, setWait, enqueue, hut] using hold
  · have hheld : (s.waitMutex m t pc).held = s.held := rfl
    rw [hheld, h.held u, hmutex]
    by_cases hut : u = t
    · subst hut
      simp [hown.2]
    · simp only [ne_eq, hpc u, hut, false_or]
  · rw [hmutex] at hall ⊢
    refine h.depth fun u hu => ((hpc u).mp (hall u hu)).resolve_left ?_
    rintro rfl
    exact hown.2 hu
  · rw [hmutex]
    exact h.kind

/-- The owner gives the mutex to the first thread of its queue, if there is one. -/
theorem MutexOk.handOver (hown : (s.mutex m).owner = some t) (ht : (s.pc t).waitsFor ≠ some m) (r : ℤ)
    (hr : (if k then 0 ≤ r else r = -1) ∧ r.toNat = 0)
    (hmutex : s'.mutex m = { (s.handOver m).mutex m with recursive := r })
    (hfifo : s'.arrived m = s.arrived m ∧ s'.granted m = (s.handOver m).granted m)
    (hheld : s'.held m = Function.update (s.held m) t 0) (hnext : s'.mutexNext = s.mutexNext)
    (hwait : s'.wait = (s.handOver m).wait)
    (hpc : ∀ u, (s'.pc u).waitsFor = some m ↔ (s.pc u).waitsFor = some m) :
    MutexOk k s' m l.tail := by
  have hzero : ∀ u, s'.held m u = 0 := by
    intro u
    rw [hheld]
    by_cases hut : u = t
    · simp [hut]
    · rw [Function.update_of_ne hut, h.held u, if_neg]
      rintro ⟨hou, -⟩
      exact hut (Option.some.inj (hou.symm.trans hown))
  cases l with
  | nil =>
    have hfirst : (s.mutex m).first = none := h.queue.linked
    have hover : s.handOver m = s.setOwner m none := by simp [Pthread.handOver, hfirst]
    have hmutex' : s'.mutex m = { s.mutex m with owner := none, recursive := r } := by
      rw [hmutex, hover]
      simp [setOwner]
    -- whoever waits was given the mutex, but its owner does not wait
    have hnone : ∀ u, (s.pc u).waitsFor ≠ some m := by
      intro u hu
      refine List.not_mem_nil ((h.mem u).mpr ⟨hu, fun hou => ?_⟩)
      exact ht ((Option.some.inj (hown.symm.trans hou)) ▸ hu)
    refine ⟨?_, fun u => ?_, ?_, fun _ => rfl, fun u hu => ?_, fun u => ?_, fun _ => ?_, ?_⟩
    · rw [hmutex', hnext]
      exact h.queue
    · simp [hpc u, hnone u]
    · rw [hfifo.1, hfifo.2, hover]
      exact h.fifo
    · rw [hmutex'] at hu
      cases hu
    · rw [hzero u, hmutex']
      simp
    · rw [hmutex']
      exact hr.2
    · rw [hmutex']
      exact hr.1
  | cons x l =>
    have hfirst : (s.mutex m).first = some x := h.queue.linked.1
    obtain ⟨hwx, hnx⟩ := (h.mem x).mp List.mem_cons_self
    obtain ⟨hxl, -⟩ := List.nodup_cons.mp h.queue.nodup
    have hmutex' : s'.mutex m = { s.mutex m with
        owner := some x, first := s.mutexNext x, recursive := r } := by
      rw [hmutex]
      simp [Pthread.handOver, hfirst]
    have hwx' : (s'.pc x).waitsFor = some m := (hpc x).mpr hwx
    refine ⟨?_, fun u => ?_, ?_, fun hn => ?_, fun u hu _ => ?_, fun u => ?_, fun _ => ?_, ?_⟩
    · rw [hmutex', hnext]
      exact h.queue.tail
    · rw [hmutex', hpc u, List.tail_cons]
      have hmem := h.mem u
      constructor
      · intro hul
        refine ⟨(hmem.mp (List.mem_cons_of_mem x hul)).1, fun heq => hxl ?_⟩
        exact (Option.some.inj heq) ▸ hul
      · rintro ⟨hwu, hne⟩
        have hut : (s.mutex m).owner ≠ some u := fun hou =>
          ht ((Option.some.inj (hown.symm.trans hou)) ▸ hwu)
        rcases List.mem_cons.mp (hmem.mpr ⟨hwu, hut⟩) with rfl | hul
        · exact absurd rfl hne
        · exact hul
    · rw [hfifo.1, hfifo.2]
      simp [Pthread.handOver, hfirst, h.fifo]
    · rw [hmutex'] at hn
      cases hn
    · rw [hmutex'] at hu
      obtain rfl : x = u := Option.some.inj hu
      rw [hwait]
      simp [Pthread.handOver, hfirst, setWait]
    · rw [hzero u, hmutex']
      by_cases hux : x = u
      · subst hux
        simp [hwx']
      · simp [hux]
    · rw [hmutex']
      exact hr.2
    · rw [hmutex']
      exact hr.1

end Mutex

/-! ## One condition variable -/

omit [DecidableEq M] in
/-- The running thread waits on the condition variable. -/
theorem CondOk.wait [DecidableEq C] (h : CondOk s c l) (ht : (s.pc t).waitsOn ≠ some c)
    (hcond : s'.cond c = (s.enqueueCond c t).cond c)
    (hnext : s'.condNext = (s.enqueueCond c t).condNext)
    (hflag : s'.condWait = Function.update s.condWait t true)
    (hfifo : s'.waited c = s.waited c ++ [t] ∧ s'.released c = s.released c)
    (hpc : ∀ u, (s'.pc u).waitsOn = some c ↔ u = t ∨ (s.pc u).waitsOn = some c) :
    CondOk s' c (l ++ [t]) := by
  have htl : t ∉ l := fun htl => ht ((h.mem t).mp htl).1
  refine ⟨?_, fun u => ?_, ?_⟩
  · rw [hcond, hnext]
    simpa [enqueueCond] using h.queue.append htl
  · rw [List.mem_append, h.mem u, hpc u, hflag, List.mem_singleton]
    by_cases hut : u = t <;> simp [hut]
  · rw [hfifo.1, hfifo.2, h.fifo, List.append_assoc]

omit [DecidableEq M] in
/-- The first thread of the queue is released. -/
theorem CondOk.release [DecidableEq C] {x : T} (h : CondOk s c (x :: l)) : CondOk (s.release c x) c l := by
  obtain ⟨hxl, -⟩ := List.nodup_cons.mp h.queue.nodup
  refine ⟨?_, fun u => ?_, ?_⟩
  · simpa [Pthread.release] using h.queue.tail
  · have hmem := h.mem u
    by_cases hux : u = x
    · subst hux
      simp [Pthread.release, hxl]
    · simpa [Pthread.release, hux] using hmem
  · simp [Pthread.release, h.fifo]

/-! ## All of them -/

/-- A step of thread `t` on mutex `m` leaves the other mutexes alone. -/
theorem Inv.mutex_update (h : Inv isRecursive s q cq) (hm : MutexOk (isRecursive m) s' m l)
    (hmutex : ∀ n, n ≠ m → s'.mutex n = s.mutex n ∧ s'.arrived n = s.arrived n ∧
      s'.granted n = s.granted n ∧ s'.held n = s.held n)
    (hnext : ∀ n, n ≠ m → ∀ x ∈ q n, s'.mutexNext x = s.mutexNext x)
    (hpc : ∀ u, u ≠ t → s'.pc u = s.pc u)
    (ht : ∀ n, n ≠ m → (s.pc t).waitsFor ≠ some n ∧ (s'.pc t).waitsFor ≠ some n)
    (hwait : ∀ u, u ≠ t → s.wait u = false → s'.wait u = false) (n : M) :
    MutexOk (isRecursive n) s' n (Function.update q m l n) := by
  by_cases hn : n = m
  · subst hn
    rw [Function.update_self]
    exact hm
  · rw [Function.update_of_ne hn]
    obtain ⟨hmut, harr, hgr, hheld⟩ := hmutex n hn
    refine (h.mutex n).frame hmut ⟨harr, hgr⟩ hheld (hnext n hn) (fun u => ?_) fun u hu hwu => ?_
    · by_cases hut : u = t
      · subst hut
        exact iff_of_false (ht n hn).2 (ht n hn).1
      · rw [hpc u hut]
    · refine hwait u ?_ hwu
      rintro rfl
      exact (ht n hn).1 hu

/-- A step of thread `t` that does not concern the condition variables. -/
theorem Inv.cond_same (h : Inv isRecursive s q cq) (hcond : s'.cond = s.cond)
    (hnext : s'.condNext = s.condNext) (hflag : s'.condWait = s.condWait)
    (hfifo : s'.waited = s.waited ∧ s'.released = s.released)
    (hpc : ∀ u, u ≠ t → s'.pc u = s.pc u) (ht : s.condWait t = false) (c : C) : CondOk s' c (cq c) := by
  refine (h.cond c).frame (by rw [hcond]) ⟨by rw [hfifo.1], by rw [hfifo.2]⟩
    (fun _ _ => by rw [hnext]) fun u => ?_
  rw [hflag]
  by_cases hut : u = t
  · subst hut
    simp [ht]
  · rw [hpc u hut]

/-- The running thread is not suspended. -/
theorem Inv.condWait_idle (h : Inv isRecursive s q cq) (ht : s.pc t = .idle) : s.condWait t = false := by
  by_contra hne
  exact h.flag t (by simpa using hne) (by rw [ht]; rfl)

/-- A step of thread `t` that concerns mutex `m` only. -/
theorem Inv.mutexStep (h : Inv isRecursive s q cq) (t : T) (hm : MutexOk (isRecursive m) s' m l)
    (hmutex : ∀ n, n ≠ m → s'.mutex n = s.mutex n ∧ s'.arrived n = s.arrived n ∧
      s'.granted n = s.granted n ∧ s'.held n = s.held n)
    (hnext : ∀ n, n ≠ m → ∀ x ∈ q n, s'.mutexNext x = s.mutexNext x)
    (hpc : ∀ u, u ≠ t → s'.pc u = s.pc u)
    (ht : ∀ n, n ≠ m → (s.pc t).waitsFor ≠ some n ∧ (s'.pc t).waitsFor ≠ some n)
    (hwait : ∀ u, u ≠ t → s.wait u = false → s'.wait u = false)
    (hcond : s'.cond = s.cond ∧ s'.condNext = s.condNext ∧ s'.condWait = s.condWait ∧
      s'.waited = s.waited ∧ s'.released = s.released)
    (hawake : (s'.pc t).waitsFor = none → s'.wait t = false)
    (hflag : s.condWait t = false) (hsaved : s'.saved = s.saved)
    (hrelock : (s'.pc t).relocks = none ∨ (s'.pc t).relocks = (s.pc t).relocks)
    (hret : ∀ r ∈ s'.condReturned, r.1 = r.2) : Inv isRecursive s' (Function.update q m l) cq := by
  obtain ⟨hc, hcn, hcw, hfifo⟩ := hcond
  refine ⟨h.mutex_update hm hmutex hnext hpc ht hwait, h.cond_same hc hcn hcw hfifo hpc hflag,
    fun u n d hu => ?_, fun u hu => ?_, fun u hu => ?_, hret⟩
  · rw [hsaved]
    by_cases hut : u = t
    · subst hut
      rcases hrelock with hr | hr <;> rw [hr] at hu
      · cases hu
      · exact h.saved u n d hu
    · rw [hpc u hut] at hu
      exact h.saved u n d hu
  · by_cases hut : u = t
    · subst hut
      exact hawake hu
    · rw [hpc u hut] at hu
      exact hwait u hut (h.awake u hu)
  · rw [hcw] at hu
    by_cases hut : u = t
    · subst hut
      rw [hflag] at hu
      cases hu
    · rw [hpc u hut]
      exact h.flag u hu

/-! ## Locking -/

omit [DecidableEq M] [DecidableEq T] in
theorem waitsFor_idle (ht : s.pc t = .idle) (m : M) : (s.pc t).waitsFor ≠ some m := by
  simp [ht, PthreadPc.waitsFor]

/-- A thread that is not suspended locks a free mutex. -/
theorem lockFree_inv (h : Inv isRecursive s q cq) (ht : s.pc t = .idle)
    (hown : (s.mutex m).owner = none) :
    Inv isRecursive ((s.setOwner m (some t)).setHeld m t (s.held m t + 1))
      (Function.update q m (q m)) cq := by
  have hm := h.mutex m
  have hdepth : (s.mutex m).recursive.toNat = 0 := hm.depth fun u hu => by
    rw [hown] at hu
    cases hu
  have hheld : s.held m t + 1 = (s.mutex m).recursive.toNat + 1 := by
    rw [hm.held t, hown, hdepth]
    simp
  refine h.mutexStep t ?_ (fun n hn => by simp [setOwner, setHeld, hn]) (fun _ _ _ _ => rfl)
    (fun _ _ => rfl) (fun n _ => ⟨waitsFor_idle ht n, waitsFor_idle ht n⟩) (fun _ _ => id)
    ⟨rfl, rfl, rfl, rfl, rfl⟩ (h.awake t) (h.condWait_idle ht) rfl (.inr rfl) h.returned
  refine hm.level (.inl hown) (waitsFor_idle ht m) (s.mutex m).recursive hm.kind
    (by simp [setOwner, setHeld]) ⟨rfl, rfl⟩ ?_ rfl fun _ => Iff.rfl
  simp [setOwner, setHeld, hheld]

/-- The owner changes the depth of a recursive mutex. -/
theorem setLevel_inv (h : Inv isRecursive s q cq) (hown : s.owns t m)
    (hrec : (s.mutex m).recursive ≥ 0) (r : ℤ) (hr : 0 ≤ r) :
    Inv isRecursive ((s.setRecursive m r).setHeld m t (r.toNat + 1)) (Function.update q m (q m)) cq := by
  obtain ⟨ht, hown⟩ := hown
  have hm := h.mutex m
  have hkind : isRecursive m = true := by
    by_contra hk
    have := hm.kind
    rw [if_neg hk] at this
    omega
  refine h.mutexStep t ?_ (fun n hn => by simp [setRecursive, setHeld, hn]) (fun _ _ _ _ => rfl)
    (fun _ _ => rfl) (fun n _ => ⟨waitsFor_idle ht n, waitsFor_idle ht n⟩) (fun _ _ => id)
    ⟨rfl, rfl, rfl, rfl, rfl⟩ (h.awake t) (h.condWait_idle ht) rfl (.inr rfl) h.returned
  refine hm.level (.inr hown) (waitsFor_idle ht m) r (by rw [hkind]; simpa using hr)
    (by simp [setRecursive, setHeld, hown]) ⟨rfl, rfl⟩ ?_ rfl fun _ => Iff.rfl
  simp [setRecursive, setHeld]

theorem held_of_owns (h : Inv isRecursive s q cq) (hown : s.owns t m) :
    s.held m t = (s.mutex m).recursive.toNat + 1 := by
  rw [(h.mutex m).held t, if_pos ⟨hown.2, waitsFor_idle hown.1 m⟩]

theorem lockAgain_inv (h : Inv isRecursive s q cq) (hown : s.owns t m)
    (hrec : (s.mutex m).recursive ≥ 0) :
    Inv isRecursive ((s.setRecursive m ((s.mutex m).recursive + 1)).setHeld m t (s.held m t + 1))
      (Function.update q m (q m)) cq := by
  have hheld : s.held m t + 1 = ((s.mutex m).recursive + 1).toNat + 1 := by
    rw [held_of_owns h hown]
    omega
  rw [hheld]
  exact setLevel_inv h hown hrec _ (by omega)

/-- A thread joins the queue of a mutex that another one has. -/
theorem waitMutex_inv (h : Inv isRecursive s q cq)
    (hown : (s.mutex m).owner ≠ none ∧ (s.mutex m).owner ≠ some t)
    (ht : (s.pc t).waitsFor = none) (hflag : s.condWait t = false) (pc : PthreadPc M C)
    (hw : pc.waitsFor = some m) (hrelock : pc.relocks = none ∨ pc.relocks = (s.pc t).relocks) :
    Inv isRecursive (s.waitMutex m t pc) (Function.update q m (q m ++ [t])) cq := by
  have hpct : (s.waitMutex m t pc).pc t = pc := by simp [waitMutex, setPc]
  refine h.mutexStep t ((h.mutex m).wait hown (by rw [ht]; simp) pc hw)
    (fun n hn => by simp [waitMutex, setPc, setWait, enqueue, hn]) (fun n hn x hx => ?_)
    (fun u hu => by simp [waitMutex, setPc, setWait, enqueue, hu])
    (fun n hn => ⟨by rw [ht]; simp, by rw [hpct, hw]; simpa using Ne.symm hn⟩)
    (fun u hu hwu => by simpa [waitMutex, setPc, setWait, enqueue, hu] using hwu)
    ⟨rfl, rfl, rfl, rfl, rfl⟩ (fun hn => by rw [hpct, hw] at hn; cases hn) hflag rfl
    (by rw [hpct]; exact hrelock) h.returned
  -- the nodes of another mutex belong to threads that do not wait for this one
  have hxn := (((h.mutex n).mem x).mp hx).1
  refine (h.mutex m).queue.appendNext_of_ne ?_ fun hxm => ?_
  · rintro rfl
    rw [ht] at hxn
    cases hxn
  · rw [(((h.mutex m).mem x).mp hxm).1] at hxn
    exact hn (Option.some.inj hxn).symm

theorem irqDoMutexLock_inv (h : Inv isRecursive s q cq) (ht : s.pc t = .idle)
    (hstep : s.irqDoMutexLock m t = some s') : ∃ q', Inv isRecursive s' q' cq := by
  unfold irqDoMutexLock at hstep
  split_ifs at hstep with hnone hown hrec
  · cases hstep
    exact ⟨_, lockFree_inv h ht hnone⟩
  · cases hstep
    exact ⟨_, lockAgain_inv h ⟨ht, hown⟩ hrec⟩
  · cases hstep
    exact ⟨_, waitMutex_inv h ⟨hnone, hown⟩ (by rw [ht]; rfl) (h.condWait_idle ht) _ rfl (.inl rfl)⟩

theorem pthreadMutexTrylock_inv (h : Inv isRecursive s q cq) (ht : s.pc t = .idle) :
    ∃ q', Inv isRecursive (s.pthreadMutexTrylock m t).1 q' cq := by
  unfold pthreadMutexTrylock
  split_ifs with hnone hown
  · exact ⟨_, lockFree_inv h ht hnone⟩
  · exact ⟨_, lockAgain_inv h ⟨ht, hown.1⟩ hown.2⟩
  · exact ⟨q, h⟩

/-! ## Unlocking -/

/-- What giving the mutex away leaves as it is. -/
structure HandedOver (s s' : Pthread M C T) (m : M) : Prop where
  recursive : (s'.mutex m).recursive = (s.mutex m).recursive
  other : ∀ n, n ≠ m → s'.mutex n = s.mutex n ∧ s'.granted n = s.granted n
  arrived : s'.arrived = s.arrived
  held : s'.held = s.held
  next : s'.mutexNext = s.mutexNext
  pc : s'.pc = s.pc
  wait : ∀ u, s.wait u = false → s'.wait u = false
  cond : s'.cond = s.cond ∧ s'.condNext = s.condNext ∧ s'.condWait = s.condWait ∧
    s'.waited = s.waited ∧ s'.released = s.released
  saved : s'.saved = s.saved
  returned : s'.condReturned = s.condReturned

theorem handOver_handedOver (s : Pthread M C T) (m : M) : HandedOver s (s.handOver m) m := by
  cases hf : (s.mutex m).first with
  | none =>
    refine ⟨?_, fun n hn => ?_, ?_, ?_, ?_, ?_, fun u hu => ?_, ?_, ?_, ?_⟩ <;>
      simp_all [handOver, setOwner]
  | some x =>
    refine ⟨?_, fun n hn => ?_, ?_, ?_, ?_, ?_, fun u hu => ?_, ?_, ?_, ?_⟩ <;>
      simp_all [handOver, setWait]
    by_cases hux : u = x <;> simp [hux, hu]

theorem unlock_inv (h : Inv isRecursive s q cq) (hown : s.owns t m) :
    ∃ q', Inv isRecursive ((s.irqDoMutexUnlock m).setHeld m t (s.held m t - 1)) q' cq := by
  have hm := h.mutex m
  have hheld := held_of_owns h hown
  unfold irqDoMutexUnlock
  split_ifs with hrec
  · have hlevel : s.held m t - 1 = ((s.mutex m).recursive - 1).toNat + 1 := by omega
    rw [hlevel]
    exact ⟨_, setLevel_inv h hown (by omega) _ (by omega)⟩
  · obtain ⟨ht, hown⟩ := hown
    have hf := handOver_handedOver s m
    have hzero : s.held m t - 1 = 0 := by omega
    have hpc : ((s.handOver m).setHeld m t 0).pc = s.pc := hf.pc
    rw [hzero]
    refine ⟨_, h.mutexStep t (hm.handOver hown (waitsFor_idle ht m) (s.mutex m).recursive
      ⟨hm.kind, by omega⟩ ?_ ⟨congrFun hf.arrived m, rfl⟩ ?_ hf.next rfl fun u => by rw [hpc])
      (fun n hn => ?_) (fun _ _ x _ => congrFun hf.next x) (fun u _ => by rw [hpc])
      (fun n _ => ⟨waitsFor_idle ht n, by rw [hpc]; exact waitsFor_idle ht n⟩) (fun u _ => hf.wait u)
      hf.cond (fun hn => hf.wait t (h.awake t (hpc ▸ hn))) (h.condWait_idle ht) hf.saved
      (.inr (by rw [hpc])) ?_⟩
    · rw [← hf.recursive]
      rfl
    · simp [setHeld, hf.held]
    · obtain ⟨hmut, hgr⟩ := hf.other n hn
      exact ⟨hmut, congrFun hf.arrived n, hgr, by simp [setHeld, hn, hf.held]⟩
    · show ∀ r ∈ (s.handOver m).condReturned, r.1 = r.2
      rw [hf.returned]
      exact h.returned

/-! ## Going on -/

/-- A thread in the lock loop that was not given the mutex waits again. -/
theorem waitAgain_inv (h : Inv isRecursive s q cq) (ht : (s.pc t).waitsFor = some m)
    (hown : (s.mutex m).owner ≠ some t) : Inv isRecursive (s.setWait t true) q cq := by
  refine ⟨fun n => ?_, fun c => ?_, h.saved, fun u hu => ?_, h.flag, h.returned⟩
  · have hn := h.mutex n
    refine ⟨hn.queue, hn.mem, hn.fifo, hn.free, fun u hou hwu => ?_, hn.held, hn.depth, hn.kind⟩
    have hut : u ≠ t := by
      rintro rfl
      obtain rfl : n = m := Option.some.inj (Eq.trans hwu.symm ht)
      exact hown hou
    show Function.update s.wait t true u = false
    rw [Function.update_of_ne hut]
    exact hn.awake u hou hwu
  · exact ⟨(h.cond c).queue, (h.cond c).mem, (h.cond c).fifo⟩
  · have hut : u ≠ t := by
      rintro rfl
      rw [show ((s.setWait u true).pc u).waitsFor = (s.pc u).waitsFor from rfl, ht] at hu
      cases hu
    show Function.update s.wait t true u = false
    rw [Function.update_of_ne hut]
    exact h.awake u hu

/-- Anybody may clear the wait flag of a thread. -/
theorem wakeup_inv (h : Inv isRecursive s q cq) (t : T) : Inv isRecursive (s.setWait t false) q cq := by
  have hwait : ∀ u, s.wait u = false → (s.setWait t false).wait u = false := by
    intro u hu
    by_cases hut : u = t <;> simp [setWait, hut, hu]
  refine ⟨fun n => ?_, fun c => ?_, h.saved, fun u hu => hwait u (h.awake u hu), h.flag, h.returned⟩
  · exact (h.mutex n).frame rfl ⟨rfl, rfl⟩ rfl (fun _ _ => rfl) (fun _ => Iff.rfl) fun u _ => hwait u
  · exact ⟨(h.cond c).queue, (h.cond c).mem, (h.cond c).fifo⟩

/-- The thread was given the mutex that it waits for in `pthread_mutex_lock`. -/
theorem lockGranted_inv (h : Inv isRecursive s q cq) (ht : s.pc t = .locking m)
    (hown : (s.mutex m).owner = some t) (hflag : s.condWait t = false) (hw : s.wait t = false) :
    Inv isRecursive ((s.setHeld m t (s.held m t + 1)).setPc t .idle) (Function.update q m (q m)) cq := by
  have hm := h.mutex m
  have hfor : (s.pc t).waitsFor = some m := by rw [ht]; rfl
  have hdepth : (s.mutex m).recursive.toNat = 0 := hm.depth fun u hu => by
    rw [← Option.some.inj (hown.symm.trans hu)]
    exact hfor
  have hheld : s.held m t + 1 = (s.mutex m).recursive.toNat + 1 := by
    rw [hm.held t, if_neg (fun hn => hn.2 hfor), hdepth]
  refine h.mutexStep t ?_ (fun n hn => by simp [setPc, setHeld, hn]) (fun _ _ _ _ => rfl)
    (fun u hu => by simp [setPc, setHeld, hu])
    (fun n hn => ⟨by rw [hfor]; simpa using Ne.symm hn, by simp [setPc, PthreadPc.waitsFor]⟩)
    (fun _ _ => id) ⟨rfl, rfl, rfl, rfl, rfl⟩ (fun _ => hw) hflag rfl
    (.inl (by simp [setPc, PthreadPc.relocks])) h.returned
  refine hm.granted hown hfor (s.mutex m).recursive hm.kind rfl ⟨rfl, rfl⟩
    (by simp [setPc, setHeld, hheld]) rfl fun u => ?_
  by_cases hut : u = t <;> simp [setPc, setHeld, hut, PthreadPc.waitsFor]

/-- The depth to which `pthread_cond_wait` sets the mutex is the one it had. -/
theorem relock_level (h : Inv isRecursive s q cq) {depth : ℕ} (ht : (s.pc t).relocks = some (m, depth)) :
    (if isRecursive m then 0 ≤ (if (s.mutex m).recursive ≥ 0 then (depth : ℤ) else (s.mutex m).recursive)
      else (if (s.mutex m).recursive ≥ 0 then (depth : ℤ) else (s.mutex m).recursive) = -1) ∧
    (s.saved t).1 =
      (if (s.mutex m).recursive ≥ 0 then (depth : ℤ) else (s.mutex m).recursive).toNat + 1 ∧
    (s.saved t).2 = if (s.mutex m).recursive ≥ 0 then (depth : ℤ) else (s.mutex m).recursive := by
  obtain ⟨hheld, hdepth⟩ := h.saved t m depth ht
  have hkind := (h.mutex m).kind
  split_ifs at hkind hdepth ⊢ <;> omega

/-- What the end of `pthread_cond_wait` does, once the thread owns the mutex. -/
structure CondReturned (s s' : Pthread M C T) (m : M) (t : T) (r : ℤ) : Prop where
  mutex : s'.mutex m = { s.mutex m with owner := some t, recursive := r }
  other : ∀ n, n ≠ m → s'.mutex n = s.mutex n ∧ s'.arrived n = s.arrived n ∧
    s'.granted n = s.granted n ∧ s'.held n = s.held n
  fifo : s'.arrived m = s.arrived m ∧ s'.granted m = s.granted m
  held : s'.held m = Function.update (s.held m) t (s.saved t).1
  same : s'.mutexNext = s.mutexNext ∧ s'.wait = s.wait ∧ s'.saved = s.saved
  cond : s'.cond = s.cond ∧ s'.condNext = s.condNext ∧ s'.condWait = s.condWait ∧
    s'.waited = s.waited ∧ s'.released = s.released
  pc : s'.pc = Function.update s.pc t .idle
  returned : s'.condReturned = s.condReturned ++ [((s.saved t).2, r)]

theorem condReturned_inv (h : Inv isRecursive s q cq) {depth : ℕ}
    (ht : (s.pc t).relocks = some (m, depth)) (hflag : s.condWait t = false) (hw : s.wait t = false)
    (hown : ((s.mutex m).owner = none ∧ (s.pc t).waitsFor = none) ∨ (s.mutex m).owner = some t)
    (hs : CondReturned s s' m t
      (if (s.mutex m).recursive ≥ 0 then (depth : ℤ) else (s.mutex m).recursive)) :
    Inv isRecursive s' (Function.update q m (q m)) cq := by
  have hm := h.mutex m
  obtain ⟨hkind, hheld, hbefore⟩ := relock_level h ht
  have hpct : s'.pc t = .idle := by simp [hs.pc]
  have hpc : ∀ u, u ≠ t → s'.pc u = s.pc u := fun u hu => by simp [hs.pc, hu]
  have hfor : ∀ n, n ≠ m → (s.pc t).waitsFor ≠ some n := by
    intro n hn hw'
    cases hp : s.pc t <;> simp_all [PthreadPc.relocks, PthreadPc.waitsFor]
  refine h.mutexStep t ?_ hs.other (fun _ _ _ _ => by rw [hs.same.1]) hpc
    (fun n hn => ⟨hfor n hn, by simp [hpct, PthreadPc.waitsFor]⟩) (fun u _ hu => by rw [hs.same.2.1]; exact hu)
    hs.cond (fun _ => by rw [hs.same.2.1]; exact hw) hflag hs.same.2.2
    (.inl (by rw [hpct]; rfl)) fun r hr => ?_
  · by_cases hwait : (s.pc t).waitsFor = some m
    · have hown' : (s.mutex m).owner = some t := by
        rcases hown with ⟨-, hnone⟩ | hown
        · rw [hnone] at hwait
          cases hwait
        · exact hown
      refine hm.granted hown' hwait _ hkind (by rw [hs.mutex, ← hown']) hs.fifo
        (by rw [hs.held, hheld]) hs.same.1 fun u => ?_
      by_cases hut : u = t
      · simp [hut, hpct, PthreadPc.waitsFor]
      · simp [hut, hpc u hut]
    · refine hm.level (hown.imp_left (·.1)) hwait _ hkind hs.mutex hs.fifo (by rw [hs.held, hheld])
        hs.same.1 fun u => ?_
      by_cases hut : u = t
      · rw [hut, hpct]
        exact iff_of_false (by simp [PthreadPc.waitsFor]) hwait
      · rw [hpc u hut]
  · rw [hs.returned] at hr
    rcases List.mem_append.mp hr with hr | hr
    · exact h.returned r hr
    · rw [List.mem_singleton] at hr
      rw [hr]
      exact hbefore

/-- The thread owns the mutex, and sets its depth. -/
theorem setDepth_condReturn (hown : (s.mutex m).owner = some t) (depth : ℕ) :
    CondReturned s ((s.setDepth m depth).condReturn m t) m t
      (if (s.mutex m).recursive ≥ 0 then (depth : ℤ) else (s.mutex m).recursive) := by
  by_cases hrec : (s.mutex m).recursive ≥ 0 <;> constructor <;>
    simp +contextual [setDepth, condReturn, setRecursive, setHeld, setPc, hrec, ← hown]

/-- The thread takes a free mutex, and sets its depth. -/
theorem setOwner_condReturn (s : Pthread M C T) (m : M) (t : T) (depth : ℕ) :
    CondReturned s (((s.setOwner m (some t)).setDepth m depth).condReturn m t) m t
      (if (s.mutex m).recursive ≥ 0 then (depth : ℤ) else (s.mutex m).recursive) := by
  by_cases hrec : (s.mutex m).recursive ≥ 0 <;> constructor <;>
    simp +contextual [setOwner, setDepth, condReturn, setRecursive, setHeld, setPc, hrec]

theorem irqDoMutexLockToDepth_inv (h : Inv isRecursive s q cq) {c : C} {depth : ℕ}
    (ht : s.pc t = .condWaiting c m depth) (hflag : s.condWait t = false) (hw : s.wait t = false)
    (hstep : s.irqDoMutexLockToDepth m t depth = some s') : ∃ q', Inv isRecursive s' q' cq := by
  have hfor : (s.pc t).waitsFor = none := by rw [ht]; rfl
  have hrelock : (s.pc t).relocks = some (m, depth) := by rw [ht]; rfl
  unfold irqDoMutexLockToDepth at hstep
  split_ifs at hstep with hnone hown hrec
  · cases hstep
    exact ⟨_, condReturned_inv h hrelock hflag hw (.inl ⟨hnone, hfor⟩) (setOwner_condReturn s m t depth)⟩
  · cases hstep
    have hset := setDepth_condReturn hown depth
    rw [setDepth, if_pos hrec] at hset
    exact ⟨_, condReturned_inv h hrelock hflag hw (.inr hown) hset⟩
  · cases hstep
    exact ⟨_, waitMutex_inv h ⟨hnone, hown⟩ hfor hflag _ rfl (.inr hrelock.symm)⟩

/-- **A suspended thread goes on.** -/
theorem resume_inv (h : Inv isRecursive s q cq) (hflag : s.condWait t = false) (hw : s.wait t = false)
    (hstep : s.resume t = some s') : ∃ q', Inv isRecursive s' q' cq := by
  unfold resume at hstep
  split at hstep
  · cases hstep
  · rename_i m ht
    split_ifs at hstep with hown
    · cases hstep
      exact ⟨_, lockGranted_inv h ht hown hflag hw⟩
    · cases hstep
      exact ⟨q, waitAgain_inv h (by rw [ht]; rfl) hown⟩
  · rename_i c m depth ht
    exact irqDoMutexLockToDepth_inv h ht hflag hw hstep
  · rename_i m depth ht
    split_ifs at hstep with hown
    · cases hstep
      exact ⟨_, condReturned_inv h (by rw [ht]; rfl) hflag hw (.inr hown)
        (setDepth_condReturn hown depth)⟩
    · cases hstep
      exact ⟨q, waitAgain_inv h (by rw [ht]; rfl) hown⟩

/-! ## Waiting on a condition variable -/

variable [DecidableEq C]

/-- What the first section of `pthread_cond_wait` does. -/
structure CondWaited (s s' : Pthread M C T) (c : C) (m : M) (t : T) : Prop where
  mutex : s'.mutex m = { (s.handOver m).mutex m with
    recursive := if (s.mutex m).recursive < 0 then (s.mutex m).recursive else 0 }
  other : ∀ n, n ≠ m → s'.mutex n = s.mutex n ∧ s'.arrived n = s.arrived n ∧
    s'.granted n = s.granted n ∧ s'.held n = s.held n
  fifo : s'.arrived m = s.arrived m ∧ s'.granted m = (s.handOver m).granted m
  held : s'.held m = Function.update (s.held m) t 0
  next : s'.mutexNext = s.mutexNext
  wait : s'.wait = (s.handOver m).wait
  pc : s'.pc = Function.update s.pc t (.condWaiting c m (s.mutex m).recursive.toNat)
  cond : s'.cond = (s.enqueueCond c t).cond
  condNext : s'.condNext = (s.enqueueCond c t).condNext
  condWait : s'.condWait = Function.update s.condWait t true
  condFifo : s'.waited = Function.update s.waited c (s.waited c ++ [t]) ∧ s'.released = s.released
  saved : s'.saved = Function.update s.saved t (s.held m t, (s.mutex m).recursive)
  returned : s'.condReturned = s.condReturned

theorem pthreadCondWait_condWaited (s : Pthread M C T) (c : C) (m : M) (t : T) :
    CondWaited s (s.pthreadCondWait c m t) c m t := by
  by_cases hneg : (s.mutex m).recursive < 0
  · have hzero : (s.mutex m).recursive.toNat = 0 := by omega
    cases hf : (s.mutex m).first <;> constructor <;>
      simp +contextual [pthreadCondWait, irqDoMutexUnlockAllDepthLevels, enqueueCond, handOver,
        setOwner, setWait, setHeld, setPc, hneg, hzero, hf]
  · cases hf : (s.mutex m).first <;> constructor <;>
      simp +contextual [pthreadCondWait, irqDoMutexUnlockAllDepthLevels, enqueueCond, handOver,
        setOwner, setWait, setRecursive, setHeld, setPc, hneg, hf]

theorem condWaited_mutex (h : Inv isRecursive s q cq) (hown : s.owns t m)
    (hs : CondWaited s s' c m t) (n : M) :
    MutexOk (isRecursive n) s' n (Function.update q m (q m).tail n) := by
  obtain ⟨ht, hown⟩ := hown
  have hm := h.mutex m
  have hkind := hm.kind
  have hfor : ∀ n u, (s'.pc u).waitsFor = some n ↔ (s.pc u).waitsFor = some n := by
    intro n u
    rw [hs.pc]
    by_cases hu : u = t
    · simp [hu, ht, PthreadPc.waitsFor]
    · rw [Function.update_of_ne hu]
  have hlevel : (if isRecursive m then
      0 ≤ (if (s.mutex m).recursive < 0 then (s.mutex m).recursive else 0)
      else (if (s.mutex m).recursive < 0 then (s.mutex m).recursive else 0) = -1) ∧
      (if (s.mutex m).recursive < 0 then (s.mutex m).recursive else 0).toNat = 0 := by
    split_ifs at hkind ⊢ <;> omega
  refine h.mutex_update (t := t) (hm.handOver hown (waitsFor_idle ht m) _ hlevel hs.mutex hs.fifo
    hs.held hs.next hs.wait (hfor m)) hs.other (fun _ _ _ _ => by rw [hs.next])
    (fun u hu => by rw [hs.pc, Function.update_of_ne hu]) (fun n _ => ?_) (fun u _ hu => ?_) n
  · exact ⟨waitsFor_idle ht n, fun hw => waitsFor_idle ht n ((hfor n t).mp hw)⟩
  · rw [hs.wait]
    exact (handOver_handedOver s m).wait u hu

theorem condWaited_cond (h : Inv isRecursive s q cq) (ht : s.pc t = .idle)
    (hs : CondWaited s s' c m t) (d : C) : CondOk s' d (Function.update cq c (cq c ++ [t]) d) := by
  have hnot : ∀ d, (s.pc t).waitsOn ≠ some d := fun d => by simp [ht, PthreadPc.waitsOn]
  have hon : ∀ d u, (s'.pc u).waitsOn = some d ↔ (u = t ∧ d = c) ∨ (s.pc u).waitsOn = some d := by
    intro d u
    rw [hs.pc]
    by_cases hu : u = t
    · simp [hu, ht, PthreadPc.waitsOn, eq_comm]
    · simp [hu]
  by_cases hd : d = c
  · subst hd
    rw [Function.update_self]
    refine (h.cond d).wait (hnot d) (by rw [hs.cond]) hs.condNext hs.condWait
      ⟨by simp [hs.condFifo.1], by rw [hs.condFifo.2]⟩ fun u => ?_
    simp [hon d u]
  · rw [Function.update_of_ne hd]
    refine (h.cond d).frame (by simp [hs.cond, enqueueCond, hd])
      ⟨by simp [hs.condFifo.1, hd], by rw [hs.condFifo.2]⟩ (fun x hx => ?_) fun u => ?_
    · -- a node of another condition variable is neither the new one nor the last one
      have hxd := (((h.cond d).mem x).mp hx).1
      rw [hs.condNext]
      refine (h.cond c).queue.appendNext_of_ne ?_ fun hxc => ?_
      · rintro rfl
        exact hnot d hxd
      · rw [(((h.cond c).mem x).mp hxc).1] at hxd
        exact hd (Option.some.inj hxd).symm
    · rw [hon d u, hs.condWait]
      by_cases hu : u = t
      · simp [hu, hd, hnot d]
      · simp [hu]

theorem condWait_inv (h : Inv isRecursive s q cq) (hown : s.owns t m) (c : C) :
    ∃ q' cq', Inv isRecursive (s.pthreadCondWait c m t) q' cq' := by
  have hs := pthreadCondWait_condWaited s c m t
  have hheld := held_of_owns h hown
  have hkind := (h.mutex m).kind
  have hwait : ∀ u, s.wait u = false → (s.pthreadCondWait c m t).wait u = false := by
    rw [hs.wait]
    exact (handOver_handedOver s m).wait
  refine ⟨_, _, condWaited_mutex h hown hs, condWaited_cond h hown.1 hs, fun u n d hu => ?_,
    fun u hu => ?_, fun u hu => ?_, by rw [hs.returned]; exact h.returned⟩
  · rw [hs.pc] at hu
    rw [hs.saved]
    by_cases hut : u = t
    · subst hut
      simp only [Function.update_self, PthreadPc.relocks, Option.some.injEq, Prod.mk.injEq] at hu ⊢
      obtain ⟨rfl, rfl⟩ := hu
      refine ⟨hheld, ?_⟩
      split_ifs at hkind ⊢ with hk <;> omega
    · rw [Function.update_of_ne hut] at hu ⊢
      exact h.saved u n d hu
  · refine hwait u ?_
    by_cases hut : u = t
    · exact h.awake u (by rw [hut, hown.1]; rfl)
    · rw [hs.pc, Function.update_of_ne hut] at hu
      exact h.awake u hu
  · rw [hs.pc]
    by_cases hut : u = t
    · simp [hut, PthreadPc.waitsOn]
    · rw [hs.condWait, Function.update_of_ne hut] at hu
      rw [Function.update_of_ne hut]
      exact h.flag u hu

/-! ## Signalling -/

/-- Releasing the first thread of a condition variable. -/
theorem release_inv (h : Inv isRecursive s q cq) {x : T} {l : List T} (hq : cq c = x :: l) :
    Inv isRecursive (s.release c x) q (Function.update cq c l) := by
  have hc := h.cond c
  rw [hq] at hc
  have hx := (hc.mem x).mp List.mem_cons_self
  refine ⟨fun n => ?_, fun d => ?_, h.saved, h.awake, fun u hu => ?_, h.returned⟩
  · exact (h.mutex n).frame rfl ⟨rfl, rfl⟩ rfl (fun _ _ => rfl) (fun _ => Iff.rfl) fun _ _ => id
  · by_cases hd : d = c
    · subst hd
      rw [Function.update_self]
      exact hc.release
    · rw [Function.update_of_ne hd]
      refine (h.cond d).frame (by simp [release, hd]) ⟨rfl, by simp [release, hd]⟩ (fun _ _ => rfl)
        fun u => ?_
      by_cases hux : u = x
      · subst hux
        have hne : (s.pc u).waitsOn ≠ some d := by
          rw [hx.1]
          simpa using Ne.symm hd
        simp [release, hne]
      · simp [release, hux]
  · have hux : u ≠ x := by
      rintro rfl
      simp [release] at hu
    simp only [release, Function.update_of_ne hux] at hu
    exact h.flag u hu

omit [DecidableEq C] in
theorem first_of_cond (h : Inv isRecursive s q cq) (c : C) : (s.cond c).first = (cq c).head? := by
  have hl := (h.cond c).queue.linked
  cases hq : cq c with
  | nil =>
    rw [hq] at hl
    exact hl
  | cons x l =>
    rw [hq] at hl
    exact hl.1

omit [DecidableEq M] in
theorem release_condWait (s : Pthread M C T) (c : C) (x t : T) (l : List T) :
    ((s.release c x).condWait t && decide (t ∉ l)) = (s.condWait t && decide (t ∉ x :: l)) := by
  by_cases htx : t = x <;> simp [release, htx]

/-- **A signal** releases the first thread that waits, if there is one. -/
theorem pthreadCondSignal_inv (h : Inv isRecursive s q cq) (c : C) :
    Inv isRecursive (s.pthreadCondSignal c) q (Function.update cq c (cq c).tail) ∧
      (s.pthreadCondSignal c).released c = s.released c ++ (cq c).take 1 ∧
      ∀ t, (s.pthreadCondSignal c).condWait t = (s.condWait t && decide (t ∉ (cq c).take 1)) := by
  have hfirst := first_of_cond h c
  cases hq : cq c with
  | nil =>
    rw [hq, List.head?_nil] at hfirst
    have hself : Function.update cq c [] = cq := by rw [← hq, Function.update_eq_self]
    simp only [pthreadCondSignal, hfirst, List.tail_nil, hself]
    exact ⟨h, by simp, by simp⟩
  | cons x l =>
    rw [hq, List.head?_cons] at hfirst
    simp only [pthreadCondSignal, hfirst]
    exact ⟨release_inv h hq, by simp [release], fun t => by simpa using release_condWait s c x t []⟩

/-- **A broadcast** returns, and releases every thread that waits, in order. -/
theorem pthreadCondBroadcast_inv (h : Inv isRecursive s q cq) (c : C) (fuel : ℕ) :
    ((cq c).length < fuel → ∃ s', pthreadCondBroadcast fuel s c = some s') ∧
    ∀ s', pthreadCondBroadcast fuel s c = some s' →
      Inv isRecursive s' q (Function.update cq c []) ∧ s'.released c = s.released c ++ cq c ∧
        ∀ t, s'.condWait t = (s.condWait t && decide (t ∉ cq c)) := by
  induction fuel generalizing s cq with
  | zero => exact ⟨fun hlt => absurd hlt (Nat.not_lt_zero _), fun s' hs => by cases hs⟩
  | succ fuel ih =>
    have hfirst := first_of_cond h c
    cases hq : cq c with
    | nil =>
      rw [hq, List.head?_nil] at hfirst
      have hself : Function.update cq c [] = cq := by rw [← hq, Function.update_eq_self]
      simp only [pthreadCondBroadcast, hfirst, hself]
      refine ⟨fun _ => ⟨s, rfl⟩, fun s' hs => ?_⟩
      cases hs
      exact ⟨h, by simp, by simp⟩
    | cons x l =>
      rw [hq, List.head?_cons] at hfirst
      simp only [pthreadCondBroadcast, hfirst]
      obtain ⟨htotal, hspec⟩ := ih (release_inv h hq)
      rw [Function.update_self] at htotal hspec
      refine ⟨fun hlt => htotal (by simpa using hlt), fun s' hs => ?_⟩
      obtain ⟨hinv, hrel, hflag⟩ := hspec s' hs
      rw [Function.update_idem] at hinv
      exact ⟨hinv, by rw [hrel]; simp [release], fun t => by rw [hflag, release_condWait]⟩

end Pthread

end Miosix
