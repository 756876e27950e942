import MiosixKernel.Sync.Mutex
import MiosixKernel.Sync.Pthread

/-!
# Waking up a thread with the EDF scheduler

There is no periodic preemption with `SCHED_TYPE_EDF`. A call that wakes up a thread whose deadline is earlier
than that of the caller has to call `Thread::yield` before it returns.

* `pthreadMutexUnlock`, `pthreadCondSignalYield`, `pthreadCondBroadcastYield`: what the calls of the pthread
  library return, and whether they yield;
* `EDFSync`, `WakingCall`, `returns`: the calls that wake up threads;
* **`reschedules_iff`**: all of them yield when they have to, but for `pthread_mutex_unlock`.
-/

namespace Miosix

open Lib SchedulerPriority

namespace Pthread

variable {P M C T : Type} [SchedulerPriority P] [DecidableEq M] [DecidableEq C] [DecidableEq T]
  (s : Pthread M C T) (priority : T → P) (current : T)

/-- What `IRQdoMutexUnlock` returns. The comparison is only compiled without `SCHED_TYPE_EDF`. -/
def irqDoMutexUnlockReturns (edf : Bool) (m : M) : Bool :=
  if (s.mutex m).recursive > 0 then false
  else match (s.mutex m).first with
    | none => false
    | some t => if edf then false else less (priority current) (priority t)

/-- `pthread_mutex_unlock`, and whether it yields. -/
def pthreadMutexUnlock (edf : Bool) (m : M) : Pthread M C T × Bool :=
  (s.irqDoMutexUnlock m, edf && s.irqDoMutexUnlockReturns priority current edf m)

/-- `pthread_cond_signal`, and whether it yields. -/
def pthreadCondSignalYield (c : C) : Pthread M C T × Bool :=
  match (s.cond c).first with
  | none => (s, false)
  | some t => (s.release c t, less (priority current) (priority t))

/-- The loop of `pthread_cond_broadcast`, and whether it yields after it. -/
def pthreadCondBroadcastYield : ℕ → Pthread M C T → C → Bool → Except MutexFault (Pthread M C T × Bool)
  | 0, _, _, _ => throw .endless
  | fuel + 1, s, c, hppw =>
    match (s.cond c).first with
    | none => pure (s, hppw)
    | some t => pthreadCondBroadcastYield fuel (s.release c t) c (hppw || less (priority current) (priority t))

end Pthread

/-! ## The calls -/

/-- The mutexes and the condition variables of the kernel, and those of the pthread library. -/
structure EDFSync (M C M' C' T : Type) where
  kernel : MutexSystem EDFSchedulerPriority M C T
  pthread : Pthread M' C' T

/-- `pthreadMutexUnlock` is `FastMutex::unlock` as well. -/
inductive WakingCall (M C M' C' : Type) where
  | unlock (m : M)
  | signal (c : C)
  | broadcast (c : C)
  | pthreadMutexUnlock (m : M')
  | pthreadCondSignal (c : C')
  | pthreadCondBroadcast (c : C')

namespace EDFSync

variable {M C M' C' T : Type}

/-- A thread is ready if it does not wait for anything. -/
def ready (s : EDFSync M C M' C' T) (t : T) : Bool :=
  !(s.kernel.wait t || s.kernel.condWait t || s.pthread.wait t || s.pthread.condWait t)

def deadline (s : EDFSync M C M' C' T) (t : T) : ℤ := (s.kernel.priority t).deadline

variable [DecidableEq M] [DecidableEq C] [DecidableEq M'] [DecidableEq C'] [DecidableEq T]

/-- What a call by the thread `cur` returns, and whether it yields. -/
def returns (fuel : ℕ) (s : EDFSync M C M' C' T) (cur : T) :
    WakingCall M C M' C' → Except MutexFault (EDFSync M C M' C' T × Bool)
  | .unlock m => do
    let (kernel, yields) ← s.kernel.pkUnlock fuel m cur
    pure ({ s with kernel := kernel }, yields)
  | .signal c =>
    let (kernel, yields) := s.kernel.signal c cur
    pure ({ s with kernel := kernel }, yields)
  | .broadcast c => do
    let (kernel, yields) ← MutexSystem.broadcast c cur fuel s.kernel false
    pure ({ s with kernel := kernel }, yields)
  | .pthreadMutexUnlock m =>
    let (pthread, yields) := s.pthread.pthreadMutexUnlock s.kernel.priority cur true m
    pure ({ s with pthread := pthread }, yields)
  | .pthreadCondSignal c =>
    let (pthread, yields) := s.pthread.pthreadCondSignalYield s.kernel.priority cur c
    pure ({ s with pthread := pthread }, yields)
  | .pthreadCondBroadcast c => do
    let (pthread, yields) ← Pthread.pthreadCondBroadcastYield s.kernel.priority cur fuel s.pthread c false
    pure ({ s with pthread := pthread }, yields)

/-- If the call makes a thread ready whose deadline is earlier than that of the caller, it yields. -/
def Reschedules (s : EDFSync M C M' C' T) (cur : T) (call : WakingCall M C M' C') : Prop :=
  ∀ fuel s' yields, s.returns fuel cur call = .ok (s', yields) →
    ∀ t, s.ready t = false → s'.ready t = true → s'.deadline t < s'.deadline cur → yields = true

/-- `pthread_mutex_unlock` would give the mutex to a thread that becomes ready, with an earlier deadline. -/
def GivesToEarlier (s : EDFSync M C M' C' T) (cur : T) (m : M') : Prop :=
  (s.pthread.mutex m).recursive ≤ 0 ∧ ∃ t, (s.pthread.mutex m).first = some t ∧ s.ready t = false ∧
    EDFSync.ready { s with pthread := s.pthread.setWait t false } t = true ∧ s.deadline t < s.deadline cur

end EDFSync

/-! ## The mutexes of the kernel -/

namespace MutexSystem

variable {P M C T : Type} [SchedulerPriority P] [DecidableEq M] [DecidableEq T] {fuel : ℕ} {s s' : MutexSystem P M C T}
  {m walk : M} {p : T}

/-- The flags of the threads are the same. -/
def SameFlags (s s' : MutexSystem P M C T) : Prop := s'.wait = s.wait ∧ s'.condWait = s.condWait

omit [SchedulerPriority P] [DecidableEq T] in
theorem unlinkAfter_flags (h : unlinkAfter m fuel s walk = .ok s') : SameFlags s s' := by
  induction fuel generalizing walk with
  | zero => cases h
  | succ fuel ih =>
    rw [unlinkAfter] at h
    cases hn : s.next walk with
    | none =>
      rw [hn] at h
      cases h
    | some n =>
      rw [hn] at h
      dsimp only at h
      split_ifs at h with hnm
      · cases h
        exact ⟨rfl, rfl⟩
      · exact ih h

omit [SchedulerPriority P] in
theorem removeLocked_flags (h : s.removeLocked fuel m p = .ok s') : SameFlags s s' := by
  rw [removeLocked] at h
  cases hl : s.mutexLocked p with
  | none =>
    rw [hl] at h
    cases h
  | some walk =>
    rw [hl] at h
    dsimp only at h
    split_ifs at h with hwm
    · cases h
      exact ⟨rfl, rfl⟩
    · exact unlinkAfter_flags h

omit [DecidableEq M] in
theorem exists_changePriority (s : MutexSystem P M C T) (p : T) (pr : P) :
    ∃ priority, s.changePriority p pr = { s with priority := priority } := by
  rw [changePriority]
  split_ifs
  · exact ⟨_, rfl⟩
  · exact ⟨s.priority, rfl⟩

omit [DecidableEq M] in
theorem changePriority_flags (s : MutexSystem P M C T) (p : T) (pr : P) : SameFlags s (s.changePriority p pr) := by
  obtain ⟨priority, hp⟩ := s.exists_changePriority p pr
  rw [hp]
  exact ⟨rfl, rfl⟩

omit [DecidableEq M] in
theorem restorePriority_flags (h : s.restorePriority fuel p = .ok s') : SameFlags s s' := by
  rw [restorePriority] at h
  split_ifs at h with hl
  · cases h
    exact changePriority_flags s p _
  · obtain ⟨pr, -, h⟩ := bind_eq_ok h
    cases h
    exact changePriority_flags s p pr

/-- Only the new owner is woken up. -/
theorem handOver_flags (h : s.handOver m = .ok s') :
    s'.condWait = s.condWait ∧ ∀ t, s'.owner m = some t ∨ s'.wait t = s.wait t := by
  rw [handOver] at h
  cases hw : s.waiting m with
  | nil =>
    rw [hw] at h
    cases h
    exact ⟨rfl, fun t => .inr rfl⟩
  | cons u w =>
    rw [hw] at h
    dsimp only at h
    split_ifs at h with hmw
    · cases h
    have hnew : ∀ (x : MutexSystem P M C T) (pr : P), x.condWait = s.condWait →
        x.wait = Function.update s.wait u false → x.owner m = some u →
        (Except.ok (x.changePriority u pr) : Except MutexFault _) = .ok s' → s'.condWait = s.condWait ∧ ∀ t, s'.owner m = some t ∨ s'.wait t = s.wait t := by
      intro x pr hcond hwait howner hx
      obtain ⟨priority, hp⟩ := x.exists_changePriority u pr
      rw [hp] at hx
      cases hx
      refine ⟨hcond, fun t => ?_⟩
      by_cases htu : t = u
      · exact .inl (by rw [htu]; exact howner)
      · exact .inr (by simp [hwait, htu])
    refine hnew _ _ ?_ ?_ ?_ h
    · rfl
    · rfl
    · exact Function.update_self _ _ _

/-- Only the owner of the mutex is woken up. -/
theorem pkUnlock_flags {hppw : Bool} (h : s.pkUnlock fuel m p = .ok (s', hppw)) :
    s'.condWait = s.condWait ∧ ∀ t, s'.wait t = s.wait t ∨
      s'.owner m = some t ∧ hppw = mutexLessOp (s'.priority p) (s'.priority t) := by
  rw [pkUnlock] at h
  split_ifs at h with hown hrec
  · cases h
    exact ⟨rfl, fun t => .inl rfl⟩
  · cases h
    exact ⟨rfl, fun t => .inl rfl⟩
  · obtain ⟨s₃, hrelease, h⟩ := bind_eq_ok h
    cases h
    rw [releaseMutex] at hrelease
    obtain ⟨s₁, hremove, hrelease⟩ := bind_eq_ok hrelease
    obtain ⟨s₂, hrestore, hover⟩ := bind_eq_ok hrelease
    have h₁ := removeLocked_flags hremove
    have h₂ := restorePriority_flags hrestore
    obtain ⟨hcond, hwait⟩ := handOver_flags hover
    refine ⟨(hcond.trans h₂.2).trans h₁.2, fun t => ?_⟩
    rcases hwait t with howner | hsame
    · refine .inr ⟨howner, ?_⟩
      rw [ownerAbove, howner]
      rfl
    · left
      change s₃.wait t = s.wait t
      rw [hsame, h₂.1, h₁.1]

variable {c : C} [DecidableEq C]

omit [DecidableEq M] in
/-- The threads that are woken up are compared with the caller. -/
theorem broadcast_flags {cur : T} {hppw yields : Bool} (h : broadcast c cur fuel s hppw = .ok (s', yields)) :
    s'.wait = s.wait ∧ s'.priority = s.priority ∧ (hppw = true → yields = true) ∧
      ∀ t, s'.condWait t = s.condWait t ∨ (less (s.priority cur) (s.priority t) = true → yields = true) := by
  induction fuel generalizing s hppw with
  | zero => cases h
  | succ fuel ih =>
    rw [broadcast] at h
    cases hf : s.first c with
    | none =>
      rw [hf] at h
      cases h
      exact ⟨rfl, rfl, id, fun t => .inl rfl⟩
    | some u =>
      rw [hf] at h
      obtain ⟨hwait, hprio, hold, hcond⟩ := ih h
      refine ⟨hwait, hprio, fun hp => hold (by simp [hp]), fun t => ?_⟩
      by_cases htu : t = u
      · right
        intro hless
        exact hold (by simp [← htu, hless])
      · refine (hcond t).imp_left fun hsame => hsame.trans ?_
        exact Function.update_of_ne htu _ _

end MutexSystem

/-! ## The pthread library -/

namespace Pthread

variable {P M C T : Type} [SchedulerPriority P] [DecidableEq C] [DecidableEq T] {fuel : ℕ}
  {s s' : Pthread M C T} {c : C} {priority : T → P} {cur : T}

/-- The threads that are woken up are compared with the caller. -/
theorem broadcastYield_flags {hppw yields : Bool}
    (h : pthreadCondBroadcastYield priority cur fuel s c hppw = .ok (s', yields)) :
    s'.wait = s.wait ∧ (hppw = true → yields = true) ∧
      ∀ t, s'.condWait t = s.condWait t ∨ (less (priority cur) (priority t) = true → yields = true) := by
  induction fuel generalizing s hppw with
  | zero => cases h
  | succ fuel ih =>
    rw [pthreadCondBroadcastYield] at h
    cases hf : (s.cond c).first with
    | none =>
      rw [hf] at h
      cases h
      exact ⟨rfl, id, fun t => .inl rfl⟩
    | some u =>
      rw [hf] at h
      obtain ⟨hwait, hold, hcond⟩ := ih h
      refine ⟨hwait, fun hp => hold (by simp [hp]), fun t => ?_⟩
      by_cases htu : t = u
      · right
        intro hless
        exact hold (by simp [← htu, hless])
      · refine (hcond t).imp_left fun hsame => hsame.trans ?_
        exact Function.update_of_ne htu _ _

end Pthread

/-! ## Rescheduling -/

namespace EDFSync

variable {M C M' C' T : Type} [DecidableEq M] [DecidableEq C] [DecidableEq M'] [DecidableEq C'] [DecidableEq T]
  {s s' : EDFSync M C M' C' T} {cur t : T}

omit [DecidableEq M] [DecidableEq C] [DecidableEq M'] [DecidableEq C'] [DecidableEq T] in
/-- A thread that becomes ready was woken up. -/
theorem woken (hbefore : s.ready t = false) (hafter : s'.ready t = true) :
    s'.kernel.wait t ≠ s.kernel.wait t ∨ s'.kernel.condWait t ≠ s.kernel.condWait t ∨
      s'.pthread.wait t ≠ s.pthread.wait t ∨ s'.pthread.condWait t ≠ s.pthread.condWait t := by
  by_contra hno
  simp only [not_or, not_not] at hno
  obtain ⟨hw, hc, hpw, hpc⟩ := hno
  rw [ready, hw, hc, hpw, hpc] at hafter
  rw [ready, hafter] at hbefore
  cases hbefore

/-- The calls of the kernel and those with a condition variable. -/
theorem reschedules (call : WakingCall M C M' C') (hcall : ∀ m, call ≠ .pthreadMutexUnlock m) :
    s.Reschedules cur call := by
  intro fuel s' yields hret t hbefore hafter hearlier
  have hwoken := woken hbefore hafter
  cases call with
  | unlock m =>
    obtain ⟨⟨kernel, hppw⟩, hunlock, heq⟩ := bind_eq_ok hret
    cases heq
    obtain ⟨hcond, hwait⟩ := MutexSystem.pkUnlock_flags hunlock
    rcases hwait t with hsame | ⟨-, hppw⟩
    · exact absurd hwoken (by simp [hsame, hcond])
    · rw [hppw]
      exact decide_eq_true hearlier
  | signal c =>
    simp only [returns, MutexSystem.signal] at hret
    cases hf : s.kernel.first c with
    | none =>
      rw [hf] at hret
      cases hret
      simp at hwoken
    | some u =>
      rw [hf] at hret
      cases hret
      by_cases htu : t = u
      · subst htu
        exact decide_eq_true hearlier
      · simp [MutexSystem.release, htu] at hwoken
  | broadcast c =>
    obtain ⟨⟨kernel, hppw⟩, hbroadcast, heq⟩ := bind_eq_ok hret
    cases heq
    obtain ⟨hwait, hprio, -, hcond⟩ := MutexSystem.broadcast_flags hbroadcast
    rcases hcond t with hsame | hless
    · exact absurd hwoken (by simp [hsame, hwait])
    · refine hless (decide_eq_true ?_)
      simpa [deadline, hprio] using hearlier
  | pthreadMutexUnlock m => exact absurd rfl (hcall m)
  | pthreadCondSignal c =>
    simp only [returns, Pthread.pthreadCondSignalYield] at hret
    cases hf : (s.pthread.cond c).first with
    | none =>
      rw [hf] at hret
      cases hret
      simp at hwoken
    | some u =>
      rw [hf] at hret
      cases hret
      by_cases htu : t = u
      · subst htu
        exact decide_eq_true hearlier
      · simp [Pthread.release, htu] at hwoken
  | pthreadCondBroadcast c =>
    obtain ⟨⟨pthread, hppw⟩, hbroadcast, heq⟩ := bind_eq_ok hret
    cases heq
    obtain ⟨hwait, -, hcond⟩ := Pthread.broadcastYield_flags hbroadcast
    rcases hcond t with hsame | hless
    · exact absurd hwoken (by simp [hsame, hwait])
    · exact hless (decide_eq_true hearlier)

/-- `pthread_mutex_unlock` does not yield. -/
theorem returns_pthreadMutexUnlock (fuel : ℕ) (m : M') :
    s.returns fuel cur (.pthreadMutexUnlock m) = .ok ({ s with pthread := s.pthread.irqDoMutexUnlock m }, false) := by
  have hfalse : s.pthread.irqDoMutexUnlockReturns s.kernel.priority cur true m = false := by
    rw [Pthread.irqDoMutexUnlockReturns]
    split_ifs with hrec hedf
    · rfl
    · cases (s.pthread.mutex m).first <;> rfl
    · exact absurd rfl hedf
  simp [returns, Pthread.pthreadMutexUnlock, hfalse]

omit [DecidableEq M] [DecidableEq C] [DecidableEq C'] in
/-- What it does to the flags of the threads. -/
theorem ready_irqDoMutexUnlock (m : M') (t : T) :
    EDFSync.ready { s with pthread := s.pthread.irqDoMutexUnlock m } t =
      if (s.pthread.mutex m).recursive ≤ 0 ∧ (s.pthread.mutex m).first = some t then
        EDFSync.ready { s with pthread := s.pthread.setWait t false } t
      else s.ready t := by
  rw [Pthread.irqDoMutexUnlock]
  by_cases hrec : (s.pthread.mutex m).recursive > 0
  · rw [if_pos hrec, if_neg (fun h => absurd h.1 (not_le.mpr hrec))]
    rfl
  · rw [if_neg hrec, Pthread.handOver]
    cases hf : (s.pthread.mutex m).first with
    | none =>
      rw [if_neg (by simp)]
      rfl
    | some u =>
      by_cases htu : t = u
      · subst htu
        rw [if_pos ⟨not_lt.mp hrec, rfl⟩]
        rfl
      · rw [if_neg (fun h => htu (Option.some.inj h.2).symm)]
        simp [ready, Pthread.setWait, htu]

/-- **All calls yield when they have to**, but for `pthread_mutex_unlock`, which never does. -/
theorem reschedules_iff (s : EDFSync M C M' C' T) (cur : T) (call : WakingCall M C M' C') :
    s.Reschedules cur call ↔ ∀ m, call = .pthreadMutexUnlock m → ¬s.GivesToEarlier cur m := by
  constructor
  · rintro h m rfl ⟨hrec, t, hf, hbefore, hafter, hearlier⟩
    have hready : EDFSync.ready { s with pthread := s.pthread.irqDoMutexUnlock m } t = true := by
      rw [ready_irqDoMutexUnlock, if_pos ⟨hrec, hf⟩, hafter]
    exact absurd (h 0 _ false (returns_pthreadMutexUnlock 0 m) t hbefore hready hearlier) (by decide)
  · intro h
    by_cases hcall : ∃ m, call = .pthreadMutexUnlock m
    · obtain ⟨m, rfl⟩ := hcall
      intro fuel s' yields hret t hbefore hafter hearlier
      rw [returns_pthreadMutexUnlock] at hret
      cases hret
      rw [ready_irqDoMutexUnlock] at hafter
      split_ifs at hafter with hgives
      · exact absurd ⟨hgives.1, t, hgives.2, hbefore, hafter, hearlier⟩ (h m rfl)
      · rw [hbefore] at hafter
        cases hafter
    · exact reschedules call fun m hm => hcall ⟨m, hm⟩

/-- The mutexes are not locked, and thread `t` has the deadline `10 - t`. -/
def start : EDFSync ℕ ℕ ℕ ℕ ℕ where
  kernel := MutexSystem.init (fun _ => false) (fun t => ⟨10 - t⟩) (fun _ => ⟨0⟩) (fun _ => none) (fun _ => none)
    (fun _ => none) fun _ => (0, 0)
  pthread := Pthread.init (fun _ => false) (fun _ => none) (fun _ => none) (fun _ => none) (fun _ => none) fun _ => (0, 0)

/-- Thread 1, with the earlier deadline, waits for the mutex that thread 0 unlocks. -/
theorem pthreadMutexUnlock_stays : ∃ pthread, start.pthread.run [.lock 0 0, .lock 1 0] = some pthread ∧
    ¬Reschedules { start with pthread := pthread } 0 (.pthreadMutexUnlock 0) := by
  refine ⟨_, rfl, fun h => ?_⟩
  exact absurd (h 0 _ false rfl 1 rfl rfl (by decide)) (by decide)

end EDFSync

end Miosix
