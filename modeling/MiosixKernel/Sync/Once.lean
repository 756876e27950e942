import MiosixKernel.Lib.Once

/-!
# One-time initialisation in the kernel

`pthread_once` keeps its state in a byte of the control, `__cxa_guard_acquire` in the word of the guard: zero,
one when the object is initialised, and meanwhile the thread that initialises it.

* `pthreadOnce`, `cxaGuard`: the two protocols;
* `pthreadOnce_implements`, `cxaGuard_implements`: what their states mean;
* **`once_oneTime`**: they initialise once, in every interleaving.
-/

namespace Miosix

open Lib

/-! ## `pthread_once` -/

/-- The type `pthread_once_t`. -/
structure PthreadOnce where
  isInitialized : ℕ
  initExecuted : ℕ

/-- One pass of the loop, with interrupts disabled. -/
def pthreadOnceTest (once : PthreadOnce) : OnceAnswer × PthreadOnce :=
  match once.initExecuted with
  | 0 => (.start, { once with initExecuted := 1 })
  | 1 => (.wait, once)
  | _ => (.pass, once)

/-- The calls of `pthread_once` on one control. A call without a function returns `EINVAL`. -/
def pthreadOnce {C : Type} (hasFunc : C → Bool) : OnceControl PthreadOnce C where
  valid c once := hasFunc c && once.isInitialized == 1
  test _ := pthreadOnceTest
  succeed once := { once with initExecuted := 2 }
  -- what the function throws is thrown again
  retry once := { once with initExecuted := 0 }

/-! ## `__cxa_guard` -/

/-- A pointer to a thread. -/
structure ThreadPtr where
  bits : BitVec 32
  ne_null : bits ≠ 0

/-- One pass of the loop of `__cxa_guard_acquire`. A pointer that looks like the flag of an initialised object
is an error, and so is a thread that comes back to an object that it is initialising. -/
def cxaGuardAcquire (current : ThreadPtr) (guard : BitVec 32) : OnceAnswer × BitVec 32 :=
  if guard = 1 then (.pass, guard)
  else if guard = 0 then
    if current.bits &&& 1 ≠ 0 then (.error, current.bits) else (.start, current.bits)
  else if guard = current.bits then (.error, guard)
  else (.wait, guard)

def cxaGuardRelease (_ : BitVec 32) : BitVec 32 := 1

def cxaGuardAbort (_ : BitVec 32) : BitVec 32 := 0

/-- The initialisations of one object. Those that are nested belong to the same thread. -/
def cxaGuard {C : Type} (thread : C → ThreadPtr) : OnceControl (BitVec 32) C where
  valid _ _ := true
  test c := cxaGuardAcquire (thread c)
  succeed := cxaGuardRelease
  retry := cxaGuardAbort

/-! ## What the states mean -/

variable {C : Type}

def PthreadOnce.Means (p : OncePhase C) (once : PthreadOnce) : Prop :=
  match p with
  | .idle => once.initExecuted = 0
  | .busy _ _ => once.initExecuted = 1
  | .done => once.initExecuted = 2

/-- The guard of an object that is being initialised is the thread, and cannot be taken for a flag. -/
def GuardMeans (thread : C → ThreadPtr) (p : OncePhase C) (guard : BitVec 32) : Prop :=
  match p with
  | .idle => guard = 0
  | .busy c _ => guard = (thread c).bits ∧ guard &&& 1 = 0
  | .done => guard = 1

theorem pthreadOnce_implements (hasFunc : C → Bool) :
    (pthreadOnce hasFunc).Implements PthreadOnce.Means where
  test_idle c once h := by
    obtain ⟨i, n⟩ := once
    obtain rfl : n = 0 := h
    exact .inr ⟨⟨i, 1⟩, rfl, rfl⟩
  test_busy c d st once h := by
    obtain ⟨i, n⟩ := once
    obtain rfl : n = 1 := h
    exact .inr rfl
  test_done c once h := by
    obtain ⟨i, n⟩ := once
    obtain rfl : n = 2 := h
    rfl
  stage _ _ _ _ h := h
  succeed _ _ _ _ := rfl
  retry _ _ _ _ := rfl

theorem cxaGuard_implements (thread : C → ThreadPtr) : (cxaGuard thread).Implements (GuardMeans thread) where
  test_idle c guard h := by
    obtain rfl : guard = 0 := h
    show (cxaGuardAcquire (thread c) 0).1 = _ ∨ _
    by_cases hflag : (thread c).bits &&& 1 = 0
    · refine .inr ⟨(thread c).bits, ?_, rfl, hflag⟩
      show cxaGuardAcquire (thread c) 0 = _
      rw [cxaGuardAcquire, if_neg (by decide), if_pos rfl, if_neg (not_not.2 hflag)]
    · refine .inl ?_
      rw [cxaGuardAcquire, if_neg (by decide), if_pos rfl, if_pos hflag]
  test_busy c d st guard h := by
    obtain ⟨howner, hflag⟩ : guard = (thread d).bits ∧ guard &&& 1 = 0 := h
    have hone : guard ≠ 1 := by
      rintro rfl
      exact absurd hflag (by decide)
    have hzero : guard ≠ 0 := howner ▸ (thread d).ne_null
    show (cxaGuardAcquire (thread c) guard).1 = _ ∨ cxaGuardAcquire (thread c) guard = _
    rw [cxaGuardAcquire, if_neg hone, if_neg hzero]
    by_cases hsame : guard = (thread c).bits
    · rw [if_pos hsame]
      exact .inl rfl
    · rw [if_neg hsame]
      exact .inr rfl
  test_done c guard h := by
    obtain rfl : guard = 1 := h
    rfl
  stage _ _ _ _ h := h
  succeed _ _ _ _ := rfl
  retry _ _ _ _ := rfl

/-! ## Every interleaving -/

/-- Initialisations do not overlap, one completes at most, nobody goes on before it has, and one that fails is
run again. -/
structure InitialisesOnce {W : Type} (s : OnceState W C) : Prop where
  oneTime : OneTime s.trace
  alone : ∀ c d, s.pc c = .initialising .running → s.pc d = .initialising .running → c = d

/-- **One-time initialisation**, for any number of callers moving in any order. -/
theorem once_oneTime [DecidableEq C] :
    (∀ (hasFunc : C → Bool) (isInitialized : ℕ) (ms : List (OnceMove C)) (s : OnceState PthreadOnce C),
        (OnceState.init ⟨isInitialized, 0⟩).run (pthreadOnce hasFunc) ms = some s → InitialisesOnce s) ∧
      ∀ (thread : C → ThreadPtr) (ms : List (OnceMove C)) (s : OnceState (BitVec 32) C),
        (OnceState.init 0).run (cxaGuard thread) ms = some s → InitialisesOnce s := by
  constructor
  · intro hasFunc isInitialized ms s hrun
    have hidle : PthreadOnce.Means (.idle : OncePhase C) ⟨isInitialized, 0⟩ := rfl
    obtain ⟨htrace, halone⟩ := OnceState.run_oneTime (pthreadOnce_implements hasFunc) hidle ms hrun
    exact ⟨htrace, halone⟩
  · intro thread ms s hrun
    have hidle : GuardMeans thread .idle 0 := rfl
    obtain ⟨htrace, halone⟩ := OnceState.run_oneTime (cxaGuard_implements thread) hidle ms hrun
    exact ⟨htrace, halone⟩

/-- The first initialisation throws while the other caller waits, which then runs it again. -/
def retryMoves : List (OnceMove Bool) :=
  [.enter true, .test true, .enter false, .test false, .finish true true, .test false, .store true,
    .test false, .finish false false, .store false]

def boolThread : Bool → ThreadPtr
  | true => ⟨0x20000100, by decide⟩
  | false => ⟨0x20000200, by decide⟩

theorem once_oneTime_retry :
    (∃ s, (OnceState.init ⟨1, 0⟩).run (pthreadOnce fun _ => true) retryMoves = some s ∧
        s.word.initExecuted = 2 ∧ InitialisesOnce s) ∧
      ∃ s, (OnceState.init 0).run (cxaGuard boolThread) retryMoves = some s ∧ s.word = 1 ∧ InitialisesOnce s :=
  ⟨⟨_, rfl, rfl, once_oneTime.1 (fun _ => true) 1 retryMoves _ rfl⟩,
    ⟨_, rfl, rfl, once_oneTime.2 boolThread retryMoves _ rfl⟩⟩

end Miosix
