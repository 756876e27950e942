import MiosixKernel.Sync.MutexRun

/-!
# Condition variables with one mutex

Any number of threads lock and unlock one mutex, wait on condition variables with it, signal them, and
wake each other up for no reason.

* `waitCalls`, `listed`: the calls of `wait` in a run, and the threads that its events leave in the lists;
* `CondVarsOk`: what the invariant says about the condition variables in one state, and about the next
  step;
* **`run_condVars`**: it holds after every run that does not lock again a mutex that is not recursive.
-/

namespace Miosix

open Lib Relation

namespace MutexSystem

variable {P C T : Type} [SchedulerPriority P] [DecidableEq C] [DecidableEq T]
  {s s' : MutexSystem P Unit C T} {locked locked' : T → List Unit} {cq : C → List T}
  {isRecursive : Unit → Bool} {fuel : ℕ} {e : Event P Unit C T} {t o : T} {c : C}

/-! ## Calls -/

/-- The call of `wait` of a step. It takes place when its thread runs and owns the mutex. -/
def waitsIn (s : MutexSystem P Unit C T) (e : Event P Unit C T) (c : C) : List T :=
  match e with
  | .wait t d m => if d = c ∧ s.pc t = .idle ∧ s.owner m = some t then [t] else []
  | _ => []

/-- The threads that call `wait` on a condition variable in a run, in order. -/
def waitCalls (fuel : ℕ) : MutexSystem P Unit C T → List (Event P Unit C T) → C → List T
  | _, [], _ => []
  | s, e :: events, c =>
    match s.step fuel e with
    | .error _ => []
    | .ok s' => s.waitsIn e c ++ waitCalls fuel s' events c

/-- The threads that called `wait` in a run, less the first one for each signal, and less all for each
broadcast. -/
def listed (fuel : ℕ) : MutexSystem P Unit C T → (C → List T) → List (Event P Unit C T) → C → List T
  | _, cq, [] => cq
  | s, cq, e :: events =>
    match s.step fuel e with
    | .error _ => cq
    | .ok s' => listed fuel s' (s.queuesAfter cq e) events

/-- The history of the model has the calls of `wait`. -/
theorem Stepped.waited (h : Inv isRecursive s locked cq) (hs : Stepped isRecursive s cq e s' locked') (c : C) :
    s'.waited c = s.waited c ++ s.waitsIn e c := by
  have hfifo := hs.inv.cond.fifo c
  rw [hs.released] at hfifo
  rw [hfifo, h.cond.fifo c, List.append_assoc]
  cases e with
  | wait t d m =>
    simp only [releasedAfter, queuesAfter, waitsIn]
    by_cases hp : s.pc t = .idle ∧ s.owner m = some t
    · by_cases hd : d = c
      · subst hd
        rw [if_pos hp, if_pos ⟨rfl, hp⟩, Function.update_self]
      · rw [if_pos hp, if_neg fun hh => hd hh.1, Function.update_of_ne (Ne.symm hd), List.append_nil]
    · rw [if_neg hp, if_neg fun hh => hp hh.2, List.append_nil]
  | signal t d =>
    simp only [releasedAfter, queuesAfter, waitsIn, List.append_nil]
    split_ifs with hp
    · by_cases hd : c = d
      · subst hd
        rw [Function.update_self, Function.update_self, List.append_assoc, ← List.drop_one, List.take_append_drop]
      · rw [Function.update_of_ne hd, Function.update_of_ne hd]
    · rfl
  | broadcast t d =>
    simp only [releasedAfter, queuesAfter, waitsIn, List.append_nil]
    split_ifs with hp
    · by_cases hd : c = d
      · subst hd
        rw [Function.update_self, Function.update_self, List.append_nil]
      · rw [Function.update_of_ne hd, Function.update_of_ne hd]
    · rfl
  | lock | tryLock | unlock | setPriority | resume | wakeup => exact congrArg _ (List.append_nil _).symm

/-! ## The condition variables -/

/-- The condition variables in one state, and what the next step does to them. `calls` are the threads that
called `wait`, and `locks` counts the lock calls of each thread that it has not unlocked. -/
structure CondVarsOk (fuel : ℕ) (isRecursive : Unit → Bool) (calls : C → List T) (locks : T → ℤ)
    (s : MutexSystem P Unit C T) (cq : C → List T) : Prop where
  /-- The nodes of the list, each once. -/
  queue : ∀ c, LinkedQueue s.condNext (s.first c) (s.last c) (cq c)
  /-- The threads that called `wait` are those that were released and then the list, in order. -/
  fifo : ∀ c, calls c = s.released c ++ cq c
  /-- Only a signal or a broadcast releases threads: the first one, or all of them. -/
  releases : ∀ e s', s.step fuel e = .ok s' → s'.released = s.releasedAfter cq e
  /-- A thread that calls `wait` releases the mutex and is in the list from then on. -/
  waits : ∀ t c, s.pc t = .idle → s.owner () = some t → ∃ s', s.step fuel (.wait t c ()) = .ok s' ∧
    (s'.pc t).queuedOn = some c ∧ s'.condWait t = true ∧ s'.owner () ≠ some t
  /-- A thread in the list is suspended, whoever wakes it up. -/
  suspended : ∀ c, ∀ t ∈ cq c, (s.pc t).queuedOn = some c ∧ s.condWait t = true ∧
    s.step fuel (.resume t) = .ok s
  /-- A thread that was released can go on. -/
  goesOn : ∀ c t, (s.pc t).queuedOn = some c → t ∉ cq c → s.condWait t = false ∧ s.wait t = false
  /-- A thread leaves `wait` after it was released, as the owner, at the depth of before. -/
  leaves : ∀ e s' c t, s.step fuel e = .ok s' → (s.pc t).waitsOn = some c →
    (s'.pc t).waitsOn = none → t ∉ cq c ∧ (s.released c).count t = (calls c).count t ∧
      s'.owner () = some t ∧ s'.recursiveDepth () = (s.saved t).2 ∧ s'.held () t = (s.saved t).1 ∧
        (isRecursive () = true → s'.recursiveDepth () + 1 = locks t)
  /-- A signal returns, and clears the flag of the first thread only. -/
  signals : ∀ t c, s.pc t = .idle → ∃ s', s.step fuel (.signal t c) = .ok s' ∧
    s'.released c = s.released c ++ (cq c).take 1 ∧
      ∀ u, s'.condWait u = (s.condWait u && decide (u ∉ (cq c).take 1))
  /-- A broadcast returns, and clears the flags of the threads in the list only. -/
  broadcasts : ∀ t c, s.pc t = .idle → ∃ s', s.step fuel (.broadcast t c) = .ok s' ∧
    s'.released c = s.released c ++ cq c ∧
      ∀ u, s'.condWait u = (s.condWait u && decide (u ∉ cq c))

omit [SchedulerPriority P] [DecidableEq C] [DecidableEq T] in
/-- A thread that leaves `wait` is not in the list, and owns the mutex. -/
theorem Move.leaves (h : Move s s' t) (hcond : s.CondOk cq) (ht : (s.pc t).waitsOn = some c)
    (ht' : (s'.pc t).waitsOn = none) : t ∉ cq c ∧ (∃ depth, (s.pc t).relocks = some ((), depth)) ∧
      s'.owner () = some t ∧ s'.recursiveDepth () = (s.saved t).2 ∧ s'.held () t = (s.saved t).1 := by
  cases h with
  | stays h' =>
    rw [h', ht] at ht'
    cases ht'
  | blocks m h _ =>
    rw [h] at ht
    cases ht
  | waits c m depth h _ =>
    rw [h] at ht
    cases ht
  | locked m h _ _ =>
    rw [h] at ht
    cases ht
  | relocks c m depth _ _ h' =>
    rw [h'] at ht'
    cases ht'
  | returns m depth hre hc _ hown hd hheld =>
    refine ⟨fun hin => ?_, ⟨depth, hre⟩, hown, hd, hheld⟩
    rw [((hcond.mem c t).1 hin).2] at hc
    cases hc

omit [DecidableEq C] in
/-- A thread in `wait` keeps the depth that it had: its lock calls, less its unlock calls. -/
theorem Inv.saved_depth (h : Inv isRecursive s locked cq) (hrec : isRecursive () = true)
    (hre : ∃ depth, (s.pc t).relocks = some ((), depth)) : (s.saved t).2 + 1 = s.counted () t := by
  obtain ⟨depth, hre⟩ := hre
  obtain ⟨-, h2, hkind, -⟩ := h.saved t () depth hre
  rw [if_pos hrec] at hkind
  rw [h.waitCounts hre]
  omega

theorem Inv.condVarsOk [Fintype T] (h : Inv isRecursive s locked cq) (hT : Fintype.card T < fuel)
    (hM : 1 < fuel) {locks : T → ℤ} (hlocks : ∀ t, locks t = s.counted () t) :
    CondVarsOk fuel isRecursive s.waited locks s cq := by
  have hcard : Fintype.card Unit < fuel := by rwa [Fintype.card_unit]
  have hstep : ∀ e s', s.step fuel e = .ok s' → ∃ locked', Stepped isRecursive s cq e s' locked' := by
    intro e s' hs
    obtain ⟨hd, -⟩ | ⟨s₁, locked₁, hs₁, h₁⟩ := step_ok h hT hcard e (not_closesCycle h.waits e)
    · cases hd.symm.trans hs
    · cases hs₁.symm.trans hs
      exact ⟨locked₁, h₁⟩
  refine ⟨h.cond.queue, h.cond.fifo, fun e s' hs => ?_, fun t c ht hown => ?_, fun c t ht => ?_,
    fun c t ht hn => ?_, fun e s' c t hs ht ht' => ?_, fun t c ht => ?_, fun t c ht => ?_⟩
  · obtain ⟨_, h₁⟩ := hstep e s' hs
    exact h₁.released
  · obtain ⟨s', locked', depth, hs, hpct, -, -, hinv⟩ := waitOn_inv h hown ht hcard.le c
    have hin : t ∈ Function.update cq c (cq c ++ [t]) c := by
      rw [Function.update_self]
      exact List.mem_append_right _ (List.mem_singleton_self t)
    obtain ⟨hq, hw⟩ := (hinv.cond.mem c t).1 hin
    have hre : (s'.pc t).relocks = some ((), depth) := by rw [hpct]; rfl
    obtain ⟨-, -, -, hfree⟩ := hinv.saved t () depth hre
    exact ⟨s', (if_pos ⟨ht, hown⟩).trans hs, hq, hw, hfree (by rw [hpct]; rfl)⟩
  · obtain ⟨hq, hw⟩ := (h.cond.mem c t).1 ht
    refine ⟨hq, hw, if_pos ?_⟩
    rw [hw, Bool.or_true]
  · refine ⟨Bool.eq_false_iff.2 fun hw => hn ((h.cond.mem c t).2 ⟨ht, hw⟩), h.places.awake t ?_⟩
    revert ht
    cases s.pc t <;> simp [MutexPc.queuedOn, MutexPc.locks]
  · obtain ⟨_, h₁⟩ := hstep e s' hs
    obtain ⟨hn, hre, hown, hd, hheld⟩ := (h₁.move t).leaves h.cond ht ht'
    refine ⟨hn, ?_, hown, hd, hheld, fun hrec => ?_⟩
    · rw [h.cond.fifo c, List.count_append, List.count_eq_zero_of_not_mem hn, add_zero]
    · rw [hd, hlocks]
      exact h.saved_depth hrec hre
  · obtain ⟨-, hrel, hw⟩ := signal_inv h c t
    exact ⟨_, if_pos ht, by rw [hrel, Function.update_self], hw⟩
  · obtain ⟨s', b, hs, -, -, hrel, hw⟩ := broadcast_inv c t fuel false h
      ((h.cond.queue c).nodup.length_le_card.trans_lt hT)
    refine ⟨s', ?_, by rw [hrel, Function.update_self], hw⟩
    simp only [step, if_pos ht, hs]
    rfl

/-! ## Runs -/

/-- A run leaves the lists that its events say, and the history has its calls of `wait`. -/
theorem run_listed [Fintype T] (hT : Fintype.card T < fuel) (hM : 1 < fuel) (events : List (Event P Unit C T))
    (h : Inv isRecursive s locked cq) (hs : run fuel s events = .ok s') :
    (∃ locked', Inv isRecursive s' locked' (listed fuel s cq events)) ∧
      ∀ c, s'.waited c = s.waited c ++ waitCalls fuel s events c := by
  induction events generalizing s locked cq with
  | nil =>
    cases hs
    exact ⟨⟨locked, h⟩, fun c => (List.append_nil _).symm⟩
  | cons e events ih =>
    obtain ⟨s₁, hs₁, hs⟩ := bind_eq_ok hs
    obtain ⟨hd, -⟩ | ⟨s₂, locked₂, hs₂, hstep⟩ :=
      step_ok h hT (by rwa [Fintype.card_unit]) e (not_closesCycle h.waits e)
    · cases hd.symm.trans hs₁
    cases hs₂.symm.trans hs₁
    obtain ⟨hinv, hwaited⟩ := ih hstep.inv hs
    rw [listed, hs₁]
    refine ⟨hinv, fun c => ?_⟩
    rw [hwaited, hstep.waited h c, waitCalls, hs₁, List.append_assoc]

/-- **Condition variables.** A run ends only when a thread locks again a mutex that it owns and that is not
recursive. In every state reached the lists have exactly the threads that called `wait` and were not
released, in order. -/
theorem run_condVars [Fintype T] (isRecursive : Unit → Bool) (priority savedPriority : T → P)
    (next : Unit → Option Unit) (last : C → Option T) (condNext : T → Option T) (saved : T → ℕ × ℤ)
    (hT : Fintype.card T < fuel) (hM : 1 < fuel) (events : List (Event P Unit C T)) :
    run fuel (init isRecursive priority savedPriority next last condNext saved) events =
        .error .deadlock ∧
        RunLocksAgain isRecursive fuel (init isRecursive priority savedPriority next last condNext saved) events ∨
      ∃ s, run fuel (init isRecursive priority savedPriority next last condNext saved) events = .ok s ∧
        CondVarsOk fuel isRecursive
          (waitCalls fuel (init isRecursive priority savedPriority next last condNext saved) events)
          (lockCalls fuel (init isRecursive priority savedPriority next last condNext saved) events ()) s
          (listed fuel (init isRecursive priority savedPriority next last condNext saved) (fun _ => []) events) := by
  have h := init_inv (C := C) isRecursive priority savedPriority next last condNext saved
  have hno := noCycle hT hM events h
  have hcard : Fintype.card Unit < fuel := by rwa [Fintype.card_unit]
  obtain hd | ⟨s, -, -, hs, -⟩ := run_ok hT hcard events h hno
  · exact Or.inl hd
  · obtain ⟨⟨locked, hinv⟩, hwaited⟩ := run_listed hT hM events h hs
    have hcalls : waitCalls fuel (init isRecursive priority savedPriority next last condNext saved) events =
        s.waited := funext fun c => (hwaited c).symm
    refine Or.inr ⟨s, hs, ?_⟩
    rw [hcalls]
    refine hinv.condVarsOk hT hM fun t => ?_
    rw [run_calls hT hcard events h hno hs () t]
    exact (zero_add _).symm

/-- Three threads and a recursive mutex. -/
def twoWaiters : MutexSystem PrioritySchedulerPriority Unit Unit (Fin 3) :=
  init (fun _ => true) (fun _ => ⟨0⟩) (fun _ => ⟨0⟩) (fun _ => none) (fun _ => none) (fun _ => none) fun _ => (0, 0)

/-- Two threads wait, the first one with the mutex locked twice. It is woken for no reason, then released,
and comes back from `wait`. -/
def twoWaitersEvents : List (Event PrioritySchedulerPriority Unit Unit (Fin 3)) :=
  [.lock 0 (), .lock 0 (), .wait 0 () (), .lock 1 (), .wait 1 () (), .wakeup 0, .resume 0, .lock 2 (),
    .signal 2 (), .unlock 2 (), .resume 0]

theorem run_condVars_two : ∃ s, run 4 twoWaiters twoWaitersEvents = .ok s ∧ s.pc 0 = .idle ∧
    s.owner () = some 0 ∧ s.recursiveDepth () = 1 ∧ waitCalls 4 twoWaiters twoWaitersEvents () = [0, 1] ∧
    listed 4 twoWaiters (fun _ => []) twoWaitersEvents () = [1] ∧
    CondVarsOk 4 (fun _ => true) (waitCalls 4 twoWaiters twoWaitersEvents)
      (lockCalls 4 twoWaiters twoWaitersEvents ()) s (listed 4 twoWaiters (fun _ => []) twoWaitersEvents) := by
  obtain ⟨s, hrun, hpc, hown, hdepth⟩ : ∃ s, run 4 twoWaiters twoWaitersEvents = .ok s ∧ s.pc 0 = .idle ∧
      s.owner () = some 0 ∧ s.recursiveDepth () = 1 := ⟨_, rfl, rfl, rfl, rfl⟩
  refine ⟨s, hrun, hpc, hown, hdepth, rfl, rfl, ?_⟩
  obtain ⟨hd, -⟩ | ⟨s', hs, hok⟩ := run_condVars (P := PrioritySchedulerPriority) (C := Unit) (fun _ => true)
    (fun _ : Fin 3 => ⟨0⟩) (fun _ => ⟨0⟩) (fun _ => none) (fun _ => none) (fun _ => none) (fun _ => (0, 0))
    (by decide : Fintype.card (Fin 3) < 4) (by decide) twoWaitersEvents
  · cases hd.symm.trans hrun
  · cases hs.symm.trans hrun
    exact hok

end MutexSystem

end Miosix
