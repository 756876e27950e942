import MiosixKernel.Sync.MutexSteps

/-!
# Mutexes with priority inheritance: runs

Any number of threads lock, try to lock and unlock mutexes, wait on condition variables with them, set their
priority, and wake each other up for no reason.

* `HandsOver`, **`releaseMutex_handsOver`**: a mutex goes to a waiting thread of the largest priority;
* `lockCalls`: the lock calls that returned in a run, less the unlock calls of the owner;
* **`step_calls`**: what the model counts are these calls;
* `MutexesOk`: what the invariant says about the mutexes in one state, and about the next step;
* **`run_mutexes`**: it holds after every run that closes no cycle.
-/

namespace Miosix

open Lib Relation

namespace MutexSystem

variable {P M C T : Type} [SchedulerPriority P] [DecidableEq M] [DecidableEq C] [DecidableEq T]
  {s s' r : MutexSystem P M C T} {locked : T → List M} {cq : C → List T} {isRecursive : M → Bool}
  {m n : M} {c : C} {p t u : T} {fuel : ℕ} {e : Event P M C T}

/-! ## Handing over -/

/-- The mutex goes to nobody if no thread waits for it, and otherwise to a waiting thread of the largest
priority, which is the only one that leaves a heap. -/
def HandsOver (s s' : MutexSystem P M C T) (m : M) : Prop :=
  (∀ n, n ≠ m → s'.waiting n = s.waiting n) ∧
    (s.waiting m = [] ∧ s'.waiting m = [] ∧ s'.owner m = none ∨
      ∃ u ∈ s.waiting m, (∀ v ∈ s.waiting m, s.level v ≤ s.level u) ∧ s'.owner m = some u ∧
        s'.mutexWaiting u = none ∧ (s'.waiting m).Perm ((s.waiting m).erase u))

omit [DecidableEq C] in
/-- **The owner releases a mutex.** The priorities of the threads in the heaps stay the same before the next
owner is chosen. -/
theorem releaseMutex_handsOver [Fintype M] (hl : s.LocksOk locked) (hw : s.WaitsOk)
    (hown : s.owner m = some p) (hp : s.mutexWaiting p = none) (hf : Fintype.card M ≤ fuel)
    (hr : s.releaseMutex fuel m p = .ok r) : HandsOver s r m := by
  obtain ⟨next, f, -, -, hrun⟩ := releaseMutex_spec hl hown hf
  have hw₁ := hw.pkSetPriority hp (s.inheritedOver mutexLessOp ((locked p).erase m) (s.savedPriority p))
  rw [hrun] at hr
  set s₁ : MutexSystem P M C T := { s with
    next := next
    mutexLocked := Function.update s.mutexLocked p f
    priority := Function.update s.priority p
      (s.inheritedOver mutexLessOp ((locked p).erase m) (s.savedPriority p)) } with hs₁
  have hw₂ : s₁.WaitsOk := ⟨hw₁.queued, hw₁.once, hw₁.owner_ne, hw₁.heap, hw₁.acyclic⟩
  have hlevel : ∀ v ∈ s.waiting m, s₁.level v = s.level v := by
    intro v hv
    refine congrArg SchedulerPriority.level (Function.update_of_ne ?_ _ _)
    rintro rfl
    rw [(hw.queued m v).1 hv] at hp
    cases hp
  obtain ⟨hnil, hrun'⟩ | ⟨u, l, w, hcons, hperm, -, hmax, hrun'⟩ := handOver_spec hw₂ m
  · rw [hrun'] at hr
    cases hr
    exact ⟨fun _ _ => rfl, .inl ⟨hnil, hnil, Function.update_self _ _ _⟩⟩
  · rw [hrun'] at hr
    cases hr
    have hcons' : s.waiting m = u :: l := hcons
    have hu : u ∈ s.waiting m := hcons' ▸ List.mem_cons_self
    refine ⟨fun n hn => Function.update_of_ne hn _ _, .inr ⟨u, hu, fun v hv => ?_,
      Function.update_self _ _ _, Function.update_self _ _ _, ?_⟩⟩
    · rw [← hlevel v hv, ← hlevel u hu]
      rw [hcons'] at hv
      obtain rfl | hv := List.mem_cons.1 hv
      · exact le_rfl
      · exact hmax v hv
    · rw [hcons', List.erase_cons_head]
      simp only [MutexSystem.granted, MutexSystem.takeOwnership, Function.update_self]
      exact hperm

/-- The step releases a mutex: the last unlock of its owner, or a wait. -/
def Releases (s : MutexSystem P M C T) (e : Event P M C T) (m : M) : Prop :=
  ∃ p, s.pc p = .idle ∧ s.owner m = some p ∧
    (e = .unlock p m ∧ s.recursiveDepth m ≤ 0 ∨ ∃ c, e = .wait p c m)

theorem Inv.handsOver [Fintype M] (h : Inv isRecursive s locked cq) (hf : Fintype.card M ≤ fuel)
    (he : s.Releases e m) (hs : s.step fuel e = .ok s') : HandsOver s s' m := by
  obtain ⟨p, hp, hown, ⟨rfl, hd⟩ | ⟨c, rfl⟩⟩ := he
  · have hnone := h.places.not_waiting (t := p) (by rw [hp]; rfl)
    obtain ⟨r, -, hrun, -⟩ := release_spec h.locks h.waits hown hnone hf
    have hover := releaseMutex_handsOver h.locks h.waits hown hnone hf hrun
    rw [step, if_pos hp, pkUnlock, if_neg (not_not.2 hown), if_neg (not_lt.2 hd), hrun] at hs
    cases hs
    exact hover
  · have hnone := h.places.not_waiting (t := p) (by rw [hp]; rfl)
    have hl := h.locks.enqueueCond c p
    have hw := h.waits.enqueueCond c p
    obtain ⟨r, -, hrun, -⟩ := release_spec hl hw hown hnone hf
    have hover := releaseMutex_handsOver hl hw hown hnone hf hrun
    rw [step, if_pos ⟨hp, hown⟩, waitOn_eq hown hrun] at hs
    cases hs
    exact hover

/-! ## Calls -/

/-- The lock calls of a thread on a mutex that return in a step, less the unlock calls of the owner. -/
def callsIn (s : MutexSystem P M C T) (e : Event P M C T) (s' : MutexSystem P M C T) (m : M) (t : T) : ℤ :=
  match e with
  | .lock u n => if u = t ∧ n = m ∧ s.pc t = .idle ∧ s'.pc t = .idle then 1 else 0
  | .tryLock u n => if u = t ∧ n = m ∧ s.pc t = .idle ∧ (s.pkTryLock m t).2 = true then 1 else 0
  | .unlock u n => if u = t ∧ n = m ∧ s.pc t = .idle ∧ s.owner m = some t then -1 else 0
  | .resume u => if u = t ∧ s.pc t = .locking m ∧ s'.pc t = .idle then 1 else 0
  | _ => 0

/-- The lock calls that returned in a run, less the unlock calls of the owner. -/
def lockCalls (fuel : ℕ) : MutexSystem P M C T → List (Event P M C T) → M → T → ℤ
  | _, [], _, _ => 0
  | s, e :: events, m, t =>
    match s.step fuel e with
    | .error _ => 0
    | .ok s' => s.callsIn e s' m t + lockCalls fuel s' events m t

/-- What the model counts: what the thread holds, or held before it called `wait`. -/
def counted (s : MutexSystem P M C T) (m : M) (t : T) : ℕ :=
  if (s.pc t).relocks.map Prod.fst = some m then (s.saved t).1 else s.held m t

/-- Only the count of one thread and one mutex changes. -/
def Counts (s s' : MutexSystem P M C T) (m : M) (p : T) (d : ℤ) : Prop :=
  ∀ n u, (s'.counted n u : ℤ) = s.counted n u + if u = p ∧ n = m then d else 0

omit [SchedulerPriority P] [DecidableEq C] [DecidableEq T] in
theorem counted_congr (hpc : (s'.pc t).relocks = (s.pc t).relocks) (hsaved : s'.saved t = s.saved t)
    (hheld : s'.held m t = s.held m t) : s'.counted m t = s.counted m t := by
  rw [counted, counted, hpc, hsaved, hheld]

omit [SchedulerPriority P] [DecidableEq C] in
theorem Counts.same (hpc : ∀ u, (s'.pc u).relocks = (s.pc u).relocks) (hsaved : s'.saved = s.saved)
    (hheld : s'.held = s.held) : Counts s s' m p 0 := by
  intro n u
  rw [counted_congr (hpc u) (congrFun hsaved u) (congrFun (congrFun hheld n) u), ite_self, add_zero]

omit [SchedulerPriority P] [DecidableEq C] in
/-- A thread that is not in `wait` holds a mutex more or fewer times. -/
theorem Counts.held {d : ℤ} {k : ℕ} (hp : (s.pc p).relocks = none)
    (hpc : ∀ u, (s'.pc u).relocks = (s.pc u).relocks) (hsaved : s'.saved = s.saved)
    (hheld : ∀ n u, s'.held n u = if u = p ∧ n = m then k else s.held n u)
    (hk : (k : ℤ) = s.held m p + d) : Counts s s' m p d := by
  intro n u
  by_cases h : u = p ∧ n = m
  · obtain ⟨rfl, rfl⟩ := h
    rw [counted, counted, hpc, hp, if_neg (by simp), if_neg (by simp), hheld, if_pos ⟨rfl, rfl⟩,
      if_pos ⟨rfl, rfl⟩, hk]
  · rw [if_neg h, add_zero, counted_congr (hpc u) (congrFun hsaved u)]
    rw [hheld, if_neg h]

omit [SchedulerPriority P] [DecidableEq C] in
/-- A thread calls `wait`: what it held is saved. -/
theorem Counts.wait {depth : ℕ} {d : ℤ} (hp : s.pc p = .idle) (hpcp : s'.pc p = .condWaiting c m depth)
    (hpc : ∀ u, u ≠ p → s'.pc u = s.pc u) (hsaved : s'.saved = Function.update s.saved p (s.held m p, d))
    (hheld : ∀ n u, ¬ (u = p ∧ n = m) → s'.held n u = s.held n u) : Counts s s' m p 0 := by
  intro n u
  rw [ite_self, add_zero]
  by_cases hu : u = p
  · subst hu
    by_cases hn : n = m
    · subst hn
      simp [counted, hp, hpcp, hsaved, MutexPc.relocks]
    · rw [counted, counted, hp, hpcp, if_neg (by simpa [MutexPc.relocks] using Ne.symm hn),
        if_neg (by simp [MutexPc.relocks]), hheld n u fun h => hn h.2]
  · rw [counted_congr (by rw [hpc u hu]) (by rw [hsaved, Function.update_of_ne hu])
      (hheld n u fun h => hu h.1)]

omit [SchedulerPriority P] [DecidableEq C] in
/-- `wait` returns: the thread holds what it held before. -/
theorem Counts.returns {depth : ℕ} (hp : (s.pc p).relocks = some (m, depth)) (hpcp : s'.pc p = .idle)
    (hpc : ∀ u, u ≠ p → s'.pc u = s.pc u) (hsaved : s'.saved = s.saved)
    (hheld : ∀ n u, s'.held n u = if u = p ∧ n = m then (s.saved p).1 else s.held n u) :
    Counts s s' m p 0 := by
  have hidle : (s'.pc p).relocks = none := by rw [hpcp]; rfl
  intro n u
  rw [ite_self, add_zero]
  by_cases hu : u = p
  · subst hu
    by_cases hn : n = m
    · subst hn
      simp [counted, hp, hidle, hheld]
    · simp [counted, hp, hidle, hheld, hn, Ne.symm hn]
  · exact congrArg Nat.cast (counted_congr (by rw [hpc u hu]) (by rw [hsaved])
      (by rw [hheld, if_neg fun h => hu h.1]))

/-! ## The calls of each step -/

omit [SchedulerPriority P] [DecidableEq C] in
theorem setHeld_held (s : MutexSystem P M C T) (m : M) (p : T) (k : ℕ) (n : M) (u : T) :
    (s.setHeld m p k).held n u = if u = p ∧ n = m then k else s.held n u := by
  by_cases hn : n = m
  · subst hn
    by_cases hu : u = p
    · simp [setHeld, hu]
    · simp [setHeld, hu]
  · simp [setHeld, hn]

omit [SchedulerPriority P] [DecidableEq C] in
/-- A section that ends with a new count of its thread. -/
theorem Counts.setHeld {d : ℤ} {k : ℕ} (hp : (s.pc p).relocks = none)
    (hpc : ∀ u, (r.pc u).relocks = (s.pc u).relocks) (hsaved : r.saved = s.saved) (hheld : r.held = s.held)
    (hk : (k : ℤ) = s.held m p + d) : Counts s (r.setHeld m p k) m p d :=
  .held hp hpc hsaved (fun n u => by rw [setHeld_held, hheld]) hk

omit [DecidableEq C] in
/-- A thread enters a heap: it was not in `wait`, or it stays in it. -/
theorem enterWaiting_counts [Fintype T] {o : T} (h : Inv isRecursive s locked cq) (hf : Fintype.card T ≤ fuel)
    (hown : s.owner m = some o) (hop : o ≠ p) (hno : ¬ ReflTransGen s.WaitsFor o p) (hp : (s.pc p).locks = none)
    (hr : s.enterWaiting fuel m p o = .ok r) {pc : MutexPc M C} (hpc : pc.relocks = (s.pc p).relocks) :
    Counts s ((r.setWait p true).setPc p pc) m p 0 := by
  obtain ⟨pr, w, hrun, -⟩ := enterWaiting_spec h.waits hf (h.places.not_waiting hp) hown hop hno
  cases hrun.symm.trans hr
  refine .same (fun u => ?_) rfl rfl
  by_cases hu : u = p
  · rw [hu, setPc_self, hpc]
  · rw [setPc_of_ne _ hu]
    rfl

theorem pkLock_counts [Fintype T] (h : Inv isRecursive s locked cq) (hf : Fintype.card T ≤ fuel)
    (hp : s.pc p = .idle) (hno : ∀ o, s.owner m = some o → o ≠ p → ¬ ReflTransGen s.WaitsFor o p)
    (hs : s.pkLock fuel m p = .ok s') : Counts s s' m p (if s'.pc p = .idle then 1 else 0) := by
  have hre : (s.pc p).relocks = none := by rw [hp]; rfl
  unfold pkLock at hs
  cases hown : s.owner m with
  | none =>
    rw [hown] at hs
    cases hs
    exact .setHeld hre (fun _ => rfl) rfl rfl ((Nat.cast_succ _).trans (congrArg (_ + ·) (if_pos hp).symm))
  | some o =>
    rw [hown] at hs
    dsimp only at hs
    split_ifs at hs with hop hd
    · cases hs
      exact .setHeld hre (fun _ => rfl) rfl rfl ((Nat.cast_succ _).trans (congrArg (_ + ·) (if_pos hp).symm))
    · obtain ⟨r, hr, hs⟩ := bind_eq_ok hs
      cases hs
      rw [setPc_self, if_neg (by simp)]
      exact enterWaiting_counts h hf hown hop (hno o hown hop) (by rw [hp]; rfl) hr (by rw [hp]; rfl)

omit [SchedulerPriority P] [DecidableEq C] in
theorem pkTryLock_counts {b : Bool} (hp : s.pc p = .idle) (hs : s.pkTryLock m p = (s', b)) :
    Counts s s' m p (if b = true then 1 else 0) := by
  have hre : (s.pc p).relocks = none := by rw [hp]; rfl
  unfold pkTryLock at hs
  cases hown : s.owner m with
  | none =>
    rw [hown] at hs
    cases hs
    exact .setHeld hre (fun _ => rfl) rfl rfl (Nat.cast_succ _)
  | some o =>
    rw [hown] at hs
    dsimp only at hs
    split_ifs at hs with hop
    · cases hs
      exact .setHeld hre (fun _ => rfl) rfl rfl (Nat.cast_succ _)
    · cases hs
      exact .same (fun _ => rfl) rfl rfl

omit [DecidableEq C] in
theorem pkUnlock_counts [Fintype M] {b : Bool} (h : Inv isRecursive s locked cq) (hf : Fintype.card M ≤ fuel)
    (hp : s.pc p = .idle) (hs : s.pkUnlock fuel m p = .ok (s', b)) :
    Counts s s' m p (if s.owner m = some p then -1 else 0) := by
  have hre : (s.pc p).relocks = none := by rw [hp]; rfl
  unfold pkUnlock at hs
  split_ifs at hs with hown hd
  · cases hs
    rw [if_neg hown]
    exact .same (fun _ => rfl) rfl rfl
  · rw [not_not] at hown
    cases hs
    rw [if_pos hown]
    refine .setHeld hre (fun _ => rfl) rfl rfl ?_
    rw [held_of_owner h hown hp]
    omega
  · rw [not_not] at hown
    obtain ⟨r, -, hrun, -, -, -, hsame, -⟩ :=
      release_spec h.locks h.waits hown (h.places.not_waiting (by rw [hp]; rfl)) hf
    rw [hrun] at hs
    cases hs
    rw [if_pos hown]
    refine .setHeld hre (fun u => by rw [hsame.pc]) hsame.saved hsame.held ?_
    rw [held_of_owner h hown hp]
    omega

theorem waitOn_counts [Fintype M] (h : Inv isRecursive s locked cq) (hf : Fintype.card M ≤ fuel)
    (hp : s.pc p = .idle) (hown : s.owner m = some p) (hs : s.waitOn fuel c m p = .ok s') :
    Counts s s' m p 0 := by
  obtain ⟨r, -, hrun, -, -, -, hsame, -⟩ := release_spec (h.locks.enqueueCond c p) (h.waits.enqueueCond c p) hown
    (h.places.not_waiting (by rw [hp]; rfl)) hf
  rw [waitOn_eq hown hrun] at hs
  cases hs
  refine .wait hp (setPc_self _ _ _) (fun u hu => ?_) rfl fun n u hu => ?_
  · exact (setPc_of_ne _ hu).trans (congrFun hsame.pc u)
  · refine (setHeld_held _ m p 0 n u).trans ?_
    rw [if_neg hu]
    exact congrFun (congrFun hsame.held n) u

omit [SchedulerPriority P] [DecidableEq C] in
theorem condReturn_counts {depth : ℕ} (hre : (s.pc p).relocks = some (m, depth)) (hpc : r.pc = s.pc)
    (hsaved : r.saved = s.saved) (hheld : r.held = s.held) : Counts s (r.condReturn m p) m p 0 := by
  refine .returns hre (setPc_self _ _ _) (fun u hu => ?_) hsaved fun n u => ?_
  · exact (setPc_of_ne _ hu).trans (congrFun hpc u)
  · refine (setHeld_held r m p (r.saved p).1 n u).trans ?_
    rw [hsaved, hheld]

omit [DecidableEq C] in
theorem pkLockToDepth_counts [Fintype T] {depth : ℕ} (h : Inv isRecursive s locked cq)
    (hf : Fintype.card T ≤ fuel) (hp : s.pc p = .condWaiting c m depth)
    (hno : ∀ o, s.owner m = some o → o ≠ p → ¬ ReflTransGen s.WaitsFor o p)
    (hs : s.pkLockToDepth fuel c m p depth = .ok s') : Counts s s' m p 0 := by
  have hre : (s.pc p).relocks = some (m, depth) := by rw [hp]; rfl
  unfold pkLockToDepth at hs
  cases hown : s.owner m with
  | none =>
    rw [hown] at hs
    cases hs
    refine condReturn_counts hre ?_ ?_ ?_ <;> unfold restoreDepth <;> split_ifs <;> rfl
  | some o =>
    rw [hown] at hs
    dsimp only at hs
    split_ifs at hs with hop hd
    · cases hs
      exact condReturn_counts hre rfl rfl rfl
    · obtain ⟨r, hr, hs⟩ := bind_eq_ok hs
      cases hs
      exact enterWaiting_counts h hf hown hop (hno o hown hop) (by rw [hp]; rfl) hr (by rw [hre]; rfl)

/-- Only a thread that returns from its lock loop counts. -/
theorem resume_counts [Fintype T] (h : Inv isRecursive s locked cq) (hf : Fintype.card T ≤ fuel)
    (hwait : s.wait t = false) (hcond : s.condWait t = false) (hno : ¬ s.ClosesCycle (.resume t))
    (hs : s.resume fuel t = .ok s') (m : M) (u : T) :
    (s'.counted m u : ℤ) = s.counted m u + s.callsIn (.resume t) s' m u := by
  have hnone : ∀ pc : MutexPc M C, (∀ n, pc ≠ .locking n) → s.pc t = pc →
      s.callsIn (.resume t) s' m u = 0 := by
    rintro _ hn rfl
    exact if_neg fun ⟨htu, hm, _⟩ => hn m (htu ▸ hm)
  unfold resume at hs
  cases hp : s.pc t with
  | idle =>
    rw [hp] at hs
    cases hs
    rw [hnone _ (by simp) hp, add_zero]
  | locking n =>
    rw [hp] at hs
    dsimp only at hs
    split_ifs at hs with hown
    · cases hs
      have hidle : (((s.setHeld n t (s.held n t + 1)).setPc t .idle).pc t) = .idle := setPc_self _ _ _
      have hcounts : Counts s ((s.setHeld n t (s.held n t + 1)).setPc t .idle) n t 1 := by
        refine .held (by rw [hp]; rfl) (fun v => ?_) rfl (fun m v => setHeld_held s n t _ m v)
          (Nat.cast_succ _)
        by_cases hv : v = t
        · rw [hv, hidle, hp]
          rfl
        · rw [setPc_of_ne _ hv]
          rfl
      rw [hcounts m u, callsIn]
      congr 1
      refine if_congr ?_ rfl rfl
      constructor
      · rintro ⟨rfl, rfl⟩
        exact ⟨rfl, hp, hidle⟩
      · rintro ⟨rfl, hm, -⟩
        exact ⟨rfl, by simpa using hm.symm.trans hp⟩
    · cases hs
      rw [callsIn, if_neg, add_zero]
      · rfl
      · rintro ⟨rfl, hm, hidle⟩
        cases hm.symm.trans hidle
  | condWaiting c n depth =>
    rw [hp] at hs
    have hcounts := pkLockToDepth_counts h hf hp (fun o ho hot hr =>
      hno ⟨t, n, o, ⟨rfl, c, depth, hp, hwait, hcond⟩, ho, hot, hr⟩) hs
    rw [hcounts m u, ite_self, hnone _ (by simp) hp]
  | relocking c n depth =>
    rw [hp] at hs
    dsimp only at hs
    rw [hnone _ (by simp) hp, add_zero]
    split_ifs at hs with hown
    · cases hs
      have hre : (s.pc t).relocks = some (n, depth) := by rw [hp]; rfl
      have hcounts : Counts s ((s.restoreDepth n depth).condReturn n t) n t 0 := by
        refine condReturn_counts hre ?_ ?_ ?_ <;> unfold restoreDepth <;> split_ifs <;> rfl
      rw [hcounts m u, ite_self, add_zero]
    · cases hs
      rfl

omit [SchedulerPriority P] in
/-- The count of a section of an idle thread, in the form of the calls. -/
theorem Counts.calls {q : M → T → Prop} [∀ n u, Decidable (q n u)] {d : ℤ} (hp : s.pc t = .idle)
    (h : Counts s s' n t (if q n t then d else 0)) (m : M) (u : T) :
    (s'.counted m u : ℤ) = s.counted m u + if t = u ∧ n = m ∧ s.pc u = .idle ∧ q m u then d else 0 := by
  rw [h m u, ← ite_and]
  refine congrArg (_ + ·) (if_congr ?_ rfl rfl)
  constructor
  · rintro ⟨⟨rfl, rfl⟩, hq⟩
    exact ⟨rfl, rfl, hp, hq⟩
  · rintro ⟨rfl, rfl, -, hq⟩
    exact ⟨⟨rfl, rfl⟩, hq⟩

omit [SchedulerPriority P] in
/-- A thread that is not idle does not call. -/
theorem no_calls {q : Prop} [Decidable q] {d : ℤ} (hp : s.pc t ≠ .idle) (m : M) (u : T) :
    (s.counted m u : ℤ) = s.counted m u + if t = u ∧ n = m ∧ s.pc u = .idle ∧ q then d else 0 := by
  rw [if_neg, add_zero]
  rintro ⟨rfl, -, hidle, -⟩
  exact hp hidle

/-- **One step.** What the model counts are the lock calls that returned, less the unlock calls. -/
theorem step_calls [Fintype T] [Fintype M] (h : Inv isRecursive s locked cq) (hT : Fintype.card T < fuel)
    (hM : Fintype.card M < fuel) (hno : ¬ s.ClosesCycle e) (hs : s.step fuel e = .ok s') (m : M) (u : T) :
    (s'.counted m u : ℤ) = s.counted m u + s.callsIn e s' m u := by
  cases e with
  | lock t n =>
    rw [step] at hs
    split_ifs at hs with hp
    · have hcounts := pkLock_counts h hT.le hp
        (fun o ho hot hr => hno ⟨t, n, o, ⟨hp, rfl, rfl⟩, ho, hot, hr⟩) hs
      exact hcounts.calls (q := fun _ u => s'.pc u = .idle) hp m u
    · cases hs
      exact no_calls hp m u
  | tryLock t n =>
    rw [step] at hs
    split_ifs at hs with hp
    · cases hs
      have hcounts : Counts s (s.pkTryLock n t).1 n t (if (s.pkTryLock n t).2 = true then 1 else 0) :=
        pkTryLock_counts hp rfl
      exact hcounts.calls (q := fun n u => (s.pkTryLock n u).2 = true) hp m u
    · cases hs
      exact no_calls hp m u
  | unlock t n =>
    rw [step] at hs
    split_ifs at hs with hp
    · obtain ⟨r, b, -, hr, -⟩ := pkUnlock_ok h hM.le hp n
      rw [hr] at hs
      cases hs
      exact (pkUnlock_counts h hM.le hp hr).calls (q := fun n u => s.owner n = some u) hp m u
    · cases hs
      exact no_calls hp m u
  | setPriority t pr =>
    rw [step] at hs
    split_ifs at hs with hp
    · obtain ⟨pr', saved, set, -, hr⟩ := setPriority_spec (h.locks.linked t)
        ((h.locks.length_le t).trans hM.le) pr
      rw [hr] at hs
      cases hs
      exact (add_zero _).symm
    · cases hs
      exact (add_zero _).symm
  | wait t c n =>
    rw [step] at hs
    split_ifs at hs with hp
    · rw [waitOn_counts h hM.le hp.1 hp.2 hs m u, ite_self]
      rfl
    · cases hs
      exact (add_zero _).symm
  | signal t c =>
    rw [step] at hs
    split_ifs at hs with hp
    · cases hs
      unfold signal
      cases s.first c <;> exact (add_zero _).symm
    · cases hs
      exact (add_zero _).symm
  | broadcast t c =>
    rw [step] at hs
    split_ifs at hs with hp
    · obtain ⟨r, hr, hs⟩ := bind_eq_ok (x := broadcast c t fuel s false) (f := fun r => .ok r.1) hs
      cases hs
      obtain ⟨cw, f, rel, heq⟩ := broadcast_frame hr
      rw [heq]
      exact (add_zero _).symm
    · cases hs
      exact (add_zero _).symm
  | resume t =>
    by_cases hw : (s.wait t || s.condWait t) = true
    · rw [step, if_pos hw] at hs
      cases hs
      rw [callsIn, if_neg, add_zero]
      rintro ⟨rfl, hlocking, hidle⟩
      cases hlocking.symm.trans hidle
    · rw [step, if_neg hw] at hs
      obtain ⟨hwait, hcond⟩ : s.wait t = false ∧ s.condWait t = false := by simpa using hw
      exact resume_counts h hT.le hwait hcond hno hs m u
  | wakeup t =>
    cases hs
    exact (add_zero _).symm

/-! ## Runs -/

/-- A call of `lock`, or of `wait` with the mutex, returns in a step. -/
def Returns (s : MutexSystem P M C T) (e : Event P M C T) (s' : MutexSystem P M C T) (m : M) (t : T) : Prop :=
  s'.pc t = .idle ∧
    (e = .lock t m ∧ s.pc t = .idle ∨ s.pc t = .locking m ∨ ∃ depth, (s.pc t).relocks = some (m, depth))

/-- The mutexes in one state, and what the next step does to them. -/
structure MutexesOk (fuel : ℕ) (isRecursive : M → Bool) (calls : M → T → ℤ) (s : MutexSystem P M C T) :
    Prop where
  /-- The list of a thread has the mutexes that it owns, each once. -/
  locked : ∀ t, ∃ l, Linked s.next (s.mutexLocked t) l ∧ ∀ m, l.count m = if s.owner m = some t then 1 else 0
  /-- A thread is in the heap of the mutex that it waits for, once, and in no other one. -/
  waiting : ∀ m t, (s.waiting m).count t = if s.mutexWaiting t = some m then 1 else 0
  owner_ne : ∀ m t, s.mutexWaiting t = some m → ∃ o, s.owner m = some o ∧ o ≠ t
  /-- A heap under the priorities that the threads have now. -/
  heap : ∀ m, IsHeap s.level (s.waiting m)
  /-- The last unlock and a wait return, and hand the mutex over. -/
  handsOver : ∀ e m, s.Releases e m → ∃ s', s.step fuel e = .ok s' ∧ HandsOver s s' m
  /-- A thread returns from `lock` and from `wait` as the owner. -/
  returns : ∀ e s' m t, ¬ s.ClosesCycle e → s.step fuel e = .ok s' → Returns s e s' m t → s'.owner m = some t
  /-- The depth of a recursive mutex counts the lock calls of its owner, the one under way included. -/
  depth : ∀ m t, isRecursive m = true → s.owner m = some t → (∀ depth, (s.pc t).relocks ≠ some (m, depth)) →
    s.recursiveDepth m + 1 = calls m t + if s.pc t = .locking m then 1 else 0
  /-- A thread in `wait` keeps the depth that it locks the mutex to again. -/
  waitDepth : ∀ m t depth, (s.pc t).relocks = some (m, depth) → (depth : ℤ) + 1 = calls m t
  /-- The only error is that of a thread that locks a mutex that it already owns. -/
  errors : ∀ e f, ¬ s.ClosesCycle e → s.step fuel e = .error f → f = .deadlock

theorem Inv.returns [Fintype T] [Fintype M] (h : Inv isRecursive s locked cq) (hT : Fintype.card T < fuel)
    (hM : Fintype.card M < fuel) (hno : ¬ s.ClosesCycle e) (hs : s.step fuel e = .ok s')
    (hret : Returns s e s' m t) : s'.owner m = some t := by
  obtain ⟨hidle, ⟨rfl, hp⟩ | hloop⟩ := hret
  · rw [step, if_pos hp] at hs
    obtain ⟨hd, -⟩ | ⟨s₁, -, hs₁, -, -, -, ⟨-, hown⟩ | hlocking⟩ := pkLock_ok h hT.le hp fun o ho hot hr =>
      hno ⟨t, m, o, ⟨hp, rfl, rfl⟩, ho, hot, hr⟩
    · cases hd.symm.trans hs
    · cases hs₁.symm.trans hs
      exact hown
    · cases hs₁.symm.trans hs
      cases hlocking.symm.trans hidle
  · obtain ⟨hd, -⟩ | ⟨s₁, locked₁, hs₁, hstep⟩ := step_ok h hT hM e hno
    · cases hd.symm.trans hs
    cases hs₁.symm.trans hs
    have hmutex : (s.pc t).locks = some m ∨ ∃ depth, (s.pc t).relocks = some (m, depth) :=
      hloop.imp_left fun hm => by rw [hm]; rfl
    cases hstep.move t with
    | stays h' =>
      rw [← h', hidle] at hmutex
      obtain hm | ⟨depth, hm⟩ := hmutex <;> cases hm
    | blocks n _ h' => cases h'.symm.trans hidle
    | waits c n depth _ h' => cases h'.symm.trans hidle
    | locked n hn _ hown =>
      rw [hn] at hmutex
      obtain hm | ⟨depth, hm⟩ := hmutex
      · exact (Option.some.inj hm) ▸ hown
      · cases hm
    | relocks c n depth _ _ h' => cases h'.symm.trans hidle
    | returns n depth hn _ _ hown _ _ =>
      obtain hm | ⟨d, hm⟩ := hloop
      · rw [hm] at hn
        cases hn
      · cases hn.symm.trans hm
        exact hown

theorem Inv.depthCounts (h : Inv isRecursive s locked cq) (hrec : isRecursive m = true)
    (hown : s.owner m = some t) (hre : ∀ depth, (s.pc t).relocks ≠ some (m, depth)) :
    s.recursiveDepth m + 1 = s.counted m t + if s.pc t = .locking m then 1 else 0 := by
  have hkind := (h.depth m).kind
  rw [if_pos hrec] at hkind
  have hcounted : s.counted m t = s.held m t := by
    refine if_neg fun hm => ?_
    obtain ⟨⟨n, depth⟩, hn, rfl⟩ := Option.map_eq_some_iff.1 hm
    exact hre depth hn
  rw [hcounted, (h.depth m).held t]
  by_cases hp : s.pc t = .locking m
  · have hlocks : (s.pc t).locks = some m := by rw [hp]; rfl
    have hfresh := (h.depth m).fresh fun u hu => by
      rw [← Option.some.inj (hown.symm.trans hu), hlocks]
    rw [if_neg fun hh => hh.2 hlocks, if_pos hp]
    omega
  · have hlocks : (s.pc t).locks ≠ some m := by
      intro hm
      cases hpc : s.pc t with
      | idle =>
        rw [hpc] at hm
        cases hm
      | locking n =>
        rw [hpc] at hm hp
        cases hm
        exact hp rfl
      | condWaiting c n depth =>
        rw [hpc] at hm
        cases hm
      | relocking c n depth =>
        rw [hpc] at hm hre
        cases hm
        exact hre depth rfl
    rw [if_pos ⟨hown, hlocks⟩, if_neg hp]
    omega

omit [DecidableEq C] in
theorem Inv.waitCounts {depth : ℕ} (h : Inv isRecursive s locked cq)
    (hre : (s.pc t).relocks = some (m, depth)) : s.counted m t = depth + 1 := by
  obtain ⟨h1, h2, -, -⟩ := h.saved t m depth hre
  rw [counted, hre]
  exact (if_pos rfl).trans (by rw [h1, h2])

theorem Inv.mutexesOk [Fintype T] [Fintype M] (h : Inv isRecursive s locked cq) (hT : Fintype.card T < fuel)
    (hM : Fintype.card M < fuel) {calls : M → T → ℤ} (hcalls : ∀ m t, calls m t = s.counted m t) :
    MutexesOk fuel isRecursive calls s where
  locked t := by
    refine ⟨locked t, h.locks.linked t, fun m => ?_⟩
    rw [(h.locks.nodup t).count]
    refine if_congr ?_ rfl rfl
    rw [h.locks.owned]
    exact and_iff_left trivial
  waiting m t := by
    rw [(h.waits.once m).count]
    exact if_congr (h.waits.queued m t) rfl rfl
  owner_ne := h.waits.owner_ne
  heap := h.waits.heap
  handsOver e m he := by
    have hs : ∃ s', s.step fuel e = .ok s' := by
      obtain ⟨p, hp, hown, ⟨rfl, -⟩ | ⟨c, rfl⟩⟩ := he
      · obtain ⟨s', b, -, hs, -⟩ := pkUnlock_ok h hM.le hp m
        exact ⟨s', by rw [step, if_pos hp, hs]; rfl⟩
      · obtain ⟨s', -, -, hs, -⟩ := waitOn_inv h hown hp hM.le c
        exact ⟨s', (if_pos ⟨hp, hown⟩).trans hs⟩
    obtain ⟨s', hs⟩ := hs
    exact ⟨s', hs, h.handsOver hM.le he hs⟩
  returns e s' m t hno hs hret := h.returns hT hM hno hs hret
  depth m t hrec hown hre := by
    rw [hcalls]
    exact h.depthCounts hrec hown hre
  waitDepth m t depth hre := by
    rw [hcalls, h.waitCounts hre]
    exact (Nat.cast_succ _).symm
  errors e f hno hs := by
    obtain ⟨hd, -⟩ | ⟨s', -, hs', -⟩ := step_ok h hT hM e hno
    · exact (Except.error.inj (hd.symm.trans hs)).symm
    · cases hs'.symm.trans hs

/-- What the model counts at the end of a run. -/
theorem run_calls [Fintype T] [Fintype M] (hT : Fintype.card T < fuel) (hM : Fintype.card M < fuel)
    (events : List (Event P M C T)) (h : Inv isRecursive s locked cq) (hno : NoCycle fuel s events)
    (hs : run fuel s events = .ok s') (m : M) (u : T) :
    (s'.counted m u : ℤ) = s.counted m u + lockCalls fuel s events m u := by
  induction events generalizing s locked cq with
  | nil =>
    cases hs
    exact (add_zero _).symm
  | cons e events ih =>
    obtain ⟨s₁, hs₁, hs⟩ := bind_eq_ok hs
    obtain ⟨hd, -⟩ | ⟨s₂, locked₂, hs₂, hstep⟩ := step_ok h hT hM e hno.1
    · cases hd.symm.trans hs₁
    cases hs₂.symm.trans hs₁
    rw [ih hstep.inv (hno.2 s₁ hs₁) hs, step_calls h hT hM hno.1 hs₁ m u, lockCalls, hs₁, add_assoc]

/-- **Mutexes.** Every run that closes no cycle ends with a thread that locks a mutex that it already owns, or in
a state in which the lists, the heaps and the depths are right and the next step keeps to them. -/
theorem run_mutexes [Fintype T] [Fintype M] (isRecursive : M → Bool) (priority savedPriority : T → P)
    (next : M → Option M) (last : C → Option T) (condNext : T → Option T) (saved : T → ℕ × ℤ)
    (hT : Fintype.card T < fuel) (hM : Fintype.card M < fuel) (events : List (Event P M C T))
    (hno : NoCycle fuel (init isRecursive priority savedPriority next last condNext saved) events) :
    run fuel (init isRecursive priority savedPriority next last condNext saved) events = .error .deadlock ∨
      ∃ s, run fuel (init isRecursive priority savedPriority next last condNext saved) events = .ok s ∧
        MutexesOk fuel isRecursive
          (lockCalls fuel (init isRecursive priority savedPriority next last condNext saved) events) s := by
  have h := init_inv (C := C) isRecursive priority savedPriority next last condNext saved
  obtain ⟨hd, -⟩ | ⟨s, locked, cq, hs, hinv⟩ := run_ok hT hM events h hno
  · exact Or.inl hd
  · refine Or.inr ⟨s, hs, hinv.mutexesOk hT hM fun m t => ?_⟩
    rw [run_calls hT hM events h hno hs m t]
    exact (zero_add _).symm

/-- Two threads, the one with the lower priority being thread 0, and a recursive mutex. -/
def oneMutex : MutexSystem PrioritySchedulerPriority Unit Unit (Fin 2) :=
  init (fun _ => true) (fun t => ⟨t.val⟩) (fun _ => ⟨0⟩) (fun _ => none) (fun _ => none) (fun _ => none)
    fun _ => (0, 0)

/-- The mutex goes to the thread that waits for it, which is then woken for no reason. -/
def oneMutexEvents : List (Event PrioritySchedulerPriority Unit Unit (Fin 2)) :=
  [.lock 0 (), .lock 0 (), .lock 1 (), .unlock 0 (), .unlock 0 (), .wakeup 1]

theorem run_mutexes_one : ∃ s, run 3 oneMutex oneMutexEvents = .ok s ∧ s.owner () = some 1 ∧
    MutexesOk 3 (fun _ => true) (lockCalls 3 oneMutex oneMutexEvents) s := by
  obtain ⟨s, hrun, hown⟩ : ∃ s, run 3 oneMutex oneMutexEvents = .ok s ∧ s.owner () = some 1 := ⟨_, rfl, rfl⟩
  refine ⟨s, hrun, hown, ?_⟩
  obtain hd | ⟨s', hs, hok⟩ := run_mutexes (P := PrioritySchedulerPriority) (C := Unit) (fun _ : Unit => true)
    (fun t : Fin 2 => ⟨t.val⟩) (fun _ => ⟨0⟩) (fun _ => none) (fun _ => none) (fun _ => none) (fun _ => (0, 0))
    (by decide : Fintype.card (Fin 2) < 3) (by decide) oneMutexEvents
    (noCycle (by decide) (by decide) _ (init_inv _ _ _ _ _ _ _))
  · cases hd.symm.trans hrun
  · cases hs.symm.trans hrun
    exact hok

end MutexSystem

end Miosix
