import MiosixKernel.Sync.MutexInvariant

/-!
# Mutexes with priority inheritance: the invariant

What holds of the places of the threads, of the depths of the mutexes and of the lists of the condition
variables, and what each section does to it.

* `PlacesOk`: a thread in a lock loop waits for the mutex or owns it, in which case it is not suspended;
* `DepthAt`: the depth of a mutex counts how many times its owner has locked it;
* `CondOk`: the list of a condition variable has the threads that wait on it and were not released;
* `Inv`: all of the invariant;
* **`step_ok`**: a step that closes no cycle keeps the invariant, or is a deadlock that is reported.
-/

namespace Miosix

open Lib Relation

/-! ## Places -/

namespace MutexPc

variable {M C : Type}

/-- The mutex of the lock loop. -/
def locks : MutexPc M C → Option M
  | locking m => some m
  | relocking _ m _ => some m
  | _ => none

/-- The condition variable that the thread waits on, before it locks the mutex again. -/
def queuedOn : MutexPc M C → Option C
  | condWaiting c _ _ => some c
  | _ => none

/-- The condition variable that the thread waits on, until `wait` returns. -/
def waitsOn : MutexPc M C → Option C
  | condWaiting c _ _ => some c
  | relocking c _ _ => some c
  | _ => none

/-- The mutex that `wait` has released and its depth. -/
def relocks : MutexPc M C → Option (M × ℕ)
  | condWaiting _ m depth => some (m, depth)
  | relocking _ m depth => some (m, depth)
  | _ => none

end MutexPc

namespace MutexSystem

variable {P M C T : Type} [SchedulerPriority P] [DecidableEq M] [DecidableEq C] [DecidableEq T]
  {s s' : MutexSystem P M C T} {locked : T → List M} {cq : C → List T} {m n : M} {c : C}
  {p t o u : T} {b : Bool} {fuel : ℕ}

omit [SchedulerPriority P] [DecidableEq M] [DecidableEq C] in
@[simp] theorem setPc_self (s : MutexSystem P M C T) (t : T) (pc : MutexPc M C) :
    (s.setPc t pc).pc t = pc := Function.update_self _ _ _

omit [SchedulerPriority P] [DecidableEq M] [DecidableEq C] in
theorem setPc_of_ne (s : MutexSystem P M C T) {pc : MutexPc M C} (h : u ≠ t) :
    (s.setPc t pc).pc u = s.pc u := Function.update_of_ne h _ _

structure PlacesOk (s : MutexSystem P M C T) : Prop where
  waits : ∀ t m, s.mutexWaiting t = some m → (s.pc t).locks = some m
  granted : ∀ t m, (s.pc t).locks = some m → s.mutexWaiting t = none →
    s.owner m = some t ∧ s.wait t = false
  awake : ∀ t, (s.pc t).locks = none → s.wait t = false

omit [SchedulerPriority P] [DecidableEq M] [DecidableEq C] [DecidableEq T] in
theorem PlacesOk.not_waiting (h : s.PlacesOk) (ht : (s.pc t).locks = none) :
    s.mutexWaiting t = none := by
  cases hm : s.mutexWaiting t with
  | none => rfl
  | some m => cases ht.symm.trans (h.waits t m hm)

omit [SchedulerPriority P] [DecidableEq M] [DecidableEq C] [DecidableEq T] in
/-- A section that leaves every thread in its loop. -/
theorem PlacesOk.congr (h : s.PlacesOk) (hpc : ∀ t, (s'.pc t).locks = (s.pc t).locks)
    (hm : s'.mutexWaiting = s.mutexWaiting)
    (hown : ∀ t n, (s.pc t).locks = some n → s.owner n = some t → s'.owner n = some t)
    (hw : ∀ t, s.wait t = false → s'.wait t = false) : s'.PlacesOk where
  waits t n ht := by
    rw [hm] at ht
    rw [hpc]
    exact h.waits t n ht
  granted t n ht hnone := by
    rw [hpc] at ht
    rw [hm] at hnone
    obtain ⟨h1, h2⟩ := h.granted t n ht hnone
    exact ⟨hown t n ht h1, hw t h2⟩
  awake t ht := hw t (h.awake t ((hpc t).symm.trans ht))

omit [SchedulerPriority P] [DecidableEq M] [DecidableEq C] in
/-- A thread leaves its loop. -/
theorem PlacesOk.leave (h : s.PlacesOk) (ht : s.mutexWaiting t = none) (hw : s.wait t = false)
    (hpct : (s'.pc t).locks = none) (hpc : ∀ u, u ≠ t → s'.pc u = s.pc u)
    (hm : s'.mutexWaiting = s.mutexWaiting) (hown : s'.owner = s.owner) (hwait : s'.wait = s.wait) :
    s'.PlacesOk where
  waits u n hu := by
    rw [hm] at hu
    have hut : u ≠ t := by
      rintro rfl
      exact Option.some_ne_none n (hu.symm.trans ht)
    rw [hpc u hut]
    exact h.waits u n hu
  granted u n hu hnone := by
    have hut : u ≠ t := by
      rintro rfl
      cases hpct.symm.trans hu
    rw [hpc u hut] at hu
    rw [hm] at hnone
    rw [hown, hwait]
    exact h.granted u n hu hnone
  awake u hu := by
    rw [hwait]
    by_cases hut : u = t
    · rw [hut, hw]
    · rw [hpc u hut] at hu
      exact h.awake u hu

omit [SchedulerPriority P] [DecidableEq M] [DecidableEq C] in
/-- A thread enters a heap and a loop. -/
theorem PlacesOk.sleep (h : s.PlacesOk) (hpct : (s'.pc t).locks = some m)
    (hpc : ∀ u, u ≠ t → s'.pc u = s.pc u)
    (hm : s'.mutexWaiting = Function.update s.mutexWaiting t (some m)) (hown : s'.owner = s.owner)
    (hwait : ∀ u, u ≠ t → s'.wait u = s.wait u) : s'.PlacesOk where
  waits u n hu := by
    by_cases hut : u = t
    · subst hut
      rwa [hm, Function.update_self, ← hpct] at hu
    · rw [hm, Function.update_of_ne hut] at hu
      rw [hpc u hut]
      exact h.waits u n hu
  granted u n hu hnone := by
    have hut : u ≠ t := by
      rintro rfl
      rw [hm, Function.update_self] at hnone
      cases hnone
    rw [hm, Function.update_of_ne hut] at hnone
    rw [hpc u hut] at hu
    rw [hown, hwait u hut]
    exact h.granted u n hu hnone
  awake u hu := by
    have hut : u ≠ t := by
      rintro rfl
      cases hpct.symm.trans hu
    rw [hpc u hut] at hu
    rw [hwait u hut]
    exact h.awake u hu

/-- The mutex goes to nobody, or to a thread that waits for it and is woken. -/
def HandedOver (s s' : MutexSystem P M C T) (m : M) : Prop :=
  s'.owner = Function.update s.owner m none ∧ s'.mutexWaiting = s.mutexWaiting ∧ s'.wait = s.wait ∨
    ∃ u, s.mutexWaiting u = some m ∧ s'.owner = Function.update s.owner m (some u) ∧
      s'.mutexWaiting = Function.update s.mutexWaiting u none ∧
      s'.wait = Function.update s.wait u false

omit [SchedulerPriority P] [DecidableEq C] in
/-- The mutex goes from a thread outside its loop to nobody, or to one that waits for it. -/
theorem PlacesOk.handOver (h : s.PlacesOk) (ho : s.owner m = some p) (hp : (s.pc p).locks = none)
    (hpc : ∀ t, (s'.pc t).locks = (s.pc t).locks) (hs : HandedOver s s' m) : s'.PlacesOk := by
  have hold : ∀ t n, (s.pc t).locks = some n → s.owner n = some t → n ≠ m := by
    rintro t n ht hn rfl
    obtain rfl : p = t := Option.some.inj (ho.symm.trans hn)
    cases hp.symm.trans ht
  obtain ⟨hown, hm, hw⟩ | ⟨u, hu, hown, hm, hw⟩ := hs
  · refine h.congr hpc hm (fun t n ht hn => ?_) fun t ht => by rw [hw]; exact ht
    rw [hown, Function.update_of_ne (hold t n ht hn)]
    exact hn
  · refine ⟨fun t n ht => ?_, fun t n ht hnone => ?_, fun t ht => ?_⟩
    · by_cases htu : t = u
      · subst htu
        rw [hm, Function.update_self] at ht
        cases ht
      · rw [hm, Function.update_of_ne htu] at ht
        rw [hpc]
        exact h.waits t n ht
    · rw [hpc] at ht
      by_cases htu : t = u
      · subst htu
        obtain rfl : n = m := Option.some.inj (ht.symm.trans (h.waits t m hu))
        rw [hown, hw, Function.update_self, Function.update_self]
        exact ⟨rfl, rfl⟩
      · rw [hm, Function.update_of_ne htu] at hnone
        obtain ⟨h1, h2⟩ := h.granted t n ht hnone
        rw [hown, hw, Function.update_of_ne (hold t n ht h1), Function.update_of_ne htu]
        exact ⟨h1, h2⟩
    · rw [hpc] at ht
      rw [hw]
      by_cases htu : t = u
      · rw [htu, Function.update_self]
      · rw [Function.update_of_ne htu]
        exact h.awake t ht

/-! ## Depths -/

/-- The depth of a mutex: the owner that is not in a lock loop has locked it once more than the depth
tells, or once if the mutex is not recursive. -/
structure DepthAt (b : Bool) (s : MutexSystem P M C T) (m : M) : Prop where
  kind : if b then 0 ≤ s.recursiveDepth m else s.recursiveDepth m = -1
  held : ∀ t, s.held m t =
    if s.owner m = some t ∧ (s.pc t).locks ≠ some m then (s.recursiveDepth m).toNat + 1 else 0
  fresh : (∀ t, s.owner m = some t → (s.pc t).locks = some m) → s.recursiveDepth m ≤ 0

omit [SchedulerPriority P] [DecidableEq C] in
theorem DepthAt.congr (h : s.DepthAt b m) (hown : s'.owner m = s.owner m)
    (hdepth : s'.recursiveDepth m = s.recursiveDepth m) (hheld : s'.held m = s.held m)
    (hpc : ∀ t, s.owner m = some t → ((s'.pc t).locks = some m ↔ (s.pc t).locks = some m)) :
    s'.DepthAt b m where
  kind := by rw [hdepth]; exact h.kind
  held t := by
    rw [hheld, hdepth, hown, h.held t]
    refine if_congr (and_congr_right fun ht => ?_) rfl rfl
    rw [ne_eq, ne_eq, hpc t ht]
  fresh hf := by
    rw [hdepth]
    refine h.fresh fun t ht => (hpc t ht).1 (hf t (hown.trans ht))

omit [SchedulerPriority P] [DecidableEq C] in
/-- A thread outside its loop owns the mutex at some depth. -/
theorem DepthAt.lockedBy (hown : s'.owner m = some t) (hpc : (s'.pc t).locks ≠ some m)
    (hheld : ∀ u, s'.held m u = if u = t then (s'.recursiveDepth m).toNat + 1 else 0)
    (hkind : if b then 0 ≤ s'.recursiveDepth m else s'.recursiveDepth m = -1) : s'.DepthAt b m where
  kind := hkind
  held u := by
    rw [hheld u]
    by_cases hut : u = t
    · subst hut
      rw [if_pos rfl, if_pos ⟨hown, hpc⟩]
    · rw [if_neg hut, if_neg]
      rintro ⟨hu, -⟩
      exact hut (Option.some.inj (hu.symm.trans hown))
  fresh hf := absurd (hf t hown) hpc

omit [SchedulerPriority P] [DecidableEq C] in
/-- Nobody holds the mutex, or a thread in its loop. -/
theorem DepthAt.released (hf : ∀ t, s'.owner m = some t → (s'.pc t).locks = some m)
    (hheld : ∀ u, s'.held m u = 0) (hdepth : s'.recursiveDepth m ≤ 0)
    (hkind : if b then 0 ≤ s'.recursiveDepth m else s'.recursiveDepth m = -1) : s'.DepthAt b m where
  kind := hkind
  held u := by
    rw [hheld u, if_neg]
    rintro ⟨hu, hn⟩
    exact hn (hf u hu)
  fresh _ := hdepth

omit [SchedulerPriority P] [DecidableEq C] in
theorem DepthAt.held_eq_zero (h : s.DepthAt b m) (ht : s.owner m ≠ some t) : s.held m t = 0 := by
  rw [h.held t, if_neg fun hh => ht hh.1]

/-- What a thread in `wait` held when it called it. -/
def SavedOk (isRecursive : M → Bool) (s : MutexSystem P M C T) : Prop :=
  ∀ t m depth, (s.pc t).relocks = some (m, depth) →
    (s.saved t).1 = (s.saved t).2.toNat + 1 ∧ (s.saved t).2.toNat = depth ∧
      (if isRecursive m then 0 ≤ (s.saved t).2 else (s.saved t).2 = -1) ∧
      ((s.pc t).locks = none → s.owner m ≠ some t)

/-! ## Condition variables -/

/-- The list of a condition variable has the threads that wait and were not released, in order. -/
structure CondOk (s : MutexSystem P M C T) (cq : C → List T) : Prop where
  queue : ∀ c, LinkedQueue s.condNext (s.first c) (s.last c) (cq c)
  mem : ∀ c t, t ∈ cq c ↔ (s.pc t).queuedOn = some c ∧ s.condWait t = true
  fifo : ∀ c, s.waited c = s.released c ++ cq c
  flag : ∀ t, s.condWait t = true → (s.pc t).queuedOn ≠ none

/-- The fields that the condition variables use are the same. -/
structure SameCond (s s' : MutexSystem P M C T) : Prop where
  condNext : s'.condNext = s.condNext
  first : s'.first = s.first
  last : s'.last = s.last
  condWait : s'.condWait = s.condWait
  waited : s'.waited = s.waited
  released : s'.released = s.released

omit [SchedulerPriority P] [DecidableEq M] [DecidableEq C] [DecidableEq T] in
theorem CondOk.congr (h : s.CondOk cq) (hs : SameCond s s')
    (hpc : ∀ t, s.condWait t = true → (s'.pc t).queuedOn = (s.pc t).queuedOn) : s'.CondOk cq where
  queue c := by rw [hs.condNext, hs.first, hs.last]; exact h.queue c
  mem c t := by
    rw [hs.condWait, h.mem c t]
    exact and_congr_left fun ht => by rw [hpc t ht]
  fifo c := by rw [hs.waited, hs.released]; exact h.fifo c
  flag t ht := by
    rw [hs.condWait] at ht
    rw [hpc t ht]
    exact h.flag t ht

omit [SchedulerPriority P] [DecidableEq M] [DecidableEq C] [DecidableEq T] in
/-- A thread that is not in a list of a condition variable can go anywhere but into one. -/
theorem CondOk.move (h : s.CondOk cq) (hs : SameCond s s') (ht : s.condWait t = false)
    (hpc : ∀ u, u ≠ t → s'.pc u = s.pc u) : s'.CondOk cq := by
  refine h.congr hs fun u hu => ?_
  rw [hpc u]
  rintro rfl
  rw [ht] at hu
  cases hu

omit [SchedulerPriority P] [DecidableEq M] [DecidableEq C] [DecidableEq T] in
theorem CondOk.condWait_idle (h : s.CondOk cq) (ht : (s.pc t).queuedOn = none) :
    s.condWait t = false :=
  Bool.eq_false_iff.2 fun hw => h.flag t hw ht

omit [SchedulerPriority P] [DecidableEq M] in
theorem CondOk.wait (h : s.CondOk cq) (ht : (s.pc t).queuedOn = none)
    (hs : SameCond (s.enqueueCond c t) s') (hpct : (s'.pc t).queuedOn = some c)
    (hpc : ∀ u, u ≠ t → s'.pc u = s.pc u) : s'.CondOk (Function.update cq c (cq c ++ [t])) := by
  have hnot : ∀ d, t ∉ cq d := by
    intro d hd
    rw [h.mem, ht] at hd
    cases hd.1
  have hmem : ∀ d u, u ∈ Function.update cq c (cq c ++ [t]) d ↔ u ∈ cq d ∨ d = c ∧ u = t := by
    intro d u
    by_cases hd : d = c
    · subst hd
      simp
    · simp [hd]
  have hcw : s'.condWait = Function.update s.condWait t true := hs.condWait
  refine ⟨fun d => ?_, fun d u => ?_, fun d => ?_, fun u hu => ?_⟩
  · rw [hs.condNext, hs.first, hs.last]
    by_cases hd : d = c
    · subst hd
      simp only [enqueueCond, Function.update_self]
      exact (h.queue d).append (hnot d)
    · simp only [enqueueCond, Function.update_of_ne hd]
      refine (h.queue d).congr fun u hu => (h.queue c).appendNext_of_ne ?_ fun huc => ?_
      · rintro rfl
        exact hnot d hu
      · exact hd (Option.some.inj (((h.mem d u).1 hu).1.symm.trans ((h.mem c u).1 huc).1))
  · rw [hmem, hcw]
    by_cases hut : u = t
    · subst hut
      rw [hpct, Function.update_self]
      simp [hnot d, eq_comm]
    · rw [hpc u hut, Function.update_of_ne hut, h.mem]
      simp [hut]
  · rw [hs.waited, hs.released]
    by_cases hd : d = c
    · subst hd
      simp [enqueueCond, h.fifo d]
    · simp [enqueueCond, hd, h.fifo d]
  · by_cases hut : u = t
    · subst hut
      rw [hpct]
      exact Option.some_ne_none c
    · rw [hpc u hut]
      rw [hcw, Function.update_of_ne hut] at hu
      exact h.flag u hu

omit [SchedulerPriority P] [DecidableEq M] in
/-- The first thread of the list is released. -/
theorem CondOk.release {l : List T} (h : s.CondOk cq) (hl : cq c = t :: l) :
    (s.release c t).CondOk (Function.update cq c l) := by
  have hq := h.queue c
  rw [hl] at hq
  have htl : t ∉ l := (List.nodup_cons.1 hq.nodup).1
  have htc := (h.mem c t).1 (hl ▸ List.mem_cons_self)
  have hmem : ∀ d u, u ∈ Function.update cq c l d ↔ u ∈ cq d ∧ u ≠ t := by
    intro d u
    by_cases hd : d = c
    · subst hd
      rw [Function.update_self, hl, List.mem_cons]
      constructor
      · intro hu
        exact ⟨Or.inr hu, fun hut => htl (hut ▸ hu)⟩
      · rintro ⟨rfl | hu, hne⟩
        · exact absurd rfl hne
        · exact hu
    · rw [Function.update_of_ne hd]
      refine (and_iff_left_of_imp fun hu => ?_).symm
      rintro rfl
      exact hd (Option.some.inj (((h.mem d u).1 hu).1.symm.trans htc.1))
  refine ⟨fun d => ?_, fun d u => ?_, fun d => ?_, fun u hu => h.flag u ?_⟩
  · by_cases hd : d = c
    · subst hd
      simp only [MutexSystem.release, Function.update_self]
      exact hq.tail
    · simp only [MutexSystem.release, Function.update_of_ne hd]
      exact h.queue d
  · rw [hmem, h.mem]
    by_cases hut : u = t
    · subst hut
      simp [MutexSystem.release]
    · simp [MutexSystem.release, hut]
  · by_cases hd : d = c
    · subst hd
      simp [MutexSystem.release, h.fifo d, hl]
    · simp [MutexSystem.release, hd, h.fifo d]
  · by_cases hut : u = t
    · subst hut
      simp [MutexSystem.release] at hu
    · simpa [MutexSystem.release, hut] using hu

/-! ## The invariant -/

/-- The invariant of the system, with the lists of locked mutexes and of waiting threads. -/
structure Inv (isRecursive : M → Bool) (s : MutexSystem P M C T) (locked : T → List M)
    (cq : C → List T) : Prop where
  locks : s.LocksOk locked
  waits : s.WaitsOk
  places : s.PlacesOk
  depth : ∀ m, s.DepthAt (isRecursive m) m
  saved : s.SavedOk isRecursive
  cond : s.CondOk cq

variable {isRecursive : M → Bool}

/-- What a step can do to the place of a thread. -/
inductive Move (s s' : MutexSystem P M C T) (u : T) : Prop
  | stays (h' : s'.pc u = s.pc u)
  | blocks (m : M) (h : s.pc u = .idle) (h' : s'.pc u = .locking m)
  | waits (c : C) (m : M) (depth : ℕ) (h : s.pc u = .idle) (h' : s'.pc u = .condWaiting c m depth)
  | locked (m : M) (h : s.pc u = .locking m) (h' : s'.pc u = .idle) (hown : s'.owner m = some u)
  | relocks (c : C) (m : M) (depth : ℕ) (h : s.pc u = .condWaiting c m depth)
    (hc : s.condWait u = false) (h' : s'.pc u = .relocking c m depth)
  | returns (m : M) (depth : ℕ) (h : (s.pc u).relocks = some (m, depth)) (hc : s.condWait u = false)
    (h' : s'.pc u = .idle) (hown : s'.owner m = some u)
    (hd : s'.recursiveDepth m = (s.saved u).2) (hheld : s'.held m u = (s.saved u).1)

omit [SchedulerPriority P] [DecidableEq M] [DecidableEq C] in
/-- Only the place of one thread changes. -/
theorem Move.of_actor (hpc : ∀ u, u ≠ t → s'.pc u = s.pc u) (ht : Move s s' t) (u : T) : Move s s' u := by
  by_cases hu : u = t
  · exact hu ▸ ht
  · exact .stays (hpc u hu)

omit [DecidableEq C] in
/-- A thread in a lock loop that owns the mutex is not in its heap. -/
theorem Inv.not_waiting_of_owner (h : Inv isRecursive s locked cq) (hp : (s.pc p).locks = some m)
    (hown : s.owner m = some p) : s.mutexWaiting p = none := by
  by_contra hw
  obtain ⟨n, hn⟩ := Option.ne_none_iff_exists'.1 hw
  obtain rfl : n = m := Option.some.inj ((h.places.waits p n hn).symm.trans hp)
  obtain ⟨o, ho, hop⟩ := h.waits.owner_ne n p hn
  exact hop (Option.some.inj (ho.symm.trans hown))

omit [SchedulerPriority P] [DecidableEq C] in
/-- Only one mutex and the place of one thread change. -/
theorem depth_update (h : ∀ n, s.DepthAt (isRecursive n) n) (hm : s'.DepthAt (isRecursive m) m)
    (hown : ∀ n, n ≠ m → s'.owner n = s.owner n)
    (hd : ∀ n, n ≠ m → s'.recursiveDepth n = s.recursiveDepth n)
    (hheld : ∀ n, n ≠ m → s'.held n = s.held n) (hpc : ∀ u, u ≠ t → s'.pc u = s.pc u)
    (ht : ∀ n, n ≠ m → (s'.pc t).locks ≠ some n ∧ (s.pc t).locks ≠ some n) (n : M) :
    s'.DepthAt (isRecursive n) n := by
  by_cases hn : n = m
  · subst hn
    exact hm
  · refine (h n).congr (hown n hn) (hd n hn) (hheld n hn) fun u _ => ?_
    by_cases hut : u = t
    · subst hut
      exact iff_of_false (ht n hn).1 (ht n hn).2
    · rw [hpc u hut]

omit [SchedulerPriority P] [DecidableEq M] [DecidableEq C] in
theorem SavedOk.update (h : s.SavedOk isRecursive) (hpc : ∀ u, u ≠ t → s'.pc u = s.pc u)
    (hsaved : ∀ u, u ≠ t → s'.saved u = s.saved u)
    (hown : ∀ u n, u ≠ t → s'.owner n = some u → s.owner n = some u ∨ (s.pc u).locks ≠ none)
    (ht : ∀ m depth, (s'.pc t).relocks = some (m, depth) →
      (s'.saved t).1 = (s'.saved t).2.toNat + 1 ∧ (s'.saved t).2.toNat = depth ∧
        (if isRecursive m then 0 ≤ (s'.saved t).2 else (s'.saved t).2 = -1) ∧
        ((s'.pc t).locks = none → s'.owner m ≠ some t)) : s'.SavedOk isRecursive := by
  intro u n depth hu
  by_cases hut : u = t
  · subst hut
    exact ht n depth hu
  · rw [hpc u hut] at hu
    obtain ⟨h1, h2, h3, h4⟩ := h u n depth hu
    rw [hsaved u hut, hpc u hut]
    refine ⟨h1, h2, h3, fun hnone hn => ?_⟩
    obtain hold | hold := hown u n hut hn
    · exact h4 hnone hold
    · exact hold hnone

/-! ## Locking -/

omit [DecidableEq C] in
theorem WaitsOk.take (h : s.WaitsOk) (hfree : s.owner m = none) (t : T) :
    (s.takeOwnership m t).WaitsOk where
  queued := h.queued
  once := h.once
  owner_ne n u hu := by
    obtain ⟨o, ho, hou⟩ := h.owner_ne n u hu
    refine ⟨o, (Function.update_of_ne ?_ _ _).trans ho, hou⟩
    rintro rfl
    cases hfree.symm.trans ho
  heap := h.heap
  acyclic := by
    refine h.acyclic.mono ?_
    rintro a b ⟨n, hn, hb⟩
    obtain ⟨o, ho, -⟩ := h.owner_ne n a hn
    have hnm : n ≠ m := by
      rintro rfl
      cases hfree.symm.trans ho
    exact ⟨n, hn, (Function.update_of_ne hnm _ _).symm.trans hb⟩

omit [SchedulerPriority P] [DecidableEq C] [DecidableEq T] in
/-- What is the same after a thread has become the owner of a free mutex. -/
theorem owner_take (hfree : s.owner m = none) {v : Option T} (ho : s.owner n = some u) :
    Function.update s.owner m v n = some u := by
  rw [Function.update_of_ne, ho]
  rintro rfl
  cases hfree.symm.trans ho

omit [SchedulerPriority P] [DecidableEq C] [DecidableEq T] in
theorem owner_of_take {v : T} (hu : u ≠ v) (ho : Function.update s.owner m (some v) n = some u) :
    s.owner n = some u := by
  by_cases hn : n = m
  · subst hn
    rw [Function.update_self] at ho
    exact absurd (Option.some.inj ho).symm hu
  · rwa [Function.update_of_ne hn] at ho

omit [SchedulerPriority P] [DecidableEq C] in
theorem DepthAt.held_take (h : s.DepthAt b m) (hfree : s.owner m = none) : s.held m u = 0 :=
  h.held_eq_zero (by rw [hfree]; exact Option.some_ne_none u |>.symm)

omit [SchedulerPriority P] [DecidableEq C] in
theorem DepthAt.toNat_eq_zero (h : s.DepthAt b m)
    (hf : ∀ t, s.owner m = some t → (s.pc t).locks = some m) : (s.recursiveDepth m).toNat = 0 :=
  Int.toNat_eq_zero.2 (h.fresh hf)

omit [DecidableEq C] in
/-- A free mutex is locked. -/
theorem lockFree_inv (h : Inv isRecursive s locked cq) (hfree : s.owner m = none)
    (hp : s.pc p = .idle) :
    Inv isRecursive ((s.takeOwnership m p).setHeld m p (s.held m p + 1))
      (Function.update locked p (m :: locked p)) cq where
  locks := by
    have hl := (LocksBut.of_free h.locks hfree).takeOwnership p
    exact ⟨hl.linked, hl.nodup, hl.owned⟩
  waits := by
    have hw := h.waits.take hfree p
    exact ⟨hw.queued, hw.once, hw.owner_ne, hw.heap, hw.acyclic⟩
  places := h.places.congr (fun _ => rfl) rfl (fun _ _ _ ho => owner_take hfree ho) fun _ hw => hw
  depth := by
    have hlocks : (s.pc p).locks = none := by rw [hp]; rfl
    have hzero := (h.depth m).toNat_eq_zero fun t ht => by cases hfree.symm.trans ht
    have hd := (h.depth m).kind
    refine depth_update (t := p) h.depth (.lockedBy (t := p) ?_ ?_ (fun u => ?_) hd) ?_
      (fun _ _ => rfl) ?_ (fun _ _ => rfl) fun n _ => ⟨?_, ?_⟩
    · exact Function.update_self _ _ _
    · exact hlocks.trans_ne (Option.some_ne_none m).symm
    · simp only [setHeld, takeOwnership, Function.update_self, hzero]
      by_cases hu : u = p
      · subst hu
        rw [Function.update_self, if_pos rfl, (h.depth m).held_take hfree]
      · rw [Function.update_of_ne hu, if_neg hu, (h.depth m).held_take hfree]
    · exact fun n hn => Function.update_of_ne hn _ _
    · exact fun n hn => Function.update_of_ne hn _ _
    · exact hlocks.trans_ne (Option.some_ne_none n).symm
    · exact hlocks.trans_ne (Option.some_ne_none n).symm
  saved := h.saved.update (t := p) (fun _ _ => rfl) (fun _ _ => rfl)
    (fun u n hu ho => Or.inl (owner_of_take hu ho)) fun n d hd => by
      change (s.pc p).relocks = _ at hd
      rw [hp] at hd
      cases hd
  cond := h.cond.congr ⟨rfl, rfl, rfl, rfl, rfl, rfl⟩ fun _ _ => rfl

omit [DecidableEq C] in
/-- The owner of a recursive mutex changes the depth. -/
theorem setLevel_inv (h : Inv isRecursive s locked cq) (hown : s.owner m = some p)
    (hd : 0 ≤ s.recursiveDepth m) (hp : s.pc p = .idle) {depth : ℤ} (hdepth : 0 ≤ depth) :
    Inv isRecursive ((s.setDepth m depth).setHeld m p (depth.toNat + 1)) locked cq where
  locks := ⟨h.locks.linked, h.locks.nodup, h.locks.owned⟩
  waits := ⟨h.waits.queued, h.waits.once, h.waits.owner_ne, h.waits.heap, h.waits.acyclic⟩
  places := ⟨h.places.waits, h.places.granted, h.places.awake⟩
  depth := by
    have hlocks : (s.pc p).locks = none := by rw [hp]; rfl
    have hkind := (h.depth m).kind
    refine depth_update (t := p) h.depth (.lockedBy (t := p) hown ?_ (fun u => ?_) ?_)
      (fun _ _ => rfl) ?_ ?_ (fun _ _ => rfl) fun n _ => ⟨?_, ?_⟩
    · exact hlocks.trans_ne (Option.some_ne_none m).symm
    · simp only [setHeld, setDepth, Function.update_self]
      by_cases hu : u = p
      · subst hu
        rw [Function.update_self, if_pos rfl]
      · rw [Function.update_of_ne hu, if_neg hu, (h.depth m).held_eq_zero]
        rw [hown]
        exact fun he => hu (Option.some.inj he).symm
    · simp only [setHeld, setDepth, Function.update_self]
      split_ifs at hkind ⊢ <;> omega
    · exact fun n hn => Function.update_of_ne hn _ _
    · exact fun n hn => Function.update_of_ne hn _ _
    · exact hlocks.trans_ne (Option.some_ne_none n).symm
    · exact hlocks.trans_ne (Option.some_ne_none n).symm
  saved := h.saved
  cond := h.cond.congr ⟨rfl, rfl, rfl, rfl, rfl, rfl⟩ fun _ _ => rfl

omit [DecidableEq C] in
/-- What the owner of a mutex holds. -/
theorem held_of_owner (h : Inv isRecursive s locked cq) (hown : s.owner m = some p)
    (hp : s.pc p = .idle) : s.held m p = (s.recursiveDepth m).toNat + 1 := by
  rw [(h.depth m).held p, if_pos ⟨hown, by rw [hp]; exact (Option.some_ne_none m).symm⟩]

omit [DecidableEq C] in
/-- A thread waits in a lock loop for a mutex that has another owner. -/
theorem sleep_inv [Fintype T] (h : Inv isRecursive s locked cq) (hf : Fintype.card T ≤ fuel)
    (hown : s.owner m = some o) (hop : o ≠ p) (hno : ¬ ReflTransGen s.WaitsFor o p)
    (hp : (s.pc p).locks = none) (hc : s.condWait p = false) (pc : MutexPc M C)
    (hpc : pc.locks = some m)
    (hre : ∀ n d, pc.relocks = some (n, d) → (s.pc p).relocks = some (n, d)) :
    ∃ r, s.enterWaiting fuel m p o = .ok r ∧ r.pc = s.pc ∧ r.released = s.released ∧
      Inv isRecursive ((r.setWait p true).setPc p pc) locked cq := by
  have hnone := h.places.not_waiting hp
  obtain ⟨pr, w, hrun, hw⟩ := enterWaiting_spec h.waits hf hnone hown hop hno
  refine ⟨_, hrun, rfl, rfl, ⟨h.locks.linked, h.locks.nodup, h.locks.owned⟩,
    ⟨hw.queued, hw.once, hw.owner_ne, hw.heap, hw.acyclic⟩, ?_, fun n => ?_, ?_, ?_⟩
  · refine h.places.sleep (t := p) (m := m) ?_ (fun u hu => setPc_of_ne _ hu) rfl rfl
      fun u hu => Function.update_of_ne hu _ _
    rw [setPc_self, hpc]
  · refine (h.depth n).congr rfl rfl rfl fun u hu => ?_
    by_cases hup : u = p
    · subst hup
      have hnm : m ≠ n := by
        rintro rfl
        exact hop (Option.some.inj (hown.symm.trans hu))
      rw [setPc_self, hpc, hp]
      simp [hnm]
    · rw [setPc_of_ne _ hup]
      rfl
  · refine h.saved.update (t := p) (fun u hu => Function.update_of_ne hu _ _) (fun _ _ => rfl)
      (fun _ _ _ ho => Or.inl ho) fun n d hd => ?_
    rw [setPc_self] at hd ⊢
    obtain ⟨h1, h2, h3, -⟩ := h.saved p n d (hre n d hd)
    exact ⟨h1, h2, h3, fun hn => by cases hn.symm.trans hpc⟩
  · exact h.cond.move (t := p) ⟨rfl, rfl, rfl, rfl, rfl, rfl⟩ hc
      fun u hu => Function.update_of_ne hu _ _

omit [DecidableEq C] in
/-- A thread finds that it was given the mutex. -/
theorem lockGranted_inv (h : Inv isRecursive s locked cq) (hp : s.pc p = .locking m)
    (hown : s.owner m = some p) :
    Inv isRecursive ((s.setHeld m p (s.held m p + 1)).setPc p .idle) locked cq := by
  have hlocks : (s.pc p).locks = some m := by rw [hp]; rfl
  have hnone := h.not_waiting_of_owner hlocks hown
  have hin : ∀ t, s.owner m = some t → (s.pc t).locks = some m := fun t ht => by
    rw [← Option.some.inj (hown.symm.trans ht), hlocks]
  have hc : s.condWait p = false := h.cond.condWait_idle (by rw [hp]; rfl)
  refine ⟨⟨h.locks.linked, h.locks.nodup, h.locks.owned⟩, ⟨h.waits.queued, h.waits.once,
    h.waits.owner_ne, h.waits.heap, h.waits.acyclic⟩, ?_, ?_, ?_, ?_⟩
  · refine h.places.leave hnone (h.places.granted p m hlocks hnone).2 ?_
      (fun u hu => Function.update_of_ne hu _ _) rfl rfl rfl
    rw [setPc_self]
    rfl
  · have hzero := (h.depth m).toNat_eq_zero hin
    refine depth_update (t := p) h.depth (.lockedBy (t := p) hown ?_ (fun u => ?_) (h.depth m).kind)
      (fun _ _ => rfl) (fun _ _ => rfl) ?_ (fun u hu => Function.update_of_ne hu _ _) fun n hn => ⟨?_, ?_⟩
    · rw [setPc_self]
      exact (Option.some_ne_none m).symm
    · simp only [setPc, setHeld, Function.update_self, hzero]
      by_cases hu : u = p
      · subst hu
        rw [Function.update_self, if_pos rfl, (h.depth m).held u, if_neg fun hh => hh.2 hlocks]
      · rw [Function.update_of_ne hu, if_neg hu, (h.depth m).held u, if_neg fun hh => hh.2 (hin u hh.1)]
    · exact fun n hn => Function.update_of_ne hn _ _
    · rw [setPc_self]
      exact (Option.some_ne_none n).symm
    · rw [hlocks]
      exact fun he => hn (Option.some.inj he).symm
  · refine h.saved.update (t := p) (fun u hu => Function.update_of_ne hu _ _) (fun _ _ => rfl)
      (fun _ _ _ ho => Or.inl ho) fun n d hd => ?_
    rw [setPc_self] at hd
    cases hd
  · exact h.cond.move (t := p) ⟨rfl, rfl, rfl, rfl, rfl, rfl⟩ hc
      fun u hu => Function.update_of_ne hu _ _

/-! ## Locking again after a wait -/

omit [SchedulerPriority P] [DecidableEq C] [DecidableEq T] in
/-- The depth goes back to what it was when `wait` was called. -/
theorem restoreDepth_eq {depth : ℕ} (hkind : if b then 0 ≤ s.recursiveDepth m else s.recursiveDepth m = -1)
    (hdepth : (s.saved p).2.toNat = depth) (hs : if b then 0 ≤ (s.saved p).2 else (s.saved p).2 = -1) :
    s.restoreDepth m depth = s.setDepth m (s.saved p).2 := by
  unfold restoreDepth
  cases b with
  | true =>
    rw [if_pos rfl] at hkind hs
    rw [if_pos hkind, ← hdepth, Int.toNat_of_nonneg hs]
  | false =>
    rw [if_neg Bool.false_ne_true] at hkind hs
    rw [if_neg (by omega), hs, ← hkind, setDepth, Function.update_eq_self]

omit [SchedulerPriority P] [DecidableEq C] in
/-- `wait` returns with the mutex locked: the depths. The state `r` is that in which the thread has become
the owner. -/
theorem condReturn_depth {r : MutexSystem P M C T} (h : ∀ n, s.DepthAt (isRecursive n) n)
    (hsaved : (s.saved p).1 = (s.saved p).2.toNat + 1)
    (hkind : if isRecursive m then 0 ≤ (s.saved p).2 else (s.saved p).2 = -1)
    (hl : ∀ n, n ≠ m → (s.pc p).locks ≠ some n) (hheld : ∀ u, s.held m u = 0)
    (hown : r.owner m = some p) (hr : ∀ n, n ≠ m → r.owner n = s.owner n)
    (hd : r.recursiveDepth = s.recursiveDepth) (hh : r.held = s.held) (hs : r.saved = s.saved)
    (hpc : r.pc = s.pc) (n : M) :
    ((r.setDepth m (s.saved p).2).condReturn m p).DepthAt (isRecursive n) n := by
  have hdepth : ∀ n, n ≠ m → Function.update r.recursiveDepth m (s.saved p).2 n = s.recursiveDepth n :=
    fun n hn => by rw [Function.update_of_ne hn, hd]
  refine depth_update (t := p) h (.lockedBy (t := p) ?_ ?_ (fun u => ?_) ?_) ?_ ?_ ?_
    (fun u hu => ?_) (fun n hn => ⟨?_, hl n hn⟩) n
  · exact hown
  · rw [condReturn, setPc_self]
    exact (Option.some_ne_none m).symm
  · simp only [condReturn, setPc, setHeld, setDepth, Function.update_self, hh, hs]
    by_cases hu : u = p
    · subst hu
      rw [Function.update_self, if_pos rfl, hsaved]
    · rw [Function.update_of_ne hu, if_neg hu, hheld]
  · simp only [condReturn, setPc, setHeld, setDepth, Function.update_self]
    exact hkind
  · exact hr
  · exact hdepth
  · intro n hn
    simp only [condReturn, setPc, setHeld, setDepth, Function.update_of_ne hn, hh]
  · rw [condReturn, setPc_of_ne _ hu, ← hpc]
    rfl
  · rw [condReturn, setPc_self]
    exact (Option.some_ne_none n).symm

omit [DecidableEq C] in
/-- `wait` finds the mutex free. -/
theorem relockFree_inv {depth : ℕ} (h : Inv isRecursive s locked cq) (hfree : s.owner m = none)
    (hp : s.pc p = .condWaiting c m depth) (hc : s.condWait p = false) :
    Inv isRecursive (((s.takeOwnership m p).restoreDepth m depth).condReturn m p)
      (Function.update locked p (m :: locked p)) cq := by
  have hlocks : (s.pc p).locks = none := by rw [hp]; rfl
  obtain ⟨h1, h2, h3, -⟩ := h.saved p m depth (by rw [hp]; rfl)
  have hl := (LocksBut.of_free h.locks hfree).takeOwnership p
  have hw := h.waits.take hfree p
  have heq : (s.takeOwnership m p).restoreDepth m depth =
      (s.takeOwnership m p).setDepth m (s.saved p).2 :=
    restoreDepth_eq (p := p) (h.depth m).kind h2 h3
  rw [heq]
  refine ⟨⟨hl.linked, hl.nodup, hl.owned⟩, ⟨hw.queued, hw.once, hw.owner_ne, hw.heap, hw.acyclic⟩, ?_,
    ?_, ?_, ?_⟩
  · refine h.places.congr (fun t => ?_) rfl (fun _ _ _ ho => owner_take hfree ho) fun _ hw => hw
    by_cases ht : t = p
    · rw [ht, condReturn, setPc_self, hlocks]
      rfl
    · rw [condReturn, setPc_of_ne _ ht]
      rfl
  · exact condReturn_depth h.depth h1 h3 (fun n _ => hlocks.trans_ne (Option.some_ne_none n).symm)
      (fun u => (h.depth m).held_take hfree) (Function.update_self _ _ _)
      (fun n hn => Function.update_of_ne hn _ _) rfl rfl rfl rfl
  · refine h.saved.update (t := p) (fun u hu => setPc_of_ne _ hu) (fun _ _ => rfl)
      (fun u n hu ho => Or.inl (owner_of_take hu ho)) fun n d hd => ?_
    rw [condReturn, setPc_self] at hd
    cases hd
  · exact h.cond.move (t := p) ⟨rfl, rfl, rfl, rfl, rfl, rfl⟩ hc fun u hu => setPc_of_ne _ hu

omit [DecidableEq C] in
/-- `wait` finds that its thread was given the mutex. -/
theorem relockGranted_inv {depth : ℕ} (h : Inv isRecursive s locked cq)
    (hp : s.pc p = .relocking c m depth) (hown : s.owner m = some p) :
    Inv isRecursive ((s.restoreDepth m depth).condReturn m p) locked cq := by
  have hlocks : (s.pc p).locks = some m := by rw [hp]; rfl
  obtain ⟨h1, h2, h3, -⟩ := h.saved p m depth (by rw [hp]; rfl)
  have hnone := h.not_waiting_of_owner hlocks hown
  have hin : ∀ t, s.owner m = some t → (s.pc t).locks = some m := fun t ht => by
    rw [← Option.some.inj (hown.symm.trans ht), hlocks]
  have hc : s.condWait p = false := h.cond.condWait_idle (by rw [hp]; rfl)
  rw [restoreDepth_eq (p := p) (h.depth m).kind h2 h3]
  refine ⟨⟨h.locks.linked, h.locks.nodup, h.locks.owned⟩, ⟨h.waits.queued, h.waits.once,
    h.waits.owner_ne, h.waits.heap, h.waits.acyclic⟩, ?_, ?_, ?_, ?_⟩
  · refine h.places.leave hnone (h.places.granted p m hlocks hnone).2 ?_
      (fun u hu => setPc_of_ne _ hu) rfl rfl rfl
    rw [condReturn, setPc_self]
    rfl
  · refine condReturn_depth h.depth h1 h3 (fun n hn => ?_) (fun u => ?_) hown (fun _ _ => rfl) rfl rfl
      rfl rfl
    · rw [hlocks]
      exact fun he => hn (Option.some.inj he).symm
    · rw [(h.depth m).held u, if_neg fun hh => hh.2 (hin u hh.1)]
  · refine h.saved.update (t := p) (fun u hu => setPc_of_ne _ hu) (fun _ _ => rfl)
      (fun _ _ _ ho => Or.inl ho) fun n d hd => ?_
    rw [condReturn, setPc_self] at hd
    cases hd
  · exact h.cond.move (t := p) ⟨rfl, rfl, rfl, rfl, rfl, rfl⟩ hc fun u hu => setPc_of_ne _ hu

/-! ## Unlocking -/

omit [SchedulerPriority P] [DecidableEq C] in
theorem HandedOver.inLoop (h : HandedOver s s' m) (hplaces : s.PlacesOk)
    (ht : s'.owner m = some t) : (s.pc t).locks = some m := by
  obtain ⟨ho, -, -⟩ | ⟨u, hu, ho, -, -⟩ := h
  · rw [ho, Function.update_self] at ht
    cases ht
  · rw [ho, Function.update_self] at ht
    obtain rfl : u = t := Option.some.inj ht
    exact hplaces.waits u m hu

omit [SchedulerPriority P] [DecidableEq C] in
theorem HandedOver.owner_of_ne (h : HandedOver s s' m) (hn : n ≠ m) : s'.owner n = s.owner n := by
  obtain ⟨ho, -, -⟩ | ⟨u, -, ho, -, -⟩ := h <;> rw [ho, Function.update_of_ne hn]

/-- The fields that only the places and the depths use are the same. -/
structure SamePlaces (s s' : MutexSystem P M C T) : Prop where
  pc : s'.pc = s.pc
  held : s'.held = s.held
  depth : s'.recursiveDepth = s.recursiveDepth
  saved : s'.saved = s.saved

omit [DecidableEq C] in
/-- **The owner releases a mutex.** -/
theorem release_spec [Fintype M] (hl : s.LocksOk locked) (hw : s.WaitsOk) (hown : s.owner m = some p)
    (hp : s.mutexWaiting p = none) (hf : Fintype.card M ≤ fuel) :
    ∃ r locked', s.releaseMutex fuel m p = .ok r ∧ r.LocksOk locked' ∧ r.WaitsOk ∧
      HandedOver s r m ∧ SamePlaces s r ∧ SameCond s r := by
  obtain ⟨next, f, hlink, hnext, hrun⟩ := releaseMutex_spec hl hown hf
  have hbut := hl.removed hown hlink hnext (Function.update s.priority p
    (s.inheritedOver mutexLessOp ((locked p).erase m) (s.savedPriority p)))
  have hw₁ := hw.pkSetPriority hp (s.inheritedOver mutexLessOp ((locked p).erase m) (s.savedPriority p))
  rw [hrun]
  set s₁ : MutexSystem P M C T := { s with
    next := next
    mutexLocked := Function.update s.mutexLocked p f
    priority := Function.update s.priority p
      (s.inheritedOver mutexLessOp ((locked p).erase m) (s.savedPriority p)) } with hs₁
  have hw₂ : s₁.WaitsOk := ⟨hw₁.queued, hw₁.once, hw₁.owner_ne, hw₁.heap, hw₁.acyclic⟩
  obtain ⟨hnil, hrun'⟩ | ⟨u, l, w, hcons, hperm, hheap, -, hrun'⟩ := handOver_spec hw₂ m
  · have hnone : ∀ t, s.mutexWaiting t ≠ some m := fun t ht => by
      rw [← hw.queued, show s.waiting m = [] from hnil] at ht
      cases ht
    refine ⟨_, _, hrun', ⟨hbut.linked, hbut.nodup, fun t n => ?_⟩, ⟨hw₂.queued, hw₂.once,
      fun n t ht => ?_, hw₂.heap, hw₂.acyclic.mono ?_⟩, Or.inl ⟨rfl, rfl, rfl⟩, ⟨rfl, rfl, rfl, rfl⟩,
      ⟨rfl, rfl, rfl, rfl, rfl, rfl⟩⟩
    · rw [hbut.owned]
      by_cases hn : n = m
      · subst hn
        simp
      · simp [hn]
    · obtain ⟨o, ho, hot⟩ := hw.owner_ne n t ht
      refine ⟨o, (Function.update_of_ne ?_ _ _).trans ho, hot⟩
      rintro rfl
      exact hnone t ht
    · rintro a b ⟨n, hn, hb⟩
      have hnm : n ≠ m := by
        rintro rfl
        exact hnone a hn
      exact ⟨n, hn, (Function.update_of_ne hnm _ _).symm.trans hb⟩
  · have hu : s.mutexWaiting u = some m :=
      (hw.queued m u).1 (by rw [show s.waiting m = u :: l from hcons]; exact List.mem_cons_self)
    have hlocks := hbut.takeOwnership u
    refine ⟨_, _, hrun', ⟨?_, hlocks.nodup, hlocks.owned⟩, hw₂.granted hcons hperm hheap,
      Or.inr ⟨u, hu, rfl, rfl, rfl⟩, ⟨rfl, rfl, rfl, rfl⟩, ⟨rfl, rfl, rfl, rfl, rfl, rfl⟩⟩
    exact hlocks.linked

omit [SchedulerPriority P] [DecidableEq C] in
/-- The mutex that was released is at depth zero, or negative, and nobody holds it. -/
theorem HandedOver.depthAt (h : HandedOver s s' m) (hplaces : s.PlacesOk)
    (hpc : ∀ u, u ≠ p → s'.pc u = s.pc u) (hp : (s.pc p).locks = none)
    (hheld : ∀ u, s'.held m u = 0) (hdepth : s'.recursiveDepth m ≤ 0)
    (hkind : if b then 0 ≤ s'.recursiveDepth m else s'.recursiveDepth m = -1) : s'.DepthAt b m := by
  refine .released (fun t ht => ?_) hheld hdepth hkind
  have hin := h.inLoop hplaces ht
  have htp : t ≠ p := by
    rintro rfl
    cases hp.symm.trans hin
  rwa [hpc t htp]

omit [SchedulerPriority P] [DecidableEq C] in
theorem HandedOver.saved (h : HandedOver s s' m) (hplaces : s.PlacesOk) (hs : s.SavedOk isRecursive)
    (hpc : ∀ u, u ≠ p → s'.pc u = s.pc u) (hsaved : ∀ u, u ≠ p → s'.saved u = s.saved u)
    (ht : ∀ m depth, (s'.pc p).relocks = some (m, depth) →
      (s'.saved p).1 = (s'.saved p).2.toNat + 1 ∧ (s'.saved p).2.toNat = depth ∧
        (if isRecursive m then 0 ≤ (s'.saved p).2 else (s'.saved p).2 = -1) ∧
        ((s'.pc p).locks = none → s'.owner m ≠ some p)) : s'.SavedOk isRecursive := by
  refine hs.update hpc hsaved (fun u n _ ho => ?_) ht
  by_cases hn : n = m
  · subst hn
    exact Or.inr (by rw [h.inLoop hplaces ho]; exact Option.some_ne_none n)
  · exact Or.inl (by rwa [h.owner_of_ne hn] at ho)

omit [DecidableEq C] in
/-- **A mutex is unlocked for the last time.** -/
theorem unlock_inv [Fintype M] (h : Inv isRecursive s locked cq) (hown : s.owner m = some p)
    (hp : s.pc p = .idle) (hd : s.recursiveDepth m ≤ 0) (hf : Fintype.card M ≤ fuel) :
    ∃ r locked', s.releaseMutex fuel m p = .ok r ∧ r.pc = s.pc ∧ r.released = s.released ∧
      Inv isRecursive (r.setHeld m p (s.held m p - 1)) locked' cq := by
  have hlocks : (s.pc p).locks = none := by rw [hp]; rfl
  obtain ⟨r, locked', hrun, hl, hw, hover, hsame, hcond⟩ :=
    release_spec h.locks h.waits hown (h.places.not_waiting hlocks) hf
  have hover' : HandedOver s (r.setHeld m p (s.held m p - 1)) m := hover
  have hpc : (r.setHeld m p (s.held m p - 1)).pc = s.pc := hsame.pc
  refine ⟨r, locked', hrun, hsame.pc, hcond.released, ⟨hl.linked, hl.nodup, hl.owned⟩,
    ⟨hw.queued, hw.once, hw.owner_ne, hw.heap, hw.acyclic⟩, ?_, ?_, ?_, ?_⟩
  · exact h.places.handOver hown hlocks (fun t => by rw [hpc]) hover'
  · refine depth_update (t := p) h.depth (hover'.depthAt (p := p) h.places (fun u _ => by rw [hpc])
      hlocks (fun u => ?_) ?_ ?_) (fun n hn => hover'.owner_of_ne hn) (fun n hn => ?_) (fun n hn => ?_)
      (fun u _ => by rw [hpc]) fun n _ => ⟨?_, hlocks.trans_ne (Option.some_ne_none n).symm⟩
    · simp only [setHeld, Function.update_self]
      by_cases hu : u = p
      · subst hu
        rw [Function.update_self, held_of_owner h hown hp, Int.toNat_eq_zero.2 hd]
      · rw [Function.update_of_ne hu, hsame.held, (h.depth m).held_eq_zero]
        rw [hown]
        exact fun he => hu (Option.some.inj he).symm
    · exact (congrFun hsame.depth m).trans_le hd
    · exact (congrFun hsame.depth m).symm ▸ (h.depth m).kind
    · exact congrFun hsame.depth n
    · exact (Function.update_of_ne hn _ _).trans (congrFun hsame.held n)
    · rw [hpc]
      exact hlocks.trans_ne (Option.some_ne_none n).symm
  · refine hover'.saved (p := p) h.places h.saved (fun u _ => by rw [hpc])
      (fun u _ => congrFun hsame.saved u) fun n d hd => ?_
    rw [hpc, hp] at hd
    cases hd
  · exact h.cond.congr ⟨hcond.condNext, hcond.first, hcond.last, hcond.condWait, hcond.waited,
      hcond.released⟩ fun t _ => by rw [hpc]

omit [DecidableEq C] in
theorem pkUnlockAllDepthLevels_eq {r : MutexSystem P M C T} (hown : s.owner m = some p)
    (hrun : s.releaseMutex fuel m p = .ok r) : s.pkUnlockAllDepthLevels fuel m p =
      .ok ((r.setDepth m (min (r.recursiveDepth m) 0)).setHeld m p 0, (r.recursiveDepth m).toNat) := by
  rw [pkUnlockAllDepthLevels, if_neg (not_not.2 hown), hrun, ok_bind]
  split_ifs with hd
  · rw [min_eq_left hd.le, setDepth, Function.update_eq_self, Int.toNat_eq_zero.2 hd.le]
    rfl
  · rw [min_eq_right (not_lt.1 hd)]
    rfl

omit [SchedulerPriority P] [DecidableEq M] in
theorem LocksOk.enqueueCond (h : s.LocksOk locked) (c : C) (p : T) : (s.enqueueCond c p).LocksOk locked :=
  ⟨h.linked, h.nodup, h.owned⟩

omit [DecidableEq M] in
theorem WaitsOk.enqueueCond (h : s.WaitsOk) (c : C) (p : T) : (s.enqueueCond c p).WaitsOk :=
  ⟨h.queued, h.once, h.owner_ne, h.heap, h.acyclic⟩

theorem waitOn_eq {r : MutexSystem P M C T} (hown : s.owner m = some p)
    (hrun : (s.enqueueCond c p).releaseMutex fuel m p = .ok r) : s.waitOn fuel c m p = .ok
      { ((r.setDepth m (min (r.recursiveDepth m) 0)).setHeld m p 0).setPc p
          (.condWaiting c m (r.recursiveDepth m).toNat) with
        saved := Function.update s.saved p (s.held m p, s.recursiveDepth m) } := by
  have hown₁ : (s.enqueueCond c p).owner m = some p := hown
  rw [waitOn, pkUnlockAllDepthLevels_eq hown₁ hrun]
  rfl

/-- **The first section of `wait`.** -/
theorem waitOn_inv [Fintype M] (h : Inv isRecursive s locked cq) (hown : s.owner m = some p)
    (hp : s.pc p = .idle) (hf : Fintype.card M ≤ fuel) (c : C) :
    ∃ s' locked' depth, s.waitOn fuel c m p = .ok s' ∧ s'.pc p = .condWaiting c m depth ∧
      (∀ u, u ≠ p → s'.pc u = s.pc u) ∧ s'.released = s.released ∧
      Inv isRecursive s' locked' (Function.update cq c (cq c ++ [p])) := by
  have hlocks : (s.pc p).locks = none := by rw [hp]; rfl
  obtain ⟨r, locked', hrun, hl, hw, hover, hsame, hcond⟩ :=
    release_spec (h.locks.enqueueCond c p) (h.waits.enqueueCond c p) hown (h.places.not_waiting hlocks) hf
  have hd : r.recursiveDepth m = s.recursiveDepth m := congrFun hsame.depth m
  have hkind := (h.depth m).kind
  have hwait : s.waitOn fuel c m p = .ok
      { ((r.setDepth m (min (s.recursiveDepth m) 0)).setHeld m p 0).setPc p
          (.condWaiting c m (s.recursiveDepth m).toNat) with
        saved := Function.update s.saved p (s.held m p, s.recursiveDepth m) } := by
    rw [waitOn_eq hown hrun, hd]
  set s' : MutexSystem P M C T := { ((r.setDepth m (min (s.recursiveDepth m) 0)).setHeld m p 0).setPc p
      (.condWaiting c m (s.recursiveDepth m).toNat) with
    saved := Function.update s.saved p (s.held m p, s.recursiveDepth m) } with hs'
  have hover' : HandedOver s s' m := hover
  have hpct : s'.pc p = .condWaiting c m (s.recursiveDepth m).toNat := Function.update_self _ _ _
  have hpc : ∀ u, u ≠ p → s'.pc u = s.pc u := fun u hu =>
    (Function.update_of_ne hu _ _).trans (congrFun hsame.pc u)
  have hsaved : s'.saved p = (s.held m p, s.recursiveDepth m) := Function.update_self _ _ _
  refine ⟨s', locked', _, hwait, hpct, hpc, hcond.released, ⟨hl.linked, hl.nodup, hl.owned⟩,
    ⟨hw.queued, hw.once, hw.owner_ne, hw.heap, hw.acyclic⟩, ?_, ?_, ?_, ?_⟩
  · refine h.places.handOver hown hlocks (fun t => ?_) hover'
    by_cases ht : t = p
    · rw [ht, hpct, hlocks]
      rfl
    · rw [hpc t ht]
  · have hlocks' : (s'.pc p).locks = none := by rw [hpct]; rfl
    have hd' : s'.recursiveDepth m = min (s.recursiveDepth m) 0 := Function.update_self _ _ _
    refine depth_update (t := p) h.depth (hover'.depthAt (p := p) h.places hpc hlocks (fun u => ?_) ?_ ?_)
      (fun n hn => hover'.owner_of_ne hn) (fun n hn => ?_) (fun n hn => ?_) hpc fun n _ =>
        ⟨hlocks'.trans_ne (Option.some_ne_none n).symm, hlocks.trans_ne (Option.some_ne_none n).symm⟩
    · simp only [hs', setPc, setHeld, setDepth, Function.update_self]
      by_cases hu : u = p
      · rw [hu, Function.update_self]
      · rw [Function.update_of_ne hu]
        refine (congrFun (congrFun hsame.held m) u).trans ((h.depth m).held_eq_zero ?_)
        rw [hown]
        exact fun he => hu (Option.some.inj he).symm
    · rw [hd']
      exact min_le_right _ _
    · rw [hd']
      split_ifs at hkind ⊢ <;> omega
    · exact (Function.update_of_ne hn _ _).trans (congrFun hsame.depth n)
    · exact (Function.update_of_ne hn _ _).trans (congrFun hsame.held n)
  · refine hover'.saved (p := p) h.places h.saved hpc (fun u hu => Function.update_of_ne hu _ _)
      fun n d hre => ?_
    rw [hpct] at hre
    obtain ⟨rfl, rfl⟩ : m = n ∧ (s.recursiveDepth m).toNat = d := by
      simpa [MutexPc.relocks] using hre
    rw [hsaved]
    refine ⟨held_of_owner h hown hp, rfl, hkind, fun _ ho => ?_⟩
    exact Option.some_ne_none m ((hover'.inLoop h.places ho).symm.trans hlocks)
  · have hq : (s.pc p).queuedOn = none := by rw [hp]; rfl
    refine h.cond.wait hq ⟨hcond.condNext, hcond.first, hcond.last, hcond.condWait, hcond.waited,
      hcond.released⟩ ?_ hpc
    rw [hpct]
    rfl

/-! ## The other sections -/

/-- The fields after a thread has set its priority: a priority that is not valid changes nothing, nor does
the one that was saved. -/
inductive PrioritySet (s : MutexSystem P M C T) (p : T) (pr : P) (l : List M) : P → (T → P) → (T → P) → Prop
  | invalid (h : SchedulerPriority.validate pr = false) :
    PrioritySet s p pr l (s.priority p) s.savedPriority s.lastSet
  | free (h : l = []) :
    PrioritySet s p pr l pr s.savedPriority (Function.update s.lastSet p pr)
  | same (h : l ≠ []) (hs : s.savedPriority p = pr) :
    PrioritySet s p pr l (s.priority p) s.savedPriority (Function.update s.lastSet p pr)
  | changed (h : l ≠ []) :
    PrioritySet s p pr l (s.inheritedOver SchedulerPriority.less l pr) (Function.update s.savedPriority p pr)
      (Function.update s.lastSet p pr)

omit [DecidableEq M] [DecidableEq C] in
theorem setPriority_spec {l : List M} (hl : Linked s.next (s.mutexLocked p) l) (hf : l.length ≤ fuel)
    (pr : P) : ∃ pr' saved set, PrioritySet s p pr l pr' saved set ∧ s.setPriority fuel p pr =
      .ok { s.pkSetPriority p pr' with savedPriority := saved, lastSet := set } := by
  simp only [setPriority, changePriority_eq, pure_eq_ok]
  split_ifs with hv hm hsame
  · refine ⟨_, _, _, .invalid hv, ?_⟩
    rw [MutexSystem.pkSetPriority, Function.update_eq_self]
  · exact ⟨_, _, _, .free (hl.eq_nil_iff.2 hm), rfl⟩
  · refine ⟨_, _, _, .same (fun h => hm (hl.eq_nil_iff.1 h)) hsame, ?_⟩
    rw [MutexSystem.pkSetPriority, Function.update_eq_self]
  · refine ⟨_, _, _, .changed fun h => hm (hl.eq_nil_iff.1 h), ?_⟩
    rw [inheritedPriority_spec (s := { s with
      savedPriority := Function.update s.savedPriority p pr
      lastSet := Function.update s.lastSet p pr }) _ fuel pr hl hf]
    rfl

omit [DecidableEq C] in
theorem setPriority_inv (h : Inv isRecursive s locked cq) (hp : s.pc p = .idle) (pr : P)
    (saved set : T → P) : Inv isRecursive
      { s.pkSetPriority p pr with savedPriority := saved, lastSet := set } locked cq := by
  have hw := h.waits.pkSetPriority (h.places.not_waiting (by rw [hp]; rfl)) pr
  exact ⟨⟨h.locks.linked, h.locks.nodup, h.locks.owned⟩, ⟨hw.queued, hw.once, hw.owner_ne, hw.heap,
    hw.acyclic⟩, ⟨h.places.waits, h.places.granted, h.places.awake⟩,
    fun m => ⟨(h.depth m).kind, (h.depth m).held, (h.depth m).fresh⟩, h.saved,
    ⟨h.cond.queue, h.cond.mem, h.cond.fifo, h.cond.flag⟩⟩

theorem release_inv {l : List T} (h : Inv isRecursive s locked cq) (hl : cq c = t :: l) :
    Inv isRecursive (s.release c t) locked (Function.update cq c l) :=
  ⟨⟨h.locks.linked, h.locks.nodup, h.locks.owned⟩, ⟨h.waits.queued, h.waits.once, h.waits.owner_ne,
    h.waits.heap, h.waits.acyclic⟩, ⟨h.places.waits, h.places.granted, h.places.awake⟩,
    fun m => ⟨(h.depth m).kind, (h.depth m).held, (h.depth m).fresh⟩, h.saved, h.cond.release hl⟩

omit [DecidableEq C] in
theorem wakeup_inv (h : Inv isRecursive s locked cq) (t : T) :
    Inv isRecursive (s.setWait t false) locked cq := by
  refine ⟨⟨h.locks.linked, h.locks.nodup, h.locks.owned⟩, ⟨h.waits.queued, h.waits.once,
    h.waits.owner_ne, h.waits.heap, h.waits.acyclic⟩, ?_,
    fun m => ⟨(h.depth m).kind, (h.depth m).held, (h.depth m).fresh⟩, h.saved,
    ⟨h.cond.queue, h.cond.mem, h.cond.fifo, h.cond.flag⟩⟩
  refine h.places.congr (fun _ => rfl) rfl (fun _ _ _ ho => ho) fun u hu => ?_
  by_cases hut : u = t
  · rw [hut]
    exact Function.update_self _ _ _
  · exact (Function.update_of_ne hut _ _).trans hu

omit [DecidableEq C] in
/-- A thread that was woken for another reason goes on waiting. -/
theorem waitAgain_inv (h : Inv isRecursive s locked cq) (hp : (s.pc p).locks = some m)
    (hown : s.owner m ≠ some p) : Inv isRecursive (s.setWait p true) locked cq := by
  have hw : s.mutexWaiting p ≠ none := fun hn => hown (h.places.granted p m hp hn).1
  refine ⟨⟨h.locks.linked, h.locks.nodup, h.locks.owned⟩, ⟨h.waits.queued, h.waits.once,
    h.waits.owner_ne, h.waits.heap, h.waits.acyclic⟩, ⟨h.places.waits, fun u n hu hnone => ?_,
    fun u hu => ?_⟩, fun m => ⟨(h.depth m).kind, (h.depth m).held, (h.depth m).fresh⟩, h.saved,
    ⟨h.cond.queue, h.cond.mem, h.cond.fifo, h.cond.flag⟩⟩
  · have hup : u ≠ p := by
      rintro rfl
      exact hw hnone
    obtain ⟨h1, h2⟩ := h.places.granted u n hu hnone
    exact ⟨h1, (Function.update_of_ne hup _ _).trans h2⟩
  · have hup : u ≠ p := by
      rintro rfl
      cases hp.symm.trans hu
    exact (Function.update_of_ne hup _ _).trans (h.places.awake u hu)

/-- A signal releases the first thread of the list, if any, and no other one. -/
theorem signal_inv (h : Inv isRecursive s locked cq) (c : C) (cur : T) :
    Inv isRecursive (s.signal c cur).1 locked (Function.update cq c (cq c).tail) ∧
      (s.signal c cur).1.released = Function.update s.released c (s.released c ++ (cq c).take 1) ∧
      ∀ t, (s.signal c cur).1.condWait t = (s.condWait t && decide (t ∉ (cq c).take 1)) := by
  have hlink := (h.cond.queue c).linked
  unfold signal
  cases hl : cq c with
  | nil =>
    rw [hl] at hlink
    rw [show s.first c = none from hlink, List.tail_nil, ← hl, Function.update_eq_self, hl]
    simp [h]
  | cons t l =>
    rw [hl] at hlink
    rw [hlink.1]
    refine ⟨release_inv h hl, by simp [release], fun u => ?_⟩
    by_cases hu : u = t
    · subst hu
      simp [release]
    · simp [release, hu]

omit [DecidableEq M] in
/-- A broadcast changes only the condition wait flags, the first nodes and the history of the releases. -/
theorem broadcast_frame {cur : T} {hppw : Bool} {r : MutexSystem P M C T × Bool}
    (h : broadcast c cur fuel s hppw = .ok r) :
    ∃ cw f rel, r.1 = { s with condWait := cw, first := f, released := rel } := by
  induction fuel generalizing s hppw with
  | zero => cases h
  | succ fuel ih =>
    rw [broadcast] at h
    cases hf : s.first c with
    | none =>
      rw [hf] at h
      cases h
      exact ⟨_, _, _, rfl⟩
    | some t =>
      rw [hf] at h
      obtain ⟨cw, f, rel, heq⟩ := ih h
      exact ⟨cw, f, rel, heq⟩

/-- **A broadcast** returns, and releases the threads of the list and no other one. -/
theorem broadcast_inv (c : C) (cur : T) : ∀ (fuel : ℕ) {s : MutexSystem P M C T} {cq : C → List T}
    (hppw : Bool), Inv isRecursive s locked cq → (cq c).length < fuel →
    ∃ s' b, broadcast c cur fuel s hppw = .ok (s', b) ∧ s'.pc = s.pc ∧
      Inv isRecursive s' locked (Function.update cq c []) ∧
      s'.released = Function.update s.released c (s.released c ++ cq c) ∧
      ∀ t, s'.condWait t = (s.condWait t && decide (t ∉ cq c))
  | 0, _, _, _, _, hf => absurd hf (Nat.not_lt_zero _)
  | fuel + 1, s, cq, hppw, h, hf => by
    have hlink := (h.cond.queue c).linked
    rw [broadcast]
    cases hl : cq c with
    | nil =>
      rw [hl] at hlink
      rw [show s.first c = none from hlink]
      refine ⟨s, hppw, rfl, rfl, ?_, by simp, by simp⟩
      rwa [← hl, Function.update_eq_self]
    | cons t l =>
      rw [hl] at hlink hf
      rw [hlink.1]
      have hlen : (Function.update cq c l c).length < fuel := by
        rw [Function.update_self]
        simpa using hf
      obtain ⟨s', b, hrun, hpc, hinv, hrel, hw⟩ := broadcast_inv c cur fuel
        (hppw || SchedulerPriority.less (s.priority cur) (s.priority t)) (release_inv h hl) hlen
      rw [Function.update_self] at hrel hw
      refine ⟨s', b, hrun, hpc, ?_, ?_, fun u => ?_⟩
      · rwa [Function.update_idem] at hinv
      · rw [hrel]
        simp [release]
      · rw [hw]
        by_cases hu : u = t
        · subst hu
          simp [release]
        · simp [release, hu]

/-! ## Steps -/

/-- The event makes a thread lock a mutex, or lock it again after a wait. -/
def Locks (s : MutexSystem P M C T) : Event P M C T → T → M → Prop
  | .lock t m, u, n => s.pc t = .idle ∧ t = u ∧ m = n
  | .resume t, u, n => t = u ∧ ∃ c depth, s.pc t = .condWaiting c n depth ∧
      s.wait t = false ∧ s.condWait t = false
  | _, _, _ => False

/-- The event makes a thread wait for itself: it locks a mutex whose owner waits for it. -/
def ClosesCycle (s : MutexSystem P M C T) (e : Event P M C T) : Prop :=
  ∃ t m o, s.Locks e t m ∧ s.owner m = some o ∧ o ≠ t ∧ ReflTransGen s.WaitsFor o t

omit [DecidableEq M] in
theorem signal_pc (s : MutexSystem P M C T) (c : C) (cur : T) : (s.signal c cur).1.pc = s.pc := by
  unfold signal
  cases s.first c <;> rfl

omit [DecidableEq C] in
theorem pkLock_ok [Fintype T] (h : Inv isRecursive s locked cq) (hf : Fintype.card T ≤ fuel)
    (hp : s.pc p = .idle)
    (hno : ∀ o, s.owner m = some o → o ≠ p → ¬ ReflTransGen s.WaitsFor o p) :
    s.pkLock fuel m p = .error .deadlock ∧ s.owner m = some p ∧ isRecursive m = false ∨
      ∃ s' locked', s.pkLock fuel m p = .ok s' ∧ Inv isRecursive s' locked' cq ∧
        s'.released = s.released ∧
        (∀ u, u ≠ p → s'.pc u = s.pc u) ∧
        (s'.pc p = .idle ∧ s'.owner m = some p ∨ s'.pc p = .locking m) := by
  unfold pkLock
  cases hown : s.owner m with
  | none => exact Or.inr ⟨_, _, rfl, lockFree_inv h hown hp, rfl, fun _ _ => rfl,
      Or.inl ⟨hp, Function.update_self _ _ _⟩⟩
  | some o =>
    dsimp only
    by_cases hop : o = p
    · subst hop
      rw [if_pos rfl]
      split_ifs with hd
      · refine Or.inr ⟨_, locked, rfl, ?_, rfl, fun _ _ => rfl, Or.inl ⟨hp, hown⟩⟩
        have hheld : s.held m o + 1 = (s.recursiveDepth m + 1).toNat + 1 := by
          rw [held_of_owner h hown hp]
          omega
        rw [hheld]
        exact setLevel_inv h hown hd hp (by omega)
      · refine Or.inl ⟨rfl, rfl, Bool.eq_false_iff.2 fun hrec => hd ?_⟩
        have hkind := (h.depth m).kind
        rwa [if_pos hrec] at hkind
    · have hlocks : (s.pc p).locks = none := by rw [hp]; rfl
      have hc : s.condWait p = false := h.cond.condWait_idle (by rw [hp]; rfl)
      obtain ⟨r, hrun, hpc, hrel, hinv⟩ := sleep_inv h hf hown hop (hno o hown hop) hlocks hc (.locking m)
        rfl fun n d hd => by cases hd
      rw [if_neg hop, hrun]
      refine Or.inr ⟨_, locked, rfl, hinv, hrel, fun u hu => ?_, Or.inr (setPc_self _ _ _)⟩
      exact (setPc_of_ne _ hu).trans (congrFun hpc u)

omit [DecidableEq C] in
theorem pkLockToDepth_ok [Fintype T] {depth : ℕ} (h : Inv isRecursive s locked cq)
    (hf : Fintype.card T ≤ fuel) (hp : s.pc p = .condWaiting c m depth) (hc : s.condWait p = false)
    (hno : ∀ o, s.owner m = some o → o ≠ p → ¬ ReflTransGen s.WaitsFor o p) :
    ∃ s' locked', s.pkLockToDepth fuel c m p depth = .ok s' ∧ Inv isRecursive s' locked' cq ∧
      s'.released = s.released ∧ ∀ u, Move s s' u := by
  have hlocks : (s.pc p).locks = none := by rw [hp]; rfl
  have hre : (s.pc p).relocks = some (m, depth) := by rw [hp]; rfl
  obtain ⟨-, h2, h3, h4⟩ := h.saved p m depth hre
  unfold pkLockToDepth
  cases hown : s.owner m with
  | none =>
    have heq : (s.takeOwnership m p).restoreDepth m depth =
        (s.takeOwnership m p).setDepth m (s.saved p).2 :=
      restoreDepth_eq (p := p) (h.depth m).kind h2 h3
    refine ⟨_, _, rfl, relockFree_inv h hown hp hc, ?_, Move.of_actor (fun u hu => ?_)
      (.returns m depth hre hc (setPc_self _ _ _) ?_ ?_ ?_)⟩
    all_goals rw [heq]
    · rfl
    · exact setPc_of_ne _ hu
    · exact Function.update_self _ _ _
    · exact Function.update_self _ _ _
    · simp [condReturn, setPc, setHeld, setDepth, takeOwnership]
  | some o =>
    dsimp only
    have hop : o ≠ p := by
      rintro rfl
      exact h4 hlocks hown
    obtain ⟨r, hrun, hpc, hrel, hinv⟩ := sleep_inv h hf hown hop (hno o hown hop) hlocks hc
      (.relocking c m depth) rfl fun n d hd => by rw [hp]; exact hd
    rw [if_neg hop, hrun]
    refine ⟨_, locked, rfl, hinv, hrel, Move.of_actor (fun u hu => ?_)
      (.relocks c m depth hp hc (setPc_self _ _ _))⟩
    exact (setPc_of_ne _ hu).trans (congrFun hpc u)

omit [DecidableEq C] in
theorem pkTryLock_inv (h : Inv isRecursive s locked cq) (hp : s.pc p = .idle) (m : M) :
    (s.pkTryLock m p).1.pc = s.pc ∧ (s.pkTryLock m p).1.released = s.released ∧
      ∃ locked', Inv isRecursive (s.pkTryLock m p).1 locked' cq := by
  unfold pkTryLock
  cases hown : s.owner m with
  | none => exact ⟨rfl, rfl, _, lockFree_inv h hown hp⟩
  | some o =>
    dsimp only
    by_cases hop : o = p ∧ 0 ≤ s.recursiveDepth m
    · obtain ⟨rfl, hd⟩ := hop
      have hheld : s.held m o + 1 = (s.recursiveDepth m + 1).toNat + 1 := by
        rw [held_of_owner h hown hp]
        omega
      rw [if_pos ⟨rfl, hd⟩, hheld]
      exact ⟨rfl, rfl, locked, setLevel_inv h hown hd hp (by omega)⟩
    · rw [if_neg hop]
      exact ⟨rfl, rfl, locked, h⟩

omit [DecidableEq C] in
theorem pkUnlock_ok [Fintype M] (h : Inv isRecursive s locked cq) (hf : Fintype.card M ≤ fuel)
    (hp : s.pc p = .idle) (m : M) :
    ∃ s' b locked', s.pkUnlock fuel m p = .ok (s', b) ∧ s'.pc = s.pc ∧ s'.released = s.released ∧
      Inv isRecursive s' locked' cq := by
  unfold pkUnlock
  split_ifs with hown hd
  · exact ⟨s, false, locked, rfl, rfl, rfl, h⟩
  · rw [not_not] at hown
    refine ⟨_, _, locked, rfl, rfl, rfl, ?_⟩
    have hheld : s.held m p - 1 = (s.recursiveDepth m - 1).toNat + 1 := by
      rw [held_of_owner h hown hp]
      omega
    rw [hheld]
    exact setLevel_inv h hown hd.le hp (by omega)
  · rw [not_not] at hown
    obtain ⟨r, locked', hrun, hpc, hrel, hinv⟩ := unlock_inv h hown hp (not_lt.1 hd) hf
    rw [hrun]
    exact ⟨_, _, locked', rfl, hpc, hrel, hinv⟩

omit [DecidableEq C] in
/-- The next section of a suspended thread that is not waiting any more. -/
theorem resume_ok [Fintype T] (h : Inv isRecursive s locked cq) (hf : Fintype.card T ≤ fuel)
    (hwait : s.wait t = false) (hcond : s.condWait t = false)
    (hno : ¬ s.ClosesCycle (.resume t)) :
    ∃ s' locked', s.resume fuel t = .ok s' ∧ Inv isRecursive s' locked' cq ∧
      s'.released = s.released ∧ ∀ u, Move s s' u := by
  unfold resume
  cases hp : s.pc t with
  | idle => exact ⟨s, locked, rfl, h, rfl, fun u => .stays rfl⟩
  | locking m =>
    by_cases hown : s.owner m = some t
    · refine ⟨_, locked, if_pos hown, lockGranted_inv h hp hown, rfl, Move.of_actor (fun u hu => ?_)
        (.locked m hp (setPc_self _ _ _) hown)⟩
      exact setPc_of_ne _ hu
    · exact ⟨_, locked, if_neg hown, waitAgain_inv h (by rw [hp]; rfl) hown, rfl, fun u => .stays rfl⟩
  | condWaiting c m depth =>
    exact pkLockToDepth_ok h hf hp hcond fun o ho hot hr =>
      hno ⟨t, m, o, ⟨rfl, c, depth, hp, hwait, hcond⟩, ho, hot, hr⟩
  | relocking c m depth =>
    by_cases hown : s.owner m = some t
    · have hre : (s.pc t).relocks = some (m, depth) := by rw [hp]; rfl
      obtain ⟨-, h2, h3, -⟩ := h.saved t m depth hre
      have heq := restoreDepth_eq (p := t) (h.depth m).kind h2 h3
      refine ⟨_, locked, if_pos hown, relockGranted_inv h hp hown, ?_, Move.of_actor (fun u hu => ?_)
        (.returns m depth hre hcond (setPc_self _ _ _) ?_ ?_ ?_)⟩
      all_goals rw [heq]
      · rfl
      · exact setPc_of_ne _ hu
      · exact hown
      · exact Function.update_self _ _ _
      · simp [condReturn, setPc, setHeld, setDepth]
    · exact ⟨_, locked, if_neg hown, waitAgain_inv h (by rw [hp]; rfl) hown, rfl, fun u => .stays rfl⟩

/-- The lists of the condition variables after a step. -/
def queuesAfter (s : MutexSystem P M C T) (cq : C → List T) : Event P M C T → C → List T
  | .wait t c m =>
    if s.pc t = .idle ∧ s.owner m = some t then Function.update cq c (cq c ++ [t]) else cq
  | .signal t c => if s.pc t = .idle then Function.update cq c (cq c).tail else cq
  | .broadcast t c => if s.pc t = .idle then Function.update cq c [] else cq
  | _ => cq

/-- The threads that were released after a step: a signal releases the first thread of the list, and a
broadcast all of them. -/
def releasedAfter (s : MutexSystem P M C T) (cq : C → List T) : Event P M C T → C → List T
  | .signal t c =>
    if s.pc t = .idle then Function.update s.released c (s.released c ++ (cq c).take 1) else s.released
  | .broadcast t c =>
    if s.pc t = .idle then Function.update s.released c (s.released c ++ cq c) else s.released
  | _ => s.released

/-- The event makes a thread lock a mutex that it already owns and that is not recursive. -/
def LocksAgain (isRecursive : M → Bool) (s : MutexSystem P M C T) : Event P M C T → Prop
  | .lock t m => s.pc t = .idle ∧ s.owner m = some t ∧ isRecursive m = false
  | _ => False

/-- What a step leaves. -/
structure Stepped (isRecursive : M → Bool) (s : MutexSystem P M C T) (cq : C → List T)
    (e : Event P M C T) (s' : MutexSystem P M C T) (locked' : T → List M) : Prop where
  inv : Inv isRecursive s' locked' (s.queuesAfter cq e)
  released : s'.released = s.releasedAfter cq e
  move : ∀ u, Move s s' u

/-- A step that does nothing. -/
theorem Stepped.same {e : Event P M C T} (h : Inv isRecursive s locked cq)
    (hq : s.queuesAfter cq e = cq) (hr : s.releasedAfter cq e = s.released) :
    Stepped isRecursive s cq e s locked :=
  ⟨hq.symm ▸ h, hr.symm, fun _ => .stays rfl⟩

/-- **One step.** A step that closes no cycle keeps the invariant, or locks a mutex again and is reported as a
deadlock. -/
theorem step_ok [Fintype T] [Fintype M] (h : Inv isRecursive s locked cq) (hT : Fintype.card T < fuel)
    (hM : Fintype.card M < fuel) (e : Event P M C T) (hno : ¬ s.ClosesCycle e) :
    s.step fuel e = .error .deadlock ∧ s.LocksAgain isRecursive e ∨
      ∃ s' locked', s.step fuel e = .ok s' ∧ Stepped isRecursive s cq e s' locked' := by
  cases e with
  | lock t m =>
    by_cases hp : s.pc t = .idle
    · simp only [step, if_pos hp]
      obtain ⟨hd, hown, hrec⟩ | ⟨s', locked', hs, hinv, hrel, hpc, hpct⟩ := pkLock_ok h hT.le hp
        fun o ho hot hr => hno ⟨t, m, o, ⟨hp, rfl, rfl⟩, ho, hot, hr⟩
      · exact Or.inl ⟨hd, hp, hown, hrec⟩
      · refine Or.inr ⟨s', locked', hs, hinv, hrel, Move.of_actor hpc ?_⟩
        obtain ⟨hidle, -⟩ | hlocking := hpct
        · exact .stays (hidle.trans hp.symm)
        · exact .blocks m hp hlocking
    · exact Or.inr ⟨s, locked, if_neg hp, .same h rfl rfl⟩
  | tryLock t m =>
    by_cases hp : s.pc t = .idle
    · obtain ⟨hpc, hrel, locked', hinv⟩ := pkTryLock_inv h hp m
      exact Or.inr ⟨_, locked', if_pos hp, hinv, hrel, fun u => .stays (congrFun hpc u)⟩
    · exact Or.inr ⟨s, locked, if_neg hp, .same h rfl rfl⟩
  | unlock t m =>
    by_cases hp : s.pc t = .idle
    · obtain ⟨s', b, locked', hs, hpc, hrel, hinv⟩ := pkUnlock_ok h hM.le hp m
      refine Or.inr ⟨s', locked', ?_, hinv, hrel, fun u => .stays (congrFun hpc u)⟩
      simp only [step, if_pos hp, hs]
      rfl
    · exact Or.inr ⟨s, locked, if_neg hp, .same h rfl rfl⟩
  | setPriority t pr =>
    by_cases hp : s.pc t = .idle
    · obtain ⟨pr', saved, set, -, hs⟩ := setPriority_spec (h.locks.linked t)
        ((h.locks.length_le t).trans hM.le) pr
      exact Or.inr ⟨_, locked, (if_pos hp).trans hs, setPriority_inv h hp _ _ _, rfl,
        fun u => .stays rfl⟩
    · exact Or.inr ⟨s, locked, if_neg hp, .same h rfl rfl⟩
  | wait t c m =>
    by_cases hp : s.pc t = .idle ∧ s.owner m = some t
    · obtain ⟨s', locked', depth, hs, hpct, hpc, hrel, hinv⟩ := waitOn_inv h hp.2 hp.1 hM.le c
      refine Or.inr ⟨s', locked', (if_pos hp).trans hs, ?_, hrel,
        Move.of_actor hpc (.waits c m depth hp.1 hpct)⟩
      rwa [queuesAfter, if_pos hp]
    · exact Or.inr ⟨s, locked, if_neg hp, .same h (if_neg hp) rfl⟩
  | signal t c =>
    by_cases hp : s.pc t = .idle
    · obtain ⟨hinv, hrel, -⟩ := signal_inv h c t
      refine Or.inr ⟨_, locked, if_pos hp, ?_, ?_, fun u => .stays (congrFun (signal_pc s c t) u)⟩
      · rwa [queuesAfter, if_pos hp]
      · rwa [releasedAfter, if_pos hp]
    · exact Or.inr ⟨s, locked, if_neg hp, .same h (if_neg hp) (if_neg hp)⟩
  | broadcast t c =>
    by_cases hp : s.pc t = .idle
    · obtain ⟨s', b, hs, hpc, hinv, hrel, -⟩ := broadcast_inv c t fuel false h
        ((h.cond.queue c).nodup.length_le_card.trans_lt hT)
      refine Or.inr ⟨s', locked, ?_, ?_, ?_, fun u => .stays (congrFun hpc u)⟩
      · simp only [step, if_pos hp, hs]
        rfl
      · rwa [queuesAfter, if_pos hp]
      · rwa [releasedAfter, if_pos hp]
    · exact Or.inr ⟨s, locked, if_neg hp, .same h (if_neg hp) (if_neg hp)⟩
  | resume t =>
    by_cases hw : (s.wait t || s.condWait t) = true
    · exact Or.inr ⟨s, locked, if_pos hw, .same h rfl rfl⟩
    · obtain ⟨hwait, hcond⟩ : s.wait t = false ∧ s.condWait t = false := by simpa using hw
      obtain ⟨s', locked', hs, hinv, hrel, hmove⟩ := resume_ok h hT.le hwait hcond hno
      exact Or.inr ⟨s', locked', (if_neg hw).trans hs, hinv, hrel, hmove⟩
  | wakeup t => exact Or.inr ⟨_, locked, rfl, wakeup_inv h t, rfl, fun u => .stays rfl⟩

/-! ## Runs -/

/-- No step of the run closes a cycle. -/
def NoCycle (fuel : ℕ) : MutexSystem P M C T → List (Event P M C T) → Prop
  | _, [] => True
  | s, e :: events => ¬ s.ClosesCycle e ∧ ∀ s', s.step fuel e = .ok s' → NoCycle fuel s' events

/-- Some step of the run locks a mutex again. -/
def RunLocksAgain (isRecursive : M → Bool) (fuel : ℕ) (s : MutexSystem P M C T) (events : List (Event P M C T)) :
    Prop :=
  ∃ before e after s', events = before ++ e :: after ∧ run fuel s before = .ok s' ∧ s'.LocksAgain isRecursive e

theorem RunLocksAgain.cons {e : Event P M C T} {events : List (Event P M C T)} (hs : s.step fuel e = .ok s')
    (h : RunLocksAgain isRecursive fuel s' events) : RunLocksAgain isRecursive fuel s (e :: events) := by
  obtain ⟨before, e', after, s₁, rfl, hrun, hagain⟩ := h
  refine ⟨e :: before, e', after, s₁, rfl, ?_, hagain⟩
  rw [run, hs, ok_bind]
  exact hrun

/-- **Every run** that closes no cycle keeps the invariant, or ends when it locks a mutex again. -/
theorem run_ok [Fintype T] [Fintype M] (hT : Fintype.card T < fuel) (hM : Fintype.card M < fuel) :
    ∀ (events : List (Event P M C T)) {s : MutexSystem P M C T} {locked : T → List M}
      {cq : C → List T}, Inv isRecursive s locked cq → NoCycle fuel s events →
      run fuel s events = .error .deadlock ∧ RunLocksAgain isRecursive fuel s events ∨
        ∃ s' locked' cq', run fuel s events = .ok s' ∧ Inv isRecursive s' locked' cq'
  | [], s, locked, cq, h, _ => Or.inr ⟨s, locked, cq, rfl, h⟩
  | e :: events, s, locked, cq, h, hno => by
    obtain ⟨hd, hagain⟩ | ⟨s₁, locked₁, hs, hstep⟩ := step_ok h hT hM e hno.1
    · exact Or.inl ⟨by rw [run, hd]; rfl, [], e, events, s, rfl, rfl, hagain⟩
    · rw [run, hs, ok_bind]
      exact (run_ok hT hM events hstep.inv (hno.2 s₁ hs)).imp_left (.imp_right (.cons hs))

omit [DecidableEq C] in
theorem init_inv (isRecursive : M → Bool) (priority savedPriority : T → P) (next : M → Option M)
    (last : C → Option T) (condNext : T → Option T) (saved : T → ℕ × ℤ) :
    Inv isRecursive (init isRecursive priority savedPriority next last condNext saved) (fun _ => [])
      fun _ => [] where
  locks := ⟨fun _ => rfl, fun _ => List.nodup_nil, fun t m => by simp [init]⟩
  waits := by
    refine ⟨fun m t => by simp [init], fun m => List.nodup_nil, fun m t ht => (by cases ht),
      fun m => isHeap_nil, ?_⟩
    intro a ha
    obtain ⟨b, ⟨m, hm, -⟩, -⟩ := TransGen.head'_iff.1 ha
    cases hm
  places := ⟨fun t m ht => (by cases ht), fun t m ht => (by cases ht), fun _ _ => rfl⟩
  depth m := by
    refine ⟨?_, fun t => by simp [init], fun _ => ?_⟩
    · cases hm : isRecursive m <;> simp [init, hm]
    · cases hm : isRecursive m <;> simp [init, hm]
  saved t m depth ht := by cases ht
  cond := ⟨fun c => LinkedQueue.nil _ _, fun c t => (by simp [init, MutexPc.queuedOn]), fun c => rfl,
    fun t ht => (by cases ht)⟩

/-! ## One mutex -/

section OneMutex

variable {s : MutexSystem P Unit C T} {locked : T → List Unit} {isRecursive : Unit → Bool}

omit [DecidableEq C] [DecidableEq T] in
/-- The owner of the only mutex does not wait. -/
theorem WaitsOk.eq_of_owner (h : s.WaitsOk) (ho : s.owner () = some o)
    (hr : ReflTransGen s.WaitsFor o t) : o = t := by
  obtain rfl | ⟨u, ⟨_, hw, -⟩, -⟩ := hr.cases_head
  · rfl
  · obtain ⟨v, hv, hne⟩ := h.owner_ne () o hw
    exact absurd (Option.some.inj (hv.symm.trans ho)) hne

omit [DecidableEq C] [DecidableEq T] in
theorem not_closesCycle (h : s.WaitsOk) (e : Event P Unit C T) : ¬ s.ClosesCycle e := by
  rintro ⟨t, m, o, -, ho, hne, hr⟩
  exact hne (h.eq_of_owner ho hr)

theorem noCycle [Fintype T] (hT : Fintype.card T < fuel) (hM : 1 < fuel)
    (events : List (Event P Unit C T)) (h : Inv isRecursive s locked cq) : NoCycle fuel s events := by
  induction events generalizing s locked cq with
  | nil => trivial
  | cons e events ih =>
    refine ⟨not_closesCycle h.waits e, fun s' hs => ?_⟩
    obtain ⟨hd, -⟩ | ⟨s₁, locked₁, hs₁, hstep⟩ :=
      step_ok h hT (by rwa [Fintype.card_unit]) e (not_closesCycle h.waits e)
    · cases hd.symm.trans hs
    · cases hs₁.symm.trans hs
      exact ih hstep.inv

end OneMutex

end MutexSystem

end Miosix
