import MiosixKernel.Sync.MutexSteps

/-!
# Mutexes with priority inheritance: the walk along the owners

The loop of priority inheritance goes from the owner of a mutex to the mutex that it waits for, to the owner of
this one, and so on, with no test whether it was there before. Here the threads may wait for each other in a
circle.

* `QueuesOk`: a thread that waits is queued once, in its loop, for a mutex of another thread;
* `step_queues`, `run_queues`: every run keeps it;
* `Circular`, `inherit_ends`, `inherit_endless`: the walk ends unless it runs into a circle;
* **`walk_ends_iff`**: exactly when a request to lock a mutex ends.
-/

namespace Miosix

open Lib Relation

namespace MutexSystem

variable {P M C T : Type} [SchedulerPriority P] [DecidableEq M] [DecidableEq C] [DecidableEq T]
  {s s' s'' : MutexSystem P M C T} {m n : M} {c : C} {p t o u : T} {fuel : ℕ}

/-! ## Queues -/

/-- A thread that waits is queued once, in its loop, for a mutex of another thread. -/
structure QueuesOk (s : MutexSystem P M C T) : Prop where
  queued : ∀ m t, t ∈ s.waiting m ↔ s.mutexWaiting t = some m
  once : ∀ m, (s.waiting m).Nodup
  inLoop : ∀ t m, s.mutexWaiting t = some m → (s.pc t).locks = some m
  owned : ∀ t m, s.mutexWaiting t = some m → ∃ o, s.owner m = some o ∧ o ≠ t

/-- The queues are in another order, and the threads and mutexes are linked as before. -/
structure SameQueues (s s' : MutexSystem P M C T) : Prop where
  waiting : ∀ m, (s'.waiting m).Perm (s.waiting m)
  mutexWaiting : s'.mutexWaiting = s.mutexWaiting
  owner : s'.owner = s.owner
  pc : s'.pc = s.pc

omit [SchedulerPriority P] [DecidableEq M] [DecidableEq C] [DecidableEq T] in
theorem SameQueues.refl (s : MutexSystem P M C T) : SameQueues s s := ⟨fun _ => .refl _, rfl, rfl, rfl⟩

omit [SchedulerPriority P] [DecidableEq M] [DecidableEq C] [DecidableEq T] in
theorem SameQueues.trans (h : SameQueues s s') (h' : SameQueues s' s'') : SameQueues s s'' :=
  ⟨fun m => (h'.waiting m).trans (h.waiting m), h'.mutexWaiting.trans h.mutexWaiting, h'.owner.trans h.owner,
    h'.pc.trans h.pc⟩

namespace QueuesOk

omit [SchedulerPriority P] [DecidableEq M] [DecidableEq C] [DecidableEq T] in
theorem not_waiting (h : s.QueuesOk) (ht : (s.pc t).locks = none) : s.mutexWaiting t = none := by
  cases hm : s.mutexWaiting t with
  | none => rfl
  | some m => cases ht.symm.trans (h.inLoop t m hm)

omit [SchedulerPriority P] [DecidableEq M] [DecidableEq C] [DecidableEq T] in
/-- A free mutex gets an owner, and threads that do not wait go on. -/
theorem congr (h : s.QueuesOk) (hw : ∀ m, (s'.waiting m).Perm (s.waiting m)) (hm : s'.mutexWaiting = s.mutexWaiting)
    (ho : ∀ m, s'.owner m = s.owner m ∨ s.owner m = none)
    (hpc : ∀ t, s.mutexWaiting t ≠ none → s'.pc t = s.pc t) : s'.QueuesOk where
  queued m t := by rw [(hw m).mem_iff, hm, h.queued]
  once m := (hw m).nodup_iff.mpr (h.once m)
  inLoop t m ht := by
    rw [hm] at ht
    rw [hpc t (by rw [ht]; exact Option.some_ne_none m)]
    exact h.inLoop t m ht
  owned t m ht := by
    rw [hm] at ht
    obtain ⟨o, hown, hot⟩ := h.owned t m ht
    rcases ho m with heq | hfree
    · exact ⟨o, heq.trans hown, hot⟩
    · rw [hfree] at hown
      cases hown

omit [SchedulerPriority P] [DecidableEq M] [DecidableEq C] [DecidableEq T] in
theorem same (h : s.QueuesOk) (hs : SameQueues s s') : s'.QueuesOk :=
  h.congr hs.waiting hs.mutexWaiting (fun m => .inl (by rw [hs.owner])) fun t _ => by rw [hs.pc]

omit [SchedulerPriority P] [DecidableEq M] [DecidableEq C] [DecidableEq T] in
/-- A thread that does not wait goes on. -/
theorem move (h : s.QueuesOk) (ht : s.mutexWaiting t = none) (hw : s'.waiting = s.waiting)
    (hm : s'.mutexWaiting = s.mutexWaiting) (ho : s'.owner = s.owner) (hpc : ∀ u, u ≠ t → s'.pc u = s.pc u) :
    s'.QueuesOk := by
  refine h.congr (fun m => by rw [hw]) hm (fun m => .inl (by rw [ho])) fun u hu => hpc u ?_
  rintro rfl
  exact hu ht

omit [SchedulerPriority P] [DecidableEq C] [DecidableEq T] in
/-- A thread gets a free mutex. -/
theorem take (h : s.QueuesOk) (hfree : s.owner m = none) (ht : s.mutexWaiting t = none) (hw : s'.waiting = s.waiting)
    (hm : s'.mutexWaiting = s.mutexWaiting) (ho : s'.owner = Function.update s.owner m (some t))
    (hpc : ∀ u, u ≠ t → s'.pc u = s.pc u) : s'.QueuesOk := by
  refine h.congr (fun m => by rw [hw]) hm (fun n => ?_) fun u hu => hpc u ?_
  · by_cases hn : n = m
    · exact .inr (hn ▸ hfree)
    · exact .inl (by rw [ho, Function.update_of_ne hn])
  · rintro rfl
    exact hu ht

omit [SchedulerPriority P] [DecidableEq C] in
/-- A thread queues up. -/
theorem enter (h : s.QueuesOk) (hp : s.mutexWaiting p = none) (ho : s.owner m = some o) (hop : o ≠ p)
    (hw : ∀ n, (s'.waiting n).Perm (if n = m then p :: s.waiting m else s.waiting n))
    (hm : s'.mutexWaiting = Function.update s.mutexWaiting p (some m)) (hown : s'.owner = s.owner)
    (hpc : ∀ u, u ≠ p → s'.pc u = s.pc u) (hpcp : (s'.pc p).locks = some m) : s'.QueuesOk := by
  have hnot : ∀ n, p ∉ s.waiting n := by
    intro n hn
    rw [h.queued, hp] at hn
    cases hn
  refine ⟨fun n t => ?_, fun n => ?_, fun t n ht => ?_, fun t n ht => ?_⟩
  · rw [(hw n).mem_iff, hm]
    by_cases htp : t = p
    · subst htp
      rw [Function.update_self]
      by_cases hn : n = m
      · simp [hn]
      · simpa [hn, Ne.symm hn] using hnot n
    · rw [Function.update_of_ne htp, ← h.queued]
      by_cases hn : n = m
      · subst hn
        simp [htp]
      · simp [hn]
  · rw [(hw n).nodup_iff]
    by_cases hn : n = m
    · subst hn
      rw [if_pos rfl]
      exact List.nodup_cons.mpr ⟨hnot n, h.once n⟩
    · rw [if_neg hn]
      exact h.once n
  · rw [hm] at ht
    by_cases htp : t = p
    · subst htp
      rw [Function.update_self] at ht
      rw [hpcp, ht]
    · rw [Function.update_of_ne htp] at ht
      rw [hpc t htp]
      exact h.inLoop t n ht
  · rw [hm] at ht
    rw [hown]
    by_cases htp : t = p
    · subst htp
      rw [Function.update_self] at ht
      obtain rfl := Option.some.inj ht
      exact ⟨o, ho, hop⟩
    · rw [Function.update_of_ne htp] at ht
      exact h.owned t n ht

omit [SchedulerPriority P] [DecidableEq C] in
/-- The first thread of a queue gets the mutex. -/
theorem grant {l : List T} (h : s.QueuesOk) (hl : s.waiting m = u :: l)
    (hw : ∀ n, (s'.waiting n).Perm (if n = m then l else s.waiting n))
    (hm : s'.mutexWaiting = Function.update s.mutexWaiting u none)
    (hown : s'.owner = Function.update s.owner m (some u)) (hpc : s'.pc = s.pc) : s'.QueuesOk := by
  have hu : s.mutexWaiting u = some m := (h.queued m u).mp (hl ▸ List.mem_cons_self)
  have hnd := List.nodup_cons.mp (hl ▸ h.once m)
  refine ⟨fun n t => ?_, fun n => ?_, fun t n ht => ?_, fun t n ht => ?_⟩
  · rw [(hw n).mem_iff, hm]
    by_cases htu : t = u
    · subst htu
      rw [Function.update_self]
      by_cases hn : n = m
      · simp [hn, hnd.1]
      · have hnot : t ∉ s.waiting n := by
          intro hmem
          exact hn (Option.some.inj (((h.queued n t).mp hmem).symm.trans hu))
        simpa [hn] using hnot
    · rw [Function.update_of_ne htu, ← h.queued]
      by_cases hn : n = m
      · subst hn
        simp [hl, htu]
      · simp [hn]
  · rw [(hw n).nodup_iff]
    split_ifs
    · exact hnd.2
    · exact h.once n
  · rw [hm] at ht
    have htu : t ≠ u := by
      rintro rfl
      rw [Function.update_self] at ht
      cases ht
    rw [Function.update_of_ne htu] at ht
    rw [hpc]
    exact h.inLoop t n ht
  · rw [hm] at ht
    have htu : t ≠ u := by
      rintro rfl
      rw [Function.update_self] at ht
      cases ht
    rw [Function.update_of_ne htu] at ht
    obtain ⟨o, ho, hot⟩ := h.owned t n ht
    rw [hown]
    by_cases hn : n = m
    · exact ⟨u, by rw [hn, Function.update_self], htu.symm⟩
    · exact ⟨o, by rw [Function.update_of_ne hn]; exact ho, hot⟩

omit [SchedulerPriority P] [DecidableEq C] [DecidableEq T] in
/-- Nobody waits for a mutex that is released. -/
theorem free (h : s.QueuesOk) (hl : s.waiting m = []) (hw : s'.waiting = s.waiting)
    (hm : s'.mutexWaiting = s.mutexWaiting) (hown : s'.owner = Function.update s.owner m none) (hpc : s'.pc = s.pc) :
    s'.QueuesOk := by
  refine ⟨fun n t => by rw [hw, hm, h.queued], fun n => by rw [hw]; exact h.once n,
    fun t n ht => by rw [hpc]; exact h.inLoop t n (hm ▸ ht), fun t n ht => ?_⟩
  rw [hm] at ht
  have hn : n ≠ m := by
    rintro rfl
    have hmem := (h.queued n t).mpr ht
    rw [hl] at hmem
    cases hmem
  rw [hown, Function.update_of_ne hn]
  exact h.owned t n ht

end QueuesOk

/-! ## The sections -/

omit [DecidableEq C] in
/-- The walk only changes priorities and the order of the queues. -/
theorem inherit_queues {walk : T} (h : inherit p fuel s walk = .ok s') : SameQueues s s' := by
  induction fuel generalizing s walk with
  | zero => cases h
  | succ fuel ih =>
    rw [inherit] at h
    dsimp only [MutexSystem.pkSetPriority] at h
    cases hm : s.mutexWaiting walk with
    | none =>
      rw [hm] at h
      cases h
      exact ⟨fun _ => .refl _, rfl, rfl, rfl⟩
    | some m =>
      rw [hm] at h
      dsimp only [makeWaitingHeap] at h
      cases ho : s.owner m with
      | none =>
        rw [ho] at h
        cases h
      | some o =>
        rw [ho] at h
        dsimp only at h
        have hs := ih h
        refine ⟨fun n => (hs.waiting n).trans ?_, hs.mutexWaiting, hs.owner, hs.pc⟩
        by_cases hn : n = m
        · subst hn
          simp only [Function.update_self]
          exact makeHeap_perm _ _
        · simp only [Function.update_of_ne hn, List.Perm.refl]

omit [DecidableEq C] in
theorem enterWaiting_queues (h : s.enterWaiting fuel m p o = .ok s') :
    s.mutexWaiting p = none ∧ (∀ n, (s'.waiting n).Perm (if n = m then p :: s.waiting m else s.waiting n)) ∧
      s'.mutexWaiting = Function.update s.mutexWaiting p (some m) ∧ s'.owner = s.owner ∧ s'.pc = s.pc := by
  have hperm : ∀ n, (Function.update s.waiting m (pushHeap s.level (s.waiting m ++ [p])) n).Perm
      (if n = m then p :: s.waiting m else s.waiting n) := by
    intro n
    by_cases hn : n = m
    · subst hn
      rw [Function.update_self, if_pos rfl]
      exact (pushHeap_perm _ _).trans List.perm_append_comm
    · rw [Function.update_of_ne hn, if_neg hn]
  rw [enterWaiting] at h
  by_cases hp : s.mutexWaiting p = none
  · simp only [hp, ne_eq, not_true_eq_false, if_false, pure_eq_ok] at h
    refine ⟨hp, ?_⟩
    split_ifs at h
    · have hs := inherit_queues h
      exact ⟨fun n => (hs.waiting n).trans (hperm n), hs.mutexWaiting, hs.owner, hs.pc⟩
    · cases h
      exact ⟨hperm, rfl, rfl, rfl⟩
  · simp only [ne_eq, hp, not_false_eq_true, if_true] at h
    cases h

omit [SchedulerPriority P] [DecidableEq C] [DecidableEq T] in
theorem unlinkAfter_queues {walk : M} (h : unlinkAfter m fuel s walk = .ok s') : SameQueues s s' := by
  induction fuel generalizing walk with
  | zero => cases h
  | succ fuel ih =>
    rw [unlinkAfter] at h
    cases hn : s.next walk with
    | none =>
      rw [hn] at h
      cases h
    | some n =>
      rw [hn] at h
      dsimp only at h
      split_ifs at h
      · cases h
        exact ⟨fun _ => .refl _, rfl, rfl, rfl⟩
      · exact ih h

omit [SchedulerPriority P] [DecidableEq C] in
theorem removeLocked_queues (h : s.removeLocked fuel m p = .ok s') : SameQueues s s' := by
  rw [removeLocked] at h
  cases hl : s.mutexLocked p with
  | none =>
    rw [hl] at h
    cases h
  | some walk =>
    rw [hl] at h
    dsimp only at h
    split_ifs at h
    · cases h
      exact ⟨fun _ => .refl _, rfl, rfl, rfl⟩
    · exact unlinkAfter_queues h

omit [DecidableEq M] [DecidableEq C] in
theorem changePriority_queues (s : MutexSystem P M C T) (p : T) (pr : P) : SameQueues s (s.changePriority p pr) := by
  rw [changePriority_eq]
  exact ⟨fun _ => .refl _, rfl, rfl, rfl⟩

omit [DecidableEq M] [DecidableEq C] in
theorem restorePriority_queues (h : s.restorePriority fuel p = .ok s') : SameQueues s s' := by
  rw [restorePriority] at h
  split_ifs at h
  · cases h
    exact changePriority_queues s p _
  · obtain ⟨pr, -, h⟩ := bind_eq_ok h
    cases h
    exact changePriority_queues s p pr

omit [DecidableEq C] in
theorem handOver_queues (hq : s.QueuesOk) (h : s.handOver m = .ok s') : s'.QueuesOk ∧ s'.pc = s.pc := by
  rw [handOver] at h
  cases hl : s.waiting m with
  | nil =>
    rw [hl] at h
    cases h
    exact ⟨hq.free hl rfl rfl rfl rfl, rfl⟩
  | cons u l =>
    rw [hl] at h
    have hu : s.mutexWaiting u = some m := (hq.queued m u).mp (hl ▸ List.mem_cons_self)
    simp only [hu, ne_eq, not_true_eq_false, if_false, pure_eq_ok, changePriority_eq] at h
    cases h
    refine ⟨hq.grant hl (fun n => ?_) rfl rfl rfl, rfl⟩
    by_cases hn : n = m
    · subst hn
      simp only [MutexSystem.pkSetPriority, MutexSystem.takeOwnership, Function.update_self, if_true]
      exact popHeap_perm s.level u l
    · simp [MutexSystem.pkSetPriority, MutexSystem.takeOwnership, hn]

omit [DecidableEq C] in
theorem releaseMutex_queues (hq : s.QueuesOk) (h : s.releaseMutex fuel m p = .ok s') : s'.QueuesOk ∧ s'.pc = s.pc := by
  rw [releaseMutex] at h
  obtain ⟨s₁, hremove, h⟩ := bind_eq_ok h
  obtain ⟨s₂, hrestore, h⟩ := bind_eq_ok h
  have hs := (removeLocked_queues hremove).trans (restorePriority_queues hrestore)
  obtain ⟨hq', hpc⟩ := handOver_queues (hq.same hs) h
  exact ⟨hq', hpc.trans hs.pc⟩

/-! ## The steps -/

omit [DecidableEq C] in
theorem pkLock_queues (hq : s.QueuesOk) (hp : s.pc p = .idle) (h : s.pkLock fuel m p = .ok s') : s'.QueuesOk := by
  have hnone : s.mutexWaiting p = none := hq.not_waiting (by rw [hp]; rfl)
  rw [pkLock] at h
  cases ho : s.owner m with
  | none =>
    rw [ho] at h
    cases h
    exact hq.take ho hnone rfl rfl rfl fun _ _ => rfl
  | some o =>
    rw [ho] at h
    dsimp only at h
    split_ifs at h with hop hrec
    · cases h
      exact hq.move hnone rfl rfl rfl fun _ _ => rfl
    · obtain ⟨s₁, henter, h⟩ := bind_eq_ok h
      cases h
      obtain ⟨-, hw, hm, hown, hpc⟩ := enterWaiting_queues henter
      refine hq.enter hnone ho hop hw hm hown (fun u hu => ?_) (by rw [setPc_self]; rfl)
      rw [setPc_of_ne _ hu]
      exact congrFun hpc u

omit [DecidableEq C] in
theorem pkLockToDepth_queues {depth : ℕ} (hq : s.QueuesOk) (hp : (s.pc p).locks = none)
    (h : s.pkLockToDepth fuel c m p depth = .ok s') : s'.QueuesOk := by
  have hnone : s.mutexWaiting p = none := hq.not_waiting hp
  rw [pkLockToDepth] at h
  cases ho : s.owner m with
  | none =>
    rw [ho] at h
    cases h
    refine hq.take ho hnone ?_ ?_ ?_ fun u hu => ?_
    · rw [restoreDepth]
      split_ifs <;> rfl
    · rw [restoreDepth]
      split_ifs <;> rfl
    · rw [restoreDepth]
      split_ifs <;> rfl
    · rw [condReturn, setPc_of_ne _ hu, restoreDepth]
      split_ifs <;> rfl
  | some o =>
    rw [ho] at h
    dsimp only at h
    split_ifs at h with hop hrec
    · cases h
      exact hq.move hnone rfl rfl rfl fun u hu => setPc_of_ne _ hu
    · obtain ⟨s₁, henter, h⟩ := bind_eq_ok h
      cases h
      obtain ⟨-, hw, hm, hown, hpc⟩ := enterWaiting_queues henter
      refine hq.enter hnone ho hop hw hm hown (fun u hu => ?_) (by rw [setPc_self]; rfl)
      rw [setPc_of_ne _ hu]
      exact congrFun hpc u

omit [DecidableEq C] in
theorem pkUnlock_queues {r : MutexSystem P M C T × Bool} (hq : s.QueuesOk) (h : s.pkUnlock fuel m p = .ok r) :
    r.1.QueuesOk := by
  rw [pkUnlock] at h
  split_ifs at h
  · cases h
    exact hq
  · cases h
    exact hq.same ⟨fun _ => .refl _, rfl, rfl, rfl⟩
  · obtain ⟨s₁, hrelease, h⟩ := bind_eq_ok h
    cases h
    exact (releaseMutex_queues hq hrelease).1.same ⟨fun _ => .refl _, rfl, rfl, rfl⟩

theorem waitOn_queues (hq : s.QueuesOk) (hp : s.pc p = .idle) (h : s.waitOn fuel c m p = .ok s') : s'.QueuesOk := by
  obtain ⟨⟨s₁, depth⟩, hunlock, h⟩ := bind_eq_ok h
  cases h
  have hsame : SameQueues s (s.enqueueCond c p) := ⟨fun _ => .refl _, rfl, rfl, rfl⟩
  have hunlocked : s₁.QueuesOk ∧ s₁.pc = s.pc := by
    rw [pkUnlockAllDepthLevels] at hunlock
    split_ifs at hunlock
    · cases hunlock
      exact ⟨hq.same hsame, rfl⟩
    · obtain ⟨s₂, hrelease, hunlock⟩ := bind_eq_ok hunlock
      obtain ⟨hq', hpc⟩ := releaseMutex_queues (hq.same hsame) hrelease
      split_ifs at hunlock
      · cases hunlock
        exact ⟨hq'.same ⟨fun _ => .refl _, rfl, rfl, rfl⟩, hpc⟩
      · cases hunlock
        exact ⟨hq'.same ⟨fun _ => .refl _, rfl, rfl, rfl⟩, hpc⟩
  obtain ⟨hq₁, hpc₁⟩ := hunlocked
  refine hq₁.move (t := p) (hq₁.not_waiting ?_) rfl rfl rfl fun u hu => setPc_of_ne _ hu
  rw [hpc₁, hp]
  rfl

omit [DecidableEq M] [DecidableEq C] in
theorem setPriority_queues {pr : P} (h : s.setPriority fuel p pr = .ok s') : SameQueues s s' := by
  rw [MutexSystem.setPriority] at h
  dsimp only at h
  split_ifs at h
  · cases h
    exact .refl s
  · cases h
    rw [changePriority_eq]
    exact ⟨fun _ => .refl _, rfl, rfl, rfl⟩
  · cases h
    exact ⟨fun _ => .refl _, rfl, rfl, rfl⟩
  · obtain ⟨pr', -, h⟩ := bind_eq_ok h
    cases h
    rw [changePriority_eq]
    exact ⟨fun _ => .refl _, rfl, rfl, rfl⟩

omit [DecidableEq M] in
theorem broadcast_queues {cur : T} {hppw : Bool} {r : MutexSystem P M C T × Bool}
    (h : broadcast c cur fuel s hppw = .ok r) : SameQueues s r.1 := by
  obtain ⟨cw, f, rel, heq⟩ := broadcast_frame h
  rw [heq]
  exact ⟨fun _ => .refl _, rfl, rfl, rfl⟩

omit [DecidableEq C] in
theorem resume_queues (hq : s.QueuesOk) (h : s.resume fuel t = .ok s') : s'.QueuesOk := by
  have hgranted : ∀ m, (s.pc t).locks = some m → s.owner m = some t → s.mutexWaiting t = none := by
    intro m hm hown
    cases hw : s.mutexWaiting t with
    | none => rfl
    | some n =>
      obtain rfl : m = n := Option.some.inj (hm.symm.trans (hq.inLoop t n hw))
      obtain ⟨o, ho, hot⟩ := hq.owned t m hw
      exact absurd (Option.some.inj (ho.symm.trans hown)) hot
  rw [resume] at h
  cases hp : s.pc t with
  | idle =>
    rw [hp] at h
    cases h
    exact hq
  | locking m =>
    rw [hp] at h
    dsimp only at h
    split_ifs at h with hown
    · cases h
      exact hq.move (hgranted m (by rw [hp]; rfl) hown) rfl rfl rfl fun u hu => setPc_of_ne _ hu
    · cases h
      exact hq.same ⟨fun _ => .refl _, rfl, rfl, rfl⟩
  | condWaiting c m depth =>
    rw [hp] at h
    exact pkLockToDepth_queues hq (by rw [hp]; rfl) h
  | relocking c m depth =>
    rw [hp] at h
    dsimp only at h
    split_ifs at h with hown
    · cases h
      have hnone := hgranted m (by rw [hp]; rfl) hown
      rw [restoreDepth]
      split_ifs
      · exact hq.move hnone rfl rfl rfl fun u hu => setPc_of_ne _ hu
      · exact hq.move hnone rfl rfl rfl fun u hu => setPc_of_ne _ hu
    · cases h
      exact hq.same ⟨fun _ => .refl _, rfl, rfl, rfl⟩

omit [SchedulerPriority P] [DecidableEq C] in
theorem pkTryLock_queues (hq : s.QueuesOk) (hp : s.pc p = .idle) (m : M) : (s.pkTryLock m p).1.QueuesOk := by
  have hnone : s.mutexWaiting p = none := hq.not_waiting (by rw [hp]; rfl)
  rw [pkTryLock]
  cases ho : s.owner m with
  | none => exact hq.take ho hnone rfl rfl rfl fun _ _ => rfl
  | some o =>
    dsimp only
    split_ifs
    · exact hq.same ⟨fun _ => .refl _, rfl, rfl, rfl⟩
    · exact hq

theorem step_queues (hq : s.QueuesOk) {e : Event P M C T} (h : s.step fuel e = .ok s') : s'.QueuesOk := by
  cases e with
  | lock t m =>
    rw [step] at h
    split_ifs at h with hp
    · exact pkLock_queues hq hp h
    · cases h
      exact hq
  | tryLock t m =>
    rw [step] at h
    split_ifs at h with hp
    · cases h
      exact pkTryLock_queues hq hp m
    · cases h
      exact hq
  | unlock t m =>
    rw [step] at h
    split_ifs at h with hp
    · obtain ⟨r, hunlock, rfl⟩ := map_eq_ok h
      exact pkUnlock_queues hq hunlock
    · cases h
      exact hq
  | setPriority t pr =>
    rw [step] at h
    split_ifs at h with hp
    · exact hq.same (setPriority_queues h)
    · cases h
      exact hq
  | wait t c m =>
    rw [step] at h
    split_ifs at h with hp
    · exact waitOn_queues hq hp.1 h
    · cases h
      exact hq
  | signal t c =>
    rw [step] at h
    split_ifs at h with hp
    · cases h
      rw [signal]
      cases s.first c with
      | none => exact hq
      | some u => exact hq.same ⟨fun _ => .refl _, rfl, rfl, rfl⟩
    · cases h
      exact hq
  | broadcast t c =>
    rw [step] at h
    split_ifs at h with hp
    · obtain ⟨r, hbroadcast, rfl⟩ := map_eq_ok h
      exact hq.same (broadcast_queues hbroadcast)
    · cases h
      exact hq
  | resume t =>
    rw [step] at h
    split_ifs at h with hw
    · cases h
      exact hq
    · exact resume_queues hq h
  | wakeup t =>
    cases h
    exact hq.same ⟨fun _ => .refl _, rfl, rfl, rfl⟩

theorem run_queues (hq : s.QueuesOk) {events : List (Event P M C T)} (h : run fuel s events = .ok s') : s'.QueuesOk := by
  induction events generalizing s with
  | nil =>
    cases h
    exact hq
  | cons e events ih =>
    obtain ⟨s₁, hstep, hrun⟩ := bind_eq_ok h
    exact ih (step_queues hq hstep) hrun

omit [SchedulerPriority P] [DecidableEq M] [DecidableEq C] [DecidableEq T] in
theorem init_queues (isRecursive : M → Bool) (priority savedPriority : T → P) (next : M → Option M)
    (last : C → Option T) (condNext : T → Option T) (saved : T → ℕ × ℤ) :
    (init isRecursive priority savedPriority next last condNext saved).QueuesOk where
  queued m t := by simp [init]
  once _ := List.nodup_nil
  inLoop t m ht := by cases ht
  owned t m ht := by cases ht

/-! ## The walk -/

/-- The owners that the walk from a thread comes to go round in a circle. -/
def RunsRound (s : MutexSystem P M C T) (t : T) : Prop :=
  ∃ u, ReflTransGen s.WaitsFor t u ∧ TransGen s.WaitsFor u u

omit [SchedulerPriority P] [DecidableEq M] [DecidableEq C] [DecidableEq T] in
/-- The next thread of the walk runs into the same circle. -/
theorem RunsRound.next (h : s.RunsRound t) : ∃ u, s.WaitsFor t u ∧ s.RunsRound u := by
  obtain ⟨c, hc, hround⟩ := h
  rcases ReflTransGen.cases_head hc with rfl | ⟨u, htu, huc⟩
  · obtain ⟨u, htu, hut⟩ := TransGen.head'_iff.mp hround
    exact ⟨u, htu, t, hut, hround⟩
  · exact ⟨u, htu, c, huc, hround⟩

omit [SchedulerPriority P] [DecidableEq M] [DecidableEq C] [DecidableEq T] in
theorem RunsRound.of_next (h : s.RunsRound u) (htu : s.WaitsFor t u) : s.RunsRound t := by
  obtain ⟨c, hc, hround⟩ := h
  exact ⟨c, hc.head htu, hround⟩

omit [DecidableEq C] in
/-- The body of the loop, when the thread waits for a mutex. -/
theorem inherit_next {walk : T} (hm : s.mutexWaiting walk = some m) (ho : s.owner m = some o) :
    inherit p (fuel + 1) s walk = inherit p fuel ((s.pkSetPriority walk (s.priority p)).makeWaitingHeap m) o := by
  rw [inherit]
  simp only [MutexSystem.pkSetPriority, makeWaitingHeap, hm, ho]

omit [DecidableEq C] in
theorem inherit_endless {walk : T} (h : s.RunsRound walk) (fuel : ℕ) : inherit p fuel s walk = .error .endless := by
  induction fuel generalizing s walk with
  | zero => rfl
  | succ fuel ih =>
    obtain ⟨u, ⟨m, hm, ho⟩, hu⟩ := h.next
    rw [inherit_next hm ho]
    exact ih hu

omit [DecidableEq C] in
theorem inherit_ends [Fintype T] {walk : T} (howned : ∀ t m, s.mutexWaiting t = some m → ∃ o, s.owner m = some o)
    (h : ¬s.RunsRound walk) (hf : reachCount s.WaitsFor walk ≤ fuel) : ∃ s', inherit p fuel s walk = .ok s' := by
  induction fuel generalizing s walk with
  | zero =>
    have hpos := reachCount_pos s.WaitsFor walk
    omega
  | succ fuel ih =>
    cases hm : s.mutexWaiting walk with
    | none =>
      refine ⟨s.pkSetPriority walk (s.priority p), ?_⟩
      rw [inherit]
      simp only [MutexSystem.pkSetPriority, hm, pure_eq_ok]
    | some m =>
      obtain ⟨o, ho⟩ := howned walk m hm
      have hwaits : s.WaitsFor walk o := ⟨m, hm, ho⟩
      have hround : ¬TransGen s.WaitsFor walk walk := fun hw => h ⟨walk, .refl, hw⟩
      have hlt := reachCount_lt hround hwaits
      rw [inherit_next hm ho]
      exact ih howned (fun ho' => h (ho'.of_next hwaits)) (Nat.le_of_lt_succ (lt_of_lt_of_le hlt hf))

/-! ## Requests -/

/-- The section ends: it returns, or the deadlock of a thread with itself is reported. -/
def Ends (x : ℕ → Except MutexFault (MutexSystem P M C T)) : Prop :=
  ∃ n, ∀ fuel ≥ n, x fuel = .error .deadlock ∨ ∃ s', x fuel = .ok s'

/-- `p` would lend its priority to the owner of `m`, from which the walk goes round in a circle once `p` waits
for `m`. -/
def LocksRound (s : MutexSystem P M C T) (m : M) (p : T) : Prop :=
  ∃ o, s.owner m = some o ∧ o ≠ p ∧ s.level o < s.level p ∧
    RunsRound { s with mutexWaiting := Function.update s.mutexWaiting p (some m) } o

omit [DecidableEq M] [DecidableEq C] in
theorem not_locksRound (ho : s.owner m = none ∨ s.owner m = some p) : ¬s.LocksRound m p := by
  rintro ⟨o, ho', hop, -, -⟩
  rcases ho with hnone | hp
  · rw [hnone] at ho'
    cases ho'
  · exact hop (Option.some.inj (ho'.symm.trans hp))

omit [DecidableEq C] in
/-- The walk of a request that waits. -/
theorem enterWaiting_ends_iff [Fintype T] (hq : s.QueuesOk) (hp : s.mutexWaiting p = none) (ho : s.owner m = some o)
    (hop : o ≠ p) :
    ((s.LocksRound m p → ∀ fuel, s.enterWaiting fuel m p o = .error .endless) ∧
      (¬s.LocksRound m p → ∀ fuel ≥ Fintype.card T, ∃ s', s.enterWaiting fuel m p o = .ok s')) := by
  have henter : ∀ fuel, s.enterWaiting fuel m p o =
      if s.level o < s.level p then inherit p fuel { s with
        waiting := Function.update s.waiting m (pushHeap s.level (s.waiting m ++ [p]))
        mutexWaiting := Function.update s.mutexWaiting p (some m) } o
      else .ok { s with
        waiting := Function.update s.waiting m (pushHeap s.level (s.waiting m ++ [p]))
        mutexWaiting := Function.update s.mutexWaiting p (some m) } := by
    intro fuel
    simp only [enterWaiting, hp, ne_eq, not_true_eq_false, if_false, pure_eq_ok]
    rfl
  constructor
  · rintro ⟨o', ho', -, hlt, hround⟩ fuel
    obtain rfl : o = o' := Option.some.inj (ho.symm.trans ho')
    rw [henter, if_pos hlt]
    exact inherit_endless (by exact hround) fuel
  · intro hno fuel hf
    rw [henter]
    split_ifs with hlt
    · refine inherit_ends (fun t n ht => ?_) (fun hround => hno ⟨o, ho, hop, hlt, hround⟩)
        ((reachCount_le_card _ o).trans hf)
      by_cases htp : t = p
      · subst htp
        simp only [Function.update_self, Option.some.injEq] at ht
        exact ⟨o, ht ▸ ho⟩
      · simp only [Function.update_of_ne htp] at ht
        obtain ⟨v, hv, -⟩ := hq.owned t n ht
        exact ⟨v, hv⟩
    · exact ⟨_, rfl⟩

omit [DecidableEq C] in
/-- A section that goes on after the request waits. -/
theorem ends_iff_of_enter [Fintype T] (hq : s.QueuesOk) (hp : s.mutexWaiting p = none) (ho : s.owner m = some o)
    (hop : o ≠ p) {x : ℕ → Except MutexFault (MutexSystem P M C T)} {f : MutexSystem P M C T → MutexSystem P M C T}
    (hx : ∀ fuel, x fuel = f <$> s.enterWaiting fuel m p o) : Ends x ↔ ¬s.LocksRound m p := by
  obtain ⟨hround, hends⟩ := enterWaiting_ends_iff hq hp ho hop
  constructor
  · rintro ⟨n, hn⟩ hr
    have herr : x n = .error .endless := by
      rw [hx, hround hr n]
      rfl
    have hret := hn n le_rfl
    rw [herr] at hret
    rcases hret with hd | ⟨s', hs'⟩
    · cases hd
    · cases hs'
  · refine fun hr => ⟨Fintype.card T, fun fuel hf => .inr ?_⟩
    obtain ⟨s', hs'⟩ := hends hr fuel hf
    refine ⟨f s', ?_⟩
    rw [hx, hs']
    rfl

omit [DecidableEq C] in
theorem pkLock_locksRound [Fintype T] (hq : s.QueuesOk) (hp : s.mutexWaiting p = none) (h : s.LocksRound m p)
    (fuel : ℕ) : s.pkLock fuel m p = .error .endless := by
  obtain ⟨o, ho, hop, -⟩ := id h
  simp only [pkLock, ho, if_neg hop, (enterWaiting_ends_iff hq hp ho hop).1 h fuel]
  rfl

omit [DecidableEq C] in
theorem pkLock_ends_iff [Fintype T] (hq : s.QueuesOk) (hp : s.mutexWaiting p = none) :
    Ends (fun fuel => s.pkLock fuel m p) ↔ ¬s.LocksRound m p := by
  cases ho : s.owner m with
  | none =>
    refine iff_of_true ⟨0, fun fuel _ => .inr ?_⟩ (not_locksRound (.inl ho))
    exact ⟨_, by simp only [pkLock, ho]; rfl⟩
  | some o =>
    by_cases hop : o = p
    · subst hop
      refine iff_of_true ⟨0, fun fuel _ => ?_⟩ (not_locksRound (.inr ho))
      simp only [pkLock, ho, if_true]
      split_ifs
      · exact .inr ⟨_, rfl⟩
      · exact .inl rfl
    · refine ends_iff_of_enter hq hp ho hop (f := fun s => (s.setWait p true).setPc p (.locking m)) fun fuel => ?_
      simp only [pkLock, ho, if_neg hop]
      rfl

omit [DecidableEq C] in
theorem pkLockToDepth_ends_iff [Fintype T] (hq : s.QueuesOk) (hp : s.mutexWaiting p = none) (c : C) (depth : ℕ) :
    Ends (fun fuel => s.pkLockToDepth fuel c m p depth) ↔ ¬s.LocksRound m p := by
  cases ho : s.owner m with
  | none =>
    refine iff_of_true ⟨0, fun fuel _ => .inr ?_⟩ (not_locksRound (.inl ho))
    exact ⟨_, by simp only [pkLockToDepth, ho]; rfl⟩
  | some o =>
    by_cases hop : o = p
    · subst hop
      refine iff_of_true ⟨0, fun fuel _ => ?_⟩ (not_locksRound (.inr ho))
      simp only [pkLockToDepth, ho, if_true]
      split_ifs
      · exact .inr ⟨_, rfl⟩
      · exact .inl rfl
    · refine ends_iff_of_enter hq hp ho hop (f := fun s => (s.setWait p true).setPc p (.relocking c m depth))
        fun fuel => ?_
      simp only [pkLockToDepth, ho, if_neg hop]
      rfl

/-- **The walk ends** in every state that a run reaches, for every request to lock a mutex, unless the thread
would lend its priority along owners that go round in a circle. -/
theorem walk_ends_iff [Fintype T] (isRecursive : M → Bool) (priority savedPriority : T → P) (next : M → Option M)
    (last : C → Option T) (condNext : T → Option T) (saved : T → ℕ × ℤ) (n : ℕ) (events : List (Event P M C T))
    (hrun : run n (init isRecursive priority savedPriority next last condNext saved) events = .ok s) (m : M) (p : T) :
    (s.pc p = .idle → (Ends (fun fuel => s.pkLock fuel m p) ↔ ¬s.LocksRound m p)) ∧
    ∀ c depth, s.pc p = .condWaiting c m depth →
      (Ends (fun fuel => s.pkLockToDepth fuel c m p depth) ↔ ¬s.LocksRound m p) := by
  have hq := run_queues (init_queues isRecursive priority savedPriority next last condNext saved) hrun
  refine ⟨fun hp => pkLock_ends_iff hq (hq.not_waiting ?_), fun c depth hp => pkLockToDepth_ends_iff hq (hq.not_waiting ?_) c depth⟩
  · rw [hp]
    rfl
  · rw [hp]
    rfl

/-- Two threads, the one with the lower priority being thread 0, and no mutex is locked. -/
def twoThreads : MutexSystem PrioritySchedulerPriority ℕ ℕ (Fin 2) :=
  init (fun _ => false) (fun t => ⟨t.val⟩) (fun _ => ⟨0⟩) (fun _ => none) (fun _ => none) (fun _ => none) fun _ => (0, 0)

theorem walk_ends_iff_two : ∃ s, run 3 twoThreads [.lock 0 0] = .ok s ∧
    (s.pc 1 = .idle → (Ends (fun fuel => s.pkLock fuel 0 1) ↔ ¬s.LocksRound 0 1)) ∧
    ∀ c depth, s.pc 1 = .condWaiting c 0 depth →
      (Ends (fun fuel => s.pkLockToDepth fuel c 0 1 depth) ↔ ¬s.LocksRound 0 1) :=
  ⟨_, rfl, walk_ends_iff _ _ _ _ _ _ _ 3 [.lock 0 0] rfl 0 1⟩

/-- Each thread has locked a mutex, and thread 0 waits for that of thread 1. The walk for the request of thread 1
goes round for ever. -/
theorem pkLock_endless : ∃ s, run 3 twoThreads [.lock 0 0, .lock 1 1, .lock 0 1] = .ok s ∧ s.pc 1 = .idle ∧
    ∀ fuel, s.pkLock fuel 0 1 = .error .endless := by
  have hrun : ∃ s, run 3 twoThreads [.lock 0 0, .lock 1 1, .lock 0 1] = .ok s ∧ s.pc 1 = .idle ∧
      s.mutexWaiting 0 = some 1 ∧ s.owner 0 = some 0 ∧ s.owner 1 = some 1 ∧ s.level 0 < s.level 1 :=
    ⟨_, rfl, rfl, rfl, rfl, rfl, by decide⟩
  obtain ⟨s, hs, hp, hw, ho, ho', hlt⟩ := hrun
  have hq := run_queues (init_queues _ _ _ _ _ _ _) hs
  refine ⟨s, hs, hp, pkLock_locksRound hq (hq.not_waiting (by rw [hp]; rfl)) ⟨0, ho, by decide, hlt, ?_⟩⟩
  -- 0 waits for 1, and 1 for 0
  refine ⟨0, .refl, .tail (.single (b := 1) ⟨1, ?_, ho'⟩) ⟨0, ?_, ho⟩⟩
  · show Function.update s.mutexWaiting (1 : Fin 2) (some 0) 0 = some 1
    rw [Function.update_of_ne (by decide)]
    exact hw
  · exact Function.update_self (1 : Fin 2) (some 0) s.mutexWaiting

end MutexSystem

end Miosix
