import MiosixKernel.Lib.Reach
import MiosixKernel.Sync.Mutex
import Mathlib.Data.Fintype.Card
import Mathlib.Tactic.SplitIfs

/-!
# Mutexes with priority inheritance: lists and heaps

What the sections do to the lists of locked mutexes and to the heaps of waiting threads.

* `LocksOk`: a mutex is in the list of its owner, and in no other one;
* `WaitsOk`: a thread is in the heap of the mutex it waits for, and in no other one, and no thread waits
  for itself;
* `inherit_priority`: the loop of priority inheritance writes over the priorities that it comes to;
* `enterWaiting_spec`, `releaseMutex_spec`, `handOver_spec`: the sections return and keep both.
-/

namespace Miosix

open Lib Relation

namespace MutexSystem

variable {P M C T : Type} [SchedulerPriority P] [DecidableEq M] [DecidableEq C] [DecidableEq T]
  {s : MutexSystem P M C T} {locked : T → List M} {m : M} {p t o u : T} {fuel : ℕ}

omit [DecidableEq M] [DecidableEq C] in
theorem pkSetPriority_level (s : MutexSystem P M C T) (p : T) (pr : P) :
    (s.pkSetPriority p pr).level = Function.update s.level p (SchedulerPriority.level pr) :=
  Function.comp_update _ _ _ _

/-! ## The invariants -/

/-- The thread waits for a mutex that the other one owns. -/
def WaitsFor (s : MutexSystem P M C T) (t u : T) : Prop :=
  ∃ m, s.mutexWaiting t = some m ∧ s.owner m = some u

omit [SchedulerPriority P] [DecidableEq M] [DecidableEq C] [DecidableEq T] in
theorem WaitsFor.unique (h : s.WaitsFor t u) (h' : s.WaitsFor t o) : u = o := by
  obtain ⟨m, hm, hu⟩ := h
  obtain ⟨n, hn, ho⟩ := h'
  obtain rfl : m = n := Option.some.inj (hm.symm.trans hn)
  exact Option.some.inj (hu.symm.trans ho)

/-- The lists of the mutexes that the threads have locked, where `x` says which mutexes count. -/
structure LocksBut (s : MutexSystem P M C T) (locked : T → List M) (counts : M → Prop) : Prop where
  linked : ∀ t, Linked s.next (s.mutexLocked t) (locked t)
  nodup : ∀ t, (locked t).Nodup
  owned : ∀ t m, m ∈ locked t ↔ s.owner m = some t ∧ counts m

/-- A mutex is in the list of its owner once, and in no other list. -/
abbrev LocksOk (s : MutexSystem P M C T) (locked : T → List M) : Prop := s.LocksBut locked fun _ => True

/-- A thread that waits is in the heap of its mutex once, and in no other heap. -/
structure WaitsOk (s : MutexSystem P M C T) : Prop where
  queued : ∀ m t, t ∈ s.waiting m ↔ s.mutexWaiting t = some m
  once : ∀ m, (s.waiting m).Nodup
  owner_ne : ∀ m t, s.mutexWaiting t = some m → ∃ o, s.owner m = some o ∧ o ≠ t
  heap : ∀ m, IsHeap s.level (s.waiting m)
  acyclic : Acyclic s.WaitsFor

omit [DecidableEq M] [DecidableEq C] in
/-- Only the priority of a thread that waits matters to the heaps. -/
theorem WaitsOk.pkSetPriority (h : s.WaitsOk) (hp : s.mutexWaiting p = none) (pr : P) :
    (s.pkSetPriority p pr).WaitsOk where
  queued := h.queued
  once := h.once
  owner_ne := h.owner_ne
  heap m := (h.heap m).congr fun t ht => by
    rw [pkSetPriority_level, Function.update_of_ne]
    rintro rfl
    rw [(h.queued m t).1 ht] at hp
    cases hp
  acyclic := h.acyclic

omit [DecidableEq M] [DecidableEq C] in
theorem changePriority_eq (s : MutexSystem P M C T) (p : T) (pr : P) :
    s.changePriority p pr = s.pkSetPriority p pr := by
  unfold changePriority
  split_ifs with h
  · rfl
  · rw [not_not] at h
    rw [MutexSystem.pkSetPriority, h, Function.update_eq_self]

/-! ## The loop of priority inheritance -/

omit [DecidableEq C] in
/-- One thread of the chain: its priority changes, and then the heap it is in is made again. -/
theorem WaitsOk.raise (h : s.WaitsOk) (hp : s.mutexWaiting t = some m) (pr : P) :
    ((s.pkSetPriority t pr).makeWaitingHeap m).WaitsOk where
  queued n u := by
    by_cases hn : n = m
    · subst hn
      simp only [makeWaitingHeap, Function.update_self]
      rw [(makeHeap_perm _ _).mem_iff]
      exact h.queued n u
    · simp only [makeWaitingHeap, Function.update_of_ne hn]
      exact h.queued n u
  once n := by
    by_cases hn : n = m
    · subst hn
      simp only [makeWaitingHeap, Function.update_self]
      exact (makeHeap_perm _ _).nodup_iff.2 (h.once n)
    · simp only [makeWaitingHeap, Function.update_of_ne hn]
      exact h.once n
  owner_ne := h.owner_ne
  heap n := by
    by_cases hn : n = m
    · subst hn
      simp only [makeWaitingHeap, Function.update_self]
      exact isHeap_makeHeap _ _
    · simp only [makeWaitingHeap, Function.update_of_ne hn]
      refine (h.heap n).congr fun u hu => (congrFun (pkSetPriority_level s t pr) u).trans
        (Function.update_of_ne ?_ _ _)
      rintro rfl
      exact hn (Option.some.inj (((h.queued n u).1 hu).symm.trans hp))
  acyclic := h.acyclic

omit [DecidableEq C] in
theorem inherit_spec [Fintype T] : ∀ (fuel : ℕ) {s : MutexSystem P M C T} (walk : T), s.WaitsOk →
    reachCount s.WaitsFor walk ≤ fuel → ∃ pr w, inherit p fuel s walk =
      .ok { s with priority := pr, waiting := w } ∧
        WaitsOk { s with priority := pr, waiting := w }
  | 0, s, walk, _, hf => by
    have := reachCount_pos s.WaitsFor walk
    omega
  | fuel + 1, s, walk, h, hf => by
    rw [inherit]
    cases hm : s.mutexWaiting walk with
    | none =>
      refine ⟨Function.update s.priority walk (s.priority p), s.waiting, ?_, ?_⟩
      · simp only [MutexSystem.pkSetPriority, hm, pure_eq_ok]
      · exact h.pkSetPriority hm _
    | some m =>
      obtain ⟨o, ho, -⟩ := h.owner_ne m walk hm
      have hr := h.raise hm (s.priority p)
      have hlt := h.acyclic.reachCount_lt ⟨m, hm, ho⟩
      obtain ⟨pr, w, hrun, hok⟩ := inherit_spec fuel o hr
        (Nat.le_of_lt_succ (lt_of_lt_of_le hlt hf))
      refine ⟨pr, w, ?_, hok⟩
      simp only [MutexSystem.pkSetPriority, makeWaitingHeap, hm, ho] at hrun ⊢
      exact hrun

omit [DecidableEq C] in
/-- The loop writes one priority over those of the threads that it comes to, and of no other. -/
theorem inherit_priority {s' : MutexSystem P M C T} {walk : T} (h : inherit p fuel s walk = .ok s') :
    (∀ t, ReflTransGen s.WaitsFor walk t → s'.priority t = s.priority p) ∧
      ∀ t, ¬ ReflTransGen s.WaitsFor walk t → s'.priority t = s.priority t := by
  induction fuel generalizing s walk with
  | zero => cases h
  | succ fuel ih =>
    have hp : Function.update s.priority walk (s.priority p) p = s.priority p := by
      by_cases hpw : p = walk
      · subst hpw
        exact Function.update_self _ _ _
      · exact Function.update_of_ne hpw _ _
    have hrest : ∀ t, ¬ ReflTransGen s.WaitsFor walk t →
        Function.update s.priority walk (s.priority p) t = s.priority t := fun t ht => by
      refine Function.update_of_ne ?_ _ _
      rintro rfl
      exact ht .refl
    rw [inherit] at h
    dsimp only [MutexSystem.pkSetPriority] at h
    cases hm : s.mutexWaiting walk with
    | none =>
      rw [hm] at h
      cases h
      refine ⟨fun t ht => ?_, hrest⟩
      obtain rfl | ⟨u, ⟨m, hm', -⟩, -⟩ := ht.cases_head
      · exact Function.update_self _ _ _
      · cases hm.symm.trans hm'
    | some m =>
      rw [hm] at h
      dsimp only [makeWaitingHeap] at h
      cases ho : s.owner m with
      | none =>
        rw [ho] at h
        cases h
      | some o =>
        rw [ho] at h
        dsimp only at h
        obtain ⟨hahead, hother⟩ := ih h
        have hwo : s.WaitsFor walk o := ⟨m, hm, ho⟩
        refine ⟨fun t ht => ?_, fun t ht => (hother t fun hot => ht (hot.head hwo)).trans (hrest t ht)⟩
        by_cases hot : ReflTransGen s.WaitsFor o t
        · exact (hahead t hot).trans hp
        · obtain rfl | ⟨u, hwu, hut⟩ := ht.cases_head
          · exact (hother _ hot).trans (Function.update_self _ _ _)
          · rw [hwu.unique hwo] at hut
            exact absurd hut hot

omit [DecidableEq C] in
/-- The thread enters the heap, before it lends its priority. -/
theorem WaitsOk.enter (h : s.WaitsOk) (hp : s.mutexWaiting p = none) (ho : s.owner m = some o)
    (hop : o ≠ p) (hno : ¬ ReflTransGen s.WaitsFor o p) :
    WaitsOk { s with
      waiting := Function.update s.waiting m (pushHeap s.level (s.waiting m ++ [p]))
      mutexWaiting := Function.update s.mutexWaiting p (some m) } := by
  have hmem : ∀ n t, t ∈ Function.update s.waiting m (pushHeap s.level (s.waiting m ++ [p])) n ↔
      t ∈ s.waiting n ∨ n = m ∧ t = p := by
    intro n t
    by_cases hn : n = m
    · subst hn
      rw [Function.update_self, (pushHeap_perm _ _).mem_iff]
      simp
    · simp [hn]
  have hnot : ∀ n, p ∉ s.waiting n := by
    intro n hn
    rw [h.queued, hp] at hn
    cases hn
  refine ⟨fun n t => ?_, fun n => ?_, fun n t ht => ?_, fun n => ?_, ?_⟩
  · rw [hmem, h.queued]
    by_cases ht : t = p
    · subst ht
      simp [hp, eq_comm]
    · simp [ht]
  · by_cases hn : n = m
    · subst hn
      simp only [Function.update_self]
      rw [(pushHeap_perm _ _).nodup_iff, List.nodup_append]
      refine ⟨h.once n, List.nodup_singleton p, fun a ha b hb => ?_⟩
      rintro rfl
      rw [List.mem_singleton] at hb
      exact hnot n (hb ▸ ha)
    · simp only [Function.update_of_ne hn]
      exact h.once n
  · by_cases htp : t = p
    · subst htp
      simp only [Function.update_self, Option.some.injEq] at ht
      subst ht
      exact ⟨o, ho, hop⟩
    · simp only [Function.update_of_ne htp] at ht
      exact h.owner_ne n t ht
  · by_cases hn : n = m
    · subst hn
      simp only [Function.update_self]
      exact isHeap_pushHeap (h.heap n) p
    · simp only [Function.update_of_ne hn]
      exact h.heap n
  · refine h.acyclic.insert (p := p) (o := o) ?_ hno
    rintro a b ⟨n, hn, hb⟩
    by_cases hap : a = p
    · subst hap
      simp only [Function.update_self, Option.some.injEq] at hn
      subst hn
      exact Or.inr ⟨rfl, Option.some.inj (hb.symm.trans ho)⟩
    · simp only [Function.update_of_ne hap] at hn
      exact Or.inl ⟨n, hn, hb⟩

omit [DecidableEq C] in
/-- **A thread enters the heap** of a mutex that has another owner, and lends its priority. -/
theorem enterWaiting_spec [Fintype T] (h : s.WaitsOk) (hfuel : Fintype.card T ≤ fuel)
    (hp : s.mutexWaiting p = none) (ho : s.owner m = some o) (hop : o ≠ p)
    (hno : ¬ ReflTransGen s.WaitsFor o p) : ∃ pr w, s.enterWaiting fuel m p o =
      .ok { s with priority := pr, waiting := w,
                   mutexWaiting := Function.update s.mutexWaiting p (some m) } ∧
        WaitsOk { s with priority := pr, waiting := w,
                         mutexWaiting := Function.update s.mutexWaiting p (some m) } := by
  have hw := h.enter hp ho hop hno
  simp only [enterWaiting, hp, ne_eq, not_true_eq_false, if_false, pure_eq_ok]
  split_ifs
  · obtain ⟨pr, w, hrun, hok⟩ := inherit_spec (p := p) fuel o hw ((reachCount_le_card _ o).trans hfuel)
    exact ⟨pr, w, hrun, hok⟩
  · exact ⟨s.priority, _, rfl, hw⟩

/-! ## The lists of locked mutexes -/

omit [SchedulerPriority P] [DecidableEq C] [DecidableEq T] in
theorem unlinkAfter_spec : ∀ (fuel : ℕ) (w : M) (l : List M), Linked s.next (some w) (w :: l) →
    (w :: l).Nodup → m ∈ l → l.length ≤ fuel → ∃ x ∈ w :: l,
      unlinkAfter m fuel s w = .ok { s with next := Function.update s.next x (s.next m) } ∧
        Linked (Function.update s.next x (s.next m)) (some w) (w :: l.erase m)
  | _, _, [], _, _, hm, _ => by cases hm
  | 0, _, _ :: _, _, _, _, hf => by simp at hf
  | fuel + 1, w, n :: l, hl, hnd, hm, hf => by
    have hw : s.next w = some n := hl.2.1
    obtain ⟨hwl, hnd'⟩ := List.nodup_cons.1 hnd
    rw [unlinkAfter, hw]
    by_cases hn : n = m
    · subst hn
      refine ⟨w, List.mem_cons_self, if_pos rfl, rfl, ?_⟩
      rw [Function.update_self, List.erase_cons_head]
      exact hl.2.2.update_of_notMem (fun h => hwl (List.mem_cons_of_mem _ h)) _
    · have hml : m ∈ l := (List.mem_cons.1 hm).resolve_left (Ne.symm hn)
      have hnl : Linked s.next (some n) (n :: l) := ⟨rfl, hl.2.2⟩
      obtain ⟨x, hx, hrun, hlink⟩ := unlinkAfter_spec fuel n l hnl hnd' hml (by simpa using hf)
      refine ⟨x, List.mem_cons_of_mem _ hx, by rw [← hrun]; exact if_neg hn, rfl, ?_⟩
      rw [Function.update_of_ne (by rintro rfl; exact hwl hx), hw,
        List.erase_cons_tail (by simpa using hn)]
      exact hlink

omit [SchedulerPriority P] [DecidableEq C] in
/-- **The mutex leaves the list of its owner.** -/
theorem removeLocked_spec {l : List M} (hl : Linked s.next (s.mutexLocked p) l) (hnd : l.Nodup)
    (hm : m ∈ l) (hf : l.length ≤ fuel) : ∃ next f, s.removeLocked fuel m p =
      .ok { s with next := next, mutexLocked := Function.update s.mutexLocked p f } ∧
        Linked next f (l.erase m) ∧ ∀ x, x ∉ l → next x = s.next x := by
  cases l with
  | nil => cases hm
  | cons w l =>
    rw [removeLocked, hl.1]
    by_cases hw : w = m
    · subst hw
      refine ⟨s.next, s.next w, by simp, ?_, fun _ _ => rfl⟩
      rw [List.erase_cons_head]
      exact hl.2
    · have hml : m ∈ l := (List.mem_cons.1 hm).resolve_left (Ne.symm hw)
      obtain ⟨x, hx, hrun, hlink⟩ := unlinkAfter_spec (s := s) fuel w l ⟨rfl, hl.2⟩ hnd hml
        (by simp only [List.length_cons] at hf; omega)
      have hsame : Function.update s.mutexLocked p (some w) = s.mutexLocked := by
        rw [← hl.1, Function.update_eq_self]
      refine ⟨Function.update s.next x (s.next m), some w, ?_, ?_, fun y hy => ?_⟩
      · rw [hsame]
        exact (if_neg hw).trans hrun
      · rwa [List.erase_cons_tail (by simpa using hw)]
      · exact Function.update_of_ne (by rintro rfl; exact hy hx) _ _

/-- The largest of a priority and those of the first threads that wait for some mutexes. -/
def inheritedOver (s : MutexSystem P M C T) (less : P → P → Bool) (l : List M) (pr : P) : P :=
  l.foldl (fun pr m => s.raised less m pr) pr

omit [SchedulerPriority P] [DecidableEq M] [DecidableEq C] [DecidableEq T] in
theorem inheritedPriority_spec (less : P → P → Bool) : ∀ (fuel : ℕ) {first : Option M} {l : List M} (pr : P),
    Linked s.next first l → l.length ≤ fuel →
      s.inheritedPriority less fuel first pr = .ok (s.inheritedOver less l pr)
  | fuel, _, [], pr, hl, _ => by
    rw [show _ = none from hl]
    cases fuel <;> rfl
  | 0, _, _ :: _, _, _, hf => by simp at hf
  | fuel + 1, _, m :: l, pr, hl, hf => by
    rw [hl.1, inheritedPriority]
    exact inheritedPriority_spec less fuel _ hl.2 (by simpa using hf)

omit [SchedulerPriority P] [DecidableEq M] [DecidableEq C] [DecidableEq T] in
theorem LocksBut.length_le [Fintype M] {counts : M → Prop} (h : s.LocksBut locked counts) (t : T) :
    (locked t).length ≤ Fintype.card M := (h.nodup t).length_le_card

omit [SchedulerPriority P] [DecidableEq C] in
/-- The new owner puts the mutex in front of its list. -/
theorem LocksBut.takeOwnership (h : s.LocksBut locked (· ≠ m)) (t : T) :
    (s.takeOwnership m t).LocksOk (Function.update locked t (m :: locked t)) := by
  have hnot : ∀ u, m ∉ locked u := fun u hm => ((h.owned u m).1 hm).2 rfl
  refine ⟨fun u => ?_, fun u => ?_, fun u n => ?_⟩
  · by_cases hu : u = t
    · subst hu
      simp only [MutexSystem.takeOwnership, Function.update_self]
      exact (h.linked u).push (hnot u)
    · simp only [MutexSystem.takeOwnership, Function.update_of_ne hu]
      exact (h.linked u).update_of_notMem (hnot u) _
  · by_cases hu : u = t
    · subst hu
      rw [Function.update_self]
      exact List.nodup_cons.2 ⟨hnot u, h.nodup u⟩
    · rw [Function.update_of_ne hu]
      exact h.nodup u
  · have hmem : n ∈ Function.update locked t (m :: locked t) u ↔ n ∈ locked u ∨ n = m ∧ u = t := by
      by_cases hu : u = t
      · subst hu
        rw [Function.update_self, List.mem_cons]
        tauto
      · simp [hu]
    rw [hmem, h.owned]
    by_cases hn : n = m
    · subst hn
      simp [MutexSystem.takeOwnership, eq_comm]
    · simp [MutexSystem.takeOwnership, hn]

omit [SchedulerPriority P] [DecidableEq M] [DecidableEq C] [DecidableEq T] in
/-- A free mutex is in no list. -/
theorem LocksBut.of_free (h : s.LocksOk locked) (hfree : s.owner m = none) :
    s.LocksBut locked (· ≠ m) where
  linked := h.linked
  nodup := h.nodup
  owned t n := by
    rw [h.owned]
    refine and_congr_right fun hn => iff_of_true trivial ?_
    rintro rfl
    rw [hfree] at hn
    cases hn

omit [SchedulerPriority P] [DecidableEq C] in
/-- The mutex has left the list of its owner. -/
theorem LocksBut.removed (h : s.LocksOk locked) (ho : s.owner m = some p) {next : M → Option M}
    {f : Option M} (hl : Linked next f ((locked p).erase m))
    (hnext : ∀ x, x ∉ locked p → next x = s.next x) (pr : T → P) :
    LocksBut { s with next := next, mutexLocked := Function.update s.mutexLocked p f, priority := pr }
      (Function.update locked p ((locked p).erase m)) (· ≠ m) := by
  refine ⟨fun u => ?_, fun u => ?_, fun u n => ?_⟩
  · by_cases hu : u = p
    · subst hu
      simpa only [Function.update_self] using hl
    · simp only [Function.update_of_ne hu]
      refine (h.linked u).congr fun x hx => hnext x fun hxp => hu ?_
      exact Option.some.inj (((h.owned u x).1 hx).1.symm.trans ((h.owned p x).1 hxp).1)
  · by_cases hu : u = p
    · subst hu
      rw [Function.update_self]
      exact (h.nodup u).erase m
    · rw [Function.update_of_ne hu]
      exact h.nodup u
  · by_cases hu : u = p
    · subst hu
      rw [Function.update_self, (h.nodup u).mem_erase_iff, h.owned]
      tauto
    · rw [Function.update_of_ne hu, h.owned]
      refine and_congr_right fun hn => iff_of_true trivial ?_
      rintro rfl
      exact hu (Option.some.inj (hn.symm.trans ho))

/-! ## Handing over -/

/-- The mutex was given to the first thread that waits, and the others wait for it. -/
def granted (s : MutexSystem P M C T) (m : M) (u : T) (w : List T) : MutexSystem P M C T :=
  takeOwnership { s with
    waiting := Function.update s.waiting m w
    mutexWaiting := Function.update s.mutexWaiting u none
    wait := Function.update s.wait u false } m u

omit [DecidableEq C] in
theorem WaitsOk.granted {l w : List T} (h : s.WaitsOk) (hl : s.waiting m = u :: l) (hw : w.Perm l)
    (hheap : IsHeap s.level w) : (s.granted m u w).WaitsOk := by
  have hu : s.mutexWaiting u = some m := (h.queued m u).1 (hl ▸ List.mem_cons_self)
  have hnd := List.nodup_cons.1 (hl ▸ h.once m)
  have hmem : ∀ n t, t ∈ Function.update s.waiting m w n ↔ t ∈ s.waiting n ∧ t ≠ u := by
    intro n t
    by_cases hn : n = m
    · subst hn
      rw [Function.update_self, hw.mem_iff, hl, List.mem_cons]
      constructor
      · intro ht
        exact ⟨Or.inr ht, fun htu => hnd.1 (htu ▸ ht)⟩
      · rintro ⟨rfl | ht, hne⟩
        · exact absurd rfl hne
        · exact ht
    · rw [Function.update_of_ne hn]
      refine (and_iff_left_of_imp fun ht => ?_).symm
      rintro rfl
      exact hn (Option.some.inj (((h.queued n t).1 ht).symm.trans hu))
  have hwait : ∀ n t, Function.update s.mutexWaiting u none t = some n ↔
      s.mutexWaiting t = some n ∧ t ≠ u := by
    intro n t
    by_cases ht : t = u
    · subst ht
      simp
    · simp [ht]
  refine ⟨fun n t => ?_, fun n => ?_, fun n t ht => ?_, fun n => ?_, ?_⟩
  · exact (hmem n t).trans ((and_congr_left' (h.queued n t)).trans (hwait n t).symm)
  · by_cases hn : n = m
    · subst hn
      simp only [MutexSystem.granted, MutexSystem.takeOwnership, Function.update_self]
      exact hw.nodup_iff.2 hnd.2
    · simp only [MutexSystem.granted, MutexSystem.takeOwnership, Function.update_of_ne hn]
      exact h.once n
  · obtain ⟨ht, htu⟩ := (hwait n t).1 ht
    by_cases hn : n = m
    · subst hn
      exact ⟨u, Function.update_self _ _ _, htu.symm⟩
    · obtain ⟨o, ho, hot⟩ := h.owner_ne n t ht
      exact ⟨o, (Function.update_of_ne hn _ _).trans ho, hot⟩
  · by_cases hn : n = m
    · subst hn
      simp only [MutexSystem.granted, MutexSystem.takeOwnership, Function.update_self]
      exact hheap
    · simp only [MutexSystem.granted, MutexSystem.takeOwnership, Function.update_of_ne hn]
      exact h.heap n
  · refine h.acyclic.toSink (u := u) ?_ ?_
    · rintro a b ⟨n, hn, hb⟩
      obtain ⟨hn, -⟩ := (hwait n a).1 hn
      by_cases hnm : n = m
      · subst hnm
        exact Or.inl (Option.some.inj (hb.symm.trans (Function.update_self _ _ _)))
      · exact Or.inr ⟨n, hn, (Function.update_of_ne hnm _ _).symm.trans hb⟩
    · rintro b ⟨n, hn, -⟩
      exact ((hwait n u).1 hn).2 rfl

omit [DecidableEq M] [DecidableEq C] [DecidableEq T] in
theorem raised_eq_self {pr : P} (h : ∀ v ∈ s.waiting m, s.level v ≤ SchedulerPriority.level pr) :
    s.raised mutexLessOp m pr = pr := by
  unfold raised
  cases hl : (s.waiting m).head? with
  | none => rfl
  | some v => exact if_neg fun hlt => not_lt.2 (h v (List.mem_of_head? hl)) (of_decide_eq_true hlt)

omit [DecidableEq C] in
/-- **The next owner**: nobody, or a thread of the largest priority among those that wait. -/
theorem handOver_spec (h : s.WaitsOk) (m : M) :
    s.waiting m = [] ∧ s.handOver m = .ok { s with owner := Function.update s.owner m none } ∨
    ∃ u l w, s.waiting m = u :: l ∧ w.Perm l ∧ IsHeap s.level w ∧
      (∀ v ∈ l, s.level v ≤ s.level u) ∧ s.handOver m = .ok (s.granted m u w) := by
  cases hl : s.waiting m with
  | nil =>
    left
    simp only [handOver, hl, pure_eq_ok, and_self]
  | cons u l =>
    right
    have hheap := h.heap m
    rw [hl] at hheap
    have hu : s.mutexWaiting u = some m := (h.queued m u).1 (hl ▸ List.mem_cons_self)
    have hmax : ∀ v ∈ l, s.level v ≤ s.level u :=
      fun v hv => hheap.key_le_front (List.mem_cons_of_mem u hv)
    refine ⟨u, l, _, rfl, popHeap_perm s.level u l, isHeap_popHeap hheap, hmax, ?_⟩
    have hraised : (s.granted m u (popHeap s.level (u :: l)).dropLast).raised mutexLessOp m (s.priority u) =
        s.priority u := by
      refine raised_eq_self fun v hv => hmax v ?_
      simp only [MutexSystem.granted, MutexSystem.takeOwnership, Function.update_self] at hv
      exact (popHeap_perm s.level u l).mem_iff.1 hv
    simp only [handOver, hl, hu, ne_eq, not_true_eq_false, if_false, pure_eq_ok, changePriority_eq]
    change Except.ok ((s.granted m u _).pkSetPriority u ((s.granted m u _).raised mutexLessOp m (s.priority u))) = _
    rw [hraised]
    congr 1
    exact congrArg (fun pr => { s.granted m u _ with priority := pr })
      (Function.update_eq_self u s.priority)

omit [DecidableEq M] [DecidableEq C] in
/-- The priority of a thread once it has unlocked a mutex. -/
theorem restorePriority_spec {l : List M} (hl : Linked s.next (s.mutexLocked p) l)
    (hf : l.length ≤ fuel) : s.restorePriority fuel p =
      .ok (s.pkSetPriority p (s.inheritedOver mutexLessOp l (s.savedPriority p))) := by
  rw [restorePriority]
  cases l with
  | nil =>
    rw [show s.mutexLocked p = none from hl, if_pos rfl, changePriority_eq]
    rfl
  | cons w l =>
    rw [if_neg (by rw [hl.1]; exact Option.some_ne_none w), inheritedPriority_spec _ fuel _ hl hf, ok_bind,
      changePriority_eq]
    rfl

omit [DecidableEq C] in
/-- **The owner releases a mutex**: it leaves the list, the priority is computed again, and the mutex is
handed over. -/
theorem releaseMutex_spec [Fintype M] (hl : s.LocksOk locked) (ho : s.owner m = some p)
    (hf : Fintype.card M ≤ fuel) : ∃ next f, Linked next f ((locked p).erase m) ∧
      (∀ x, x ∉ locked p → next x = s.next x) ∧
      s.releaseMutex fuel m p = handOver { s with
        next := next
        mutexLocked := Function.update s.mutexLocked p f
        priority := Function.update s.priority p
          (s.inheritedOver mutexLessOp ((locked p).erase m) (s.savedPriority p)) } m := by
  have hlen := (hl.length_le p).trans hf
  obtain ⟨next, f, hrun, hlink, hnext⟩ := removeLocked_spec (hl.linked p) (hl.nodup p)
    ((hl.owned p m).2 ⟨ho, trivial⟩) hlen
  refine ⟨next, f, hlink, hnext, ?_⟩
  rw [releaseMutex, hrun, ok_bind, restorePriority_spec (l := (locked p).erase m) (by simpa using hlink)
    (List.length_erase_le.trans hlen)]
  rfl

end MutexSystem

end Miosix
