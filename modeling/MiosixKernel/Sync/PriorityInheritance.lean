import MiosixKernel.Lib.Inherit
import MiosixKernel.Sync.MutexSteps

/-!
# Mutexes with priority inheritance: the priorities

A thread is worth its own priority and those of the threads that wait for the mutexes that it owns. The walk of
a lock writes the priority of the thread that waits over those of all the threads ahead of it, also where these
are higher.

* `PrioritiesExact`: the priority of every thread is what it is worth;
* `Inherited`: the invariant, with `take_inherited`, `release_inherited` and `setPriority_inherited` for the
  sections that keep it;
* `Enters`, `RaisesOnly`: a thread enters a heap, and no thread ahead of it has a higher priority;
* **`exactRun_iff`**: the priorities are exact in every state of a run, and no lock lowers one, if and only if
  no walk of the run comes to a higher priority.
-/

namespace Miosix

open Lib Relation

/-- The schedulers with priority inheritance: `<` is the comparison of the mutexes. -/
class InheritsPriority (P : Type) [SchedulerPriority P] : Prop where
  less_eq : ∀ a b : P, SchedulerPriority.less a b = mutexLessOp a b

instance : InheritsPriority PrioritySchedulerPriority := ⟨fun _ _ => rfl⟩

instance : InheritsPriority EDFSchedulerPriority := ⟨fun _ _ => rfl⟩

namespace MutexSystem

variable {P M C T : Type} [SchedulerPriority P] [DecidableEq M] [DecidableEq C] [DecidableEq T]
  {s s' r : MutexSystem P M C T} {locked : T → List M} {cq : C → List T} {isRecursive : M → Bool}
  {m n : M} {c : C} {p t o u : T} {fuel : ℕ} {e : Event P M C T}

/-! ## What a thread is worth -/

/-- The priority of a thread that inherits none. -/
def basePriority (s : MutexSystem P M C T) (t : T) : P :=
  if s.mutexLocked t = none then s.lastSet t else s.savedPriority t

/-- The thread is in the heap of a mutex that the other one owns. -/
def Lends (s : MutexSystem P M C T) (u t : T) : Prop := ∃ m, s.owner m = some t ∧ u ∈ s.waiting m

/-- The priority of every thread is the largest of its own one and of those of the threads that wait for the
mutexes that it owns. -/
def PrioritiesExact (s : MutexSystem P M C T) : Prop :=
  LevelsExact s.Lends (fun t => SchedulerPriority.level (s.basePriority t)) s.level

/-- What a thread saved when it locked its first mutex counts for what it set last. -/
def BaseSaved (s : MutexSystem P M C T) : Prop :=
  ∀ t, s.mutexLocked t ≠ none → SchedulerPriority.level (s.savedPriority t) = SchedulerPriority.level (s.lastSet t)

structure Inherited (s : MutexSystem P M C T) : Prop where
  saved : s.BaseSaved
  exact : LevelsExact s.WaitsFor (fun t => SchedulerPriority.level (s.lastSet t)) s.level

omit [DecidableEq M] [DecidableEq C] [DecidableEq T] in
theorem WaitsOk.lends_iff (h : s.WaitsOk) : s.Lends u t ↔ s.WaitsFor u t :=
  exists_congr fun m => by rw [h.queued, and_comm]

omit [DecidableEq M] [DecidableEq C] [DecidableEq T] in
theorem BaseSaved.basePriority_level (h : s.BaseSaved) (t : T) :
    SchedulerPriority.level (s.basePriority t) = SchedulerPriority.level (s.lastSet t) := by
  unfold basePriority
  split_ifs with hm
  · rfl
  · exact h t hm

omit [DecidableEq M] [DecidableEq C] [DecidableEq T] in
theorem prioritiesExact_iff (hw : s.WaitsOk) (hs : s.BaseSaved) : s.PrioritiesExact ↔
    LevelsExact s.WaitsFor (fun t => SchedulerPriority.level (s.lastSet t)) s.level :=
  ⟨fun h => h.congr (fun _ _ => hw.lends_iff.symm) (fun t => (hs.basePriority_level t).symm) fun _ => rfl,
    fun h => h.congr (fun _ _ => hw.lends_iff) hs.basePriority_level fun _ => rfl⟩

omit [SchedulerPriority P] [DecidableEq M] [DecidableEq C] [DecidableEq T] in
theorem LocksOk.not_owner (hl : s.LocksOk locked) (ht : s.mutexLocked t = none) (m : M) : s.owner m ≠ some t := by
  intro hown
  have hm : m ∈ locked t := (hl.owned t m).2 ⟨hown, trivial⟩
  rw [(hl.linked t).eq_nil_iff.2 ht] at hm
  cases hm

omit [SchedulerPriority P] [DecidableEq M] [DecidableEq C] [DecidableEq T] in
theorem LocksOk.not_waitsFor (hl : s.LocksOk locked) (ht : s.mutexLocked t = none) (u : T) : ¬ s.WaitsFor u t :=
  fun ⟨m, _, hown⟩ => hl.not_owner ht m hown

/-! ## The largest priority -/

omit [DecidableEq M] [DecidableEq C] [DecidableEq T] in
theorem raised_isGreatest (hheap : IsHeap s.level (s.waiting m)) (pr : P) :
    IsGreatest {x | x = SchedulerPriority.level pr ∨ ∃ u ∈ s.waiting m, x = s.level u}
      (SchedulerPriority.level (s.raised mutexLessOp m pr)) := by
  unfold raised
  cases hl : s.waiting m with
  | nil =>
    refine ⟨Or.inl rfl, ?_⟩
    rintro x (rfl | ⟨u, hu, -⟩)
    · exact le_rfl
    · cases hu
  | cons v l =>
    rw [hl] at hheap
    have hv : ∀ u ∈ v :: l, s.level u ≤ s.level v := fun u hu => hheap.key_le_front hu
    rw [List.head?_cons]
    dsimp only
    split_ifs with hlt
    · refine ⟨Or.inr ⟨v, List.mem_cons_self, rfl⟩, ?_⟩
      rintro x (rfl | ⟨u, hu, rfl⟩)
      · exact (of_decide_eq_true hlt).le
      · exact hv u hu
    · refine ⟨Or.inl rfl, ?_⟩
      rintro x (rfl | ⟨u, hu, rfl⟩)
      · exact le_rfl
      · exact (hv u hu).trans (not_lt.1 fun h => hlt (decide_eq_true h))

omit [DecidableEq M] [DecidableEq C] [DecidableEq T] in
theorem inheritedOver_isGreatest (hheap : ∀ m, IsHeap s.level (s.waiting m)) (l : List M) (pr : P) :
    IsGreatest {x | x = SchedulerPriority.level pr ∨ ∃ m ∈ l, ∃ u ∈ s.waiting m, x = s.level u}
      (SchedulerPriority.level (s.inheritedOver mutexLessOp l pr)) := by
  induction l generalizing pr with
  | nil =>
    refine ⟨Or.inl rfl, ?_⟩
    rintro x (rfl | ⟨m, hm, -⟩)
    · exact le_rfl
    · cases hm
  | cons m l ih =>
    obtain ⟨hmem, hle⟩ := raised_isGreatest (hheap m) pr
    obtain ⟨hmem', hle'⟩ := ih (s.raised mutexLessOp m pr)
    refine ⟨?_, ?_⟩
    · obtain heq | ⟨n, hn, u, hu, heq⟩ := hmem'
      · obtain hpr | ⟨u, hu, hpr⟩ := hmem
        · exact Or.inl (heq.trans hpr)
        · exact Or.inr ⟨m, List.mem_cons_self, u, hu, heq.trans hpr⟩
      · exact Or.inr ⟨n, List.mem_cons_of_mem m hn, u, hu, heq⟩
    · have hself := hle' (Or.inl rfl)
      rintro x (rfl | ⟨n, hn, u, hu, rfl⟩)
      · exact (hle (Or.inl rfl)).trans hself
      · obtain rfl | hn := List.mem_cons.1 hn
        · exact (hle (Or.inr ⟨u, hu, rfl⟩)).trans hself
        · exact hle' (Or.inr ⟨n, hn, u, hu, rfl⟩)

omit [DecidableEq M] [DecidableEq C] [DecidableEq T] in
/-- What a thread is worth, when those that wait for it are the threads in the heaps of some mutexes. -/
theorem inheritedOver_offers (hw : s.WaitsOk) {waits : T → T → Prop} {own : T → SchedulerPriority.Level P}
    {l : List M} {pr : P} (hown : own p = SchedulerPriority.level pr)
    (hwaits : ∀ u, waits u p ↔ ∃ n ∈ l, s.mutexWaiting u = some n) :
    IsGreatest (offers waits own s.level p) (SchedulerPriority.level (s.inheritedOver mutexLessOp l pr)) := by
  have hset : offers waits own s.level p =
      {x | x = SchedulerPriority.level pr ∨ ∃ n ∈ l, ∃ u ∈ s.waiting n, x = s.level u} := by
    ext x
    refine or_congr (by rw [hown]) ⟨?_, ?_⟩
    · rintro ⟨u, hu, hx⟩
      obtain ⟨n, hn, hun⟩ := (hwaits u).1 hu
      exact ⟨n, hn, u, (hw.queued n u).2 hun, hx⟩
    · rintro ⟨n, hn, u, hu, hx⟩
      exact ⟨u, (hwaits u).2 ⟨n, hn, (hw.queued n u).1 hu⟩, hx⟩
  rw [hset]
  exact inheritedOver_isGreatest hw.heap l pr

/-! ## The sections that keep the invariant -/

omit [DecidableEq C] in
/-- A thread that owns nothing saves its priority, which is its own. -/
theorem BaseSaved.take (h : s.BaseSaved) (hp : s.mutexLocked p = none →
    s.level p = SchedulerPriority.level (s.lastSet p)) : (s.takeOwnership m p).BaseSaved := by
  intro t ht
  simp only [takeOwnership] at ht ⊢
  by_cases htp : t = p
  · subst htp
    split_ifs with hnone
    · rw [Function.update_self]
      exact hp hnone
    · exact h t hnone
  · rw [Function.update_of_ne htp] at ht
    split_ifs
    · rw [Function.update_of_ne htp]
      exact h t ht
    · exact h t ht

omit [DecidableEq C] in
/-- A free mutex gets an owner. -/
theorem take_inherited (hi : s.Inherited) (hl : s.LocksOk locked) (hw : s.WaitsOk) (hfree : s.owner m = none)
    (p : T) : (s.takeOwnership m p).Inherited where
  saved := hi.saved.take fun hp => hi.exact.eq_own (hl.not_waitsFor hp)
  exact := by
    refine hi.exact.congr (fun u t => exists_congr fun n => and_congr_right fun hn => ?_) (fun _ => rfl)
      fun _ => rfl
    obtain ⟨o, ho, -⟩ := hw.owner_ne n u hn
    have hnm : n ≠ m := by
      rintro rfl
      cases hfree.symm.trans ho
    exact iff_of_eq (congrArg (· = some t) (Function.update_of_ne hnm _ _))

/-- A thread waits for another one, but not for the mutex. -/
def WaitsBut (s : MutexSystem P M C T) (m : M) (u t : T) : Prop :=
  ∃ n, n ≠ m ∧ s.mutexWaiting u = some n ∧ s.owner n = some t

omit [DecidableEq C] in
/-- The owner has released the mutex, which has no next owner yet. -/
theorem released_exact (hi : s.Inherited) (hl : s.LocksOk locked) (hw : s.WaitsOk) (hown : s.owner m = some p)
    (hp : s.mutexWaiting p = none) :
    LevelsExact (s.WaitsBut m) (fun t => SchedulerPriority.level (s.lastSet t))
      (s.pkSetPriority p (s.inheritedOver mutexLessOp ((locked p).erase m) (s.savedPriority p))).level := by
  have hlocked : s.mutexLocked p ≠ none := fun hnone => hl.not_owner hnone m hown
  rw [pkSetPriority_level]
  refine hi.exact.recompute (p := p) (fun u t ht => ?_) (fun _ _ => rfl)
    (fun t ht => Function.update_of_ne ht _ _) ?_ ?_
  · refine ⟨fun ⟨n, _, hn, ho⟩ => ⟨n, hn, ho⟩, fun ⟨n, hn, ho⟩ => ⟨n, ?_, hn, ho⟩⟩
    rintro rfl
    exact ht (Option.some.inj (ho.symm.trans hown))
  · rintro t ⟨n, -, hn, -⟩
    cases hp.symm.trans hn
  · rw [Function.update_self]
    refine inheritedOver_offers hw (hi.saved p hlocked).symm fun u => exists_congr fun n => ?_
    rw [(hl.nodup p).mem_erase_iff, hl.owned, and_assoc]
    tauto

omit [SchedulerPriority P] [DecidableEq C] in
theorem granted_mutexWaiting {w : List T} {v : T} :
    (s.granted m u w).mutexWaiting v = some n ↔ v ≠ u ∧ s.mutexWaiting v = some n := by
  by_cases hv : v = u
  · subst hv
    simp [MutexSystem.granted, takeOwnership]
  · simp [MutexSystem.granted, takeOwnership, hv]

omit [SchedulerPriority P] [DecidableEq C] in
theorem granted_owner (w : List T) : (s.granted m u w).owner = Function.update s.owner m (some u) := rfl

omit [DecidableEq C] in
/-- The next owner is worth what it was, since no thread that waits for the mutex has a higher priority. -/
theorem granted_exact {l w : List T} (hw : s.WaitsOk)
    (hexact : LevelsExact (s.WaitsBut m) (fun t => SchedulerPriority.level (s.lastSet t)) s.level)
    (hl : s.waiting m = u :: l) (hmax : ∀ v ∈ l, s.level v ≤ s.level u) :
    LevelsExact (s.granted m u w).WaitsFor (fun t => SchedulerPriority.level (s.lastSet t)) s.level := by
  have hu : s.mutexWaiting u = some m := (hw.queued m u).1 (hl ▸ List.mem_cons_self)
  -- those that wait for another mutex wait for whom they did before
  have hold : ∀ v t, s.WaitsBut m v t → (s.granted m u w).WaitsFor v t := by
    rintro v t ⟨n, hn, hv, ho⟩
    refine ⟨n, granted_mutexWaiting.2 ⟨?_, hv⟩, ?_⟩
    · rintro rfl
      exact hn (Option.some.inj (hv.symm.trans hu))
    · rwa [granted_owner, Function.update_of_ne hn]
  have hnew : ∀ v t, (s.granted m u w).WaitsFor v t → s.WaitsBut m v t ∨ v ∈ l ∧ t = u := by
    rintro v t ⟨n, hgranted, ho⟩
    obtain ⟨hvu, hv⟩ := granted_mutexWaiting.1 hgranted
    rw [granted_owner] at ho
    by_cases hn : n = m
    · subst hn
      rw [Function.update_self] at ho
      have hmem := (hw.queued n v).2 hv
      rw [hl] at hmem
      exact Or.inr ⟨(List.mem_cons.1 hmem).resolve_left hvu, (Option.some.inj ho).symm⟩
    · rw [Function.update_of_ne hn] at ho
      exact Or.inl ⟨n, hn, hv, ho⟩
  refine hexact.recompute (p := u) (fun v t ht => ⟨fun h => ?_, hold v t⟩) (fun _ _ => rfl) (fun _ _ => rfl) ?_ ?_
  · exact (hnew v t h).resolve_right fun h' => ht h'.2
  · rintro t ⟨n, hn, -⟩
    exact (granted_mutexWaiting.1 hn).1 rfl
  · refine ⟨?_, ?_⟩
    · obtain heq | ⟨v, hv, hx⟩ := (hexact u).1
      · exact Or.inl heq
      · exact Or.inr ⟨v, hold v u hv, hx⟩
    · rintro x (rfl | ⟨v, hv, rfl⟩)
      · exact hexact.own_le u
      · obtain hv | ⟨hv, -⟩ := hnew v u hv
        · exact hexact.le_of_waits hv
        · exact hmax v hv

omit [DecidableEq C] in
/-- **The owner releases a mutex**, and the next owner, if any, gets it. -/
theorem release_inherited [Fintype M] (hi : s.Inherited) (hl : s.LocksOk locked) (hw : s.WaitsOk)
    (hown : s.owner m = some p) (hp : s.mutexWaiting p = none) (hf : Fintype.card M ≤ fuel)
    (hr : s.releaseMutex fuel m p = .ok r) : r.Inherited := by
  obtain ⟨next, f, hlink, -, hrun⟩ := releaseMutex_spec hl hown hf
  have hw₁ := hw.pkSetPriority hp (s.inheritedOver mutexLessOp ((locked p).erase m) (s.savedPriority p))
  rw [hrun] at hr
  set s₁ : MutexSystem P M C T := { s with
    next := next
    mutexLocked := Function.update s.mutexLocked p f
    priority := Function.update s.priority p
      (s.inheritedOver mutexLessOp ((locked p).erase m) (s.savedPriority p)) } with hs₁
  have hw₂ : s₁.WaitsOk := ⟨hw₁.queued, hw₁.once, hw₁.owner_ne, hw₁.heap, hw₁.acyclic⟩
  have hexact₁ : LevelsExact (s₁.WaitsBut m) (fun t => SchedulerPriority.level (s₁.lastSet t)) s₁.level :=
    released_exact hi hl hw hown hp
  have hsaved : s₁.BaseSaved := by
    intro t ht
    refine hi.saved t fun hnone => ?_
    by_cases htp : t = p
    · exact hl.not_owner (htp ▸ hnone) m hown
    · exact ht ((Function.update_of_ne htp _ _).trans hnone)
  obtain ⟨hnil, hrun'⟩ | ⟨u, l, w, hcons, -, -, hmax, hrun'⟩ := handOver_spec hw₂ m
  · rw [hrun'] at hr
    cases hr
    refine ⟨hsaved, hexact₁.congr (fun v t => exists_congr fun n => ?_) (fun _ => rfl) fun _ => rfl⟩
    by_cases hn : n = m
    · subst hn
      simp
    · simp [hn]
  · rw [hrun'] at hr
    cases hr
    refine ⟨BaseSaved.take hsaved fun hnone => hexact₁.eq_own ?_, granted_exact hw₂ hexact₁ hcons hmax⟩
    rintro v ⟨n, -, -, ho⟩
    have hup : u ≠ p := by
      rintro rfl
      rw [(hw.queued m u).1 (by rw [show s.waiting m = u :: l from hcons]; exact List.mem_cons_self)] at hp
      cases hp
    exact hl.not_owner ((Function.update_of_ne hup _ _).symm.trans hnone) n ho

omit [DecidableEq M] [DecidableEq C] in
/-- A thread that does not wait sets its priority, and inherits as before. -/
theorem set_exact (hi : s.Inherited) (hl : s.LocksOk locked) (hw : s.WaitsOk) (hp : s.mutexWaiting p = none)
    (pr : P) : LevelsExact s.WaitsFor (fun t => SchedulerPriority.level (Function.update s.lastSet p pr t))
      (s.pkSetPriority p (s.inheritedOver mutexLessOp (locked p) pr)).level := by
  rw [pkSetPriority_level]
  refine hi.exact.recompute (p := p) (fun _ _ _ => Iff.rfl) (fun t ht => ?_)
    (fun t ht => Function.update_of_ne ht _ _) ?_ ?_
  · rw [Function.update_of_ne ht]
  · rintro t ⟨n, hn, -⟩
    cases hp.symm.trans hn
  · rw [Function.update_self]
    refine inheritedOver_offers hw (by rw [Function.update_self]) fun u => exists_congr fun n => ?_
    rw [hl.owned]
    tauto

omit [DecidableEq M] [DecidableEq C] in
theorem setPriority_inherited [Fintype M] [InheritsPriority P] (hi : s.Inherited) (hl : s.LocksOk locked)
    (hw : s.WaitsOk) (hp : s.mutexWaiting p = none) (hf : Fintype.card M ≤ fuel) {pr : P}
    (hs : s.setPriority fuel p pr = .ok s') : s'.Inherited := by
  obtain ⟨pr', saved, set, hset, hrun⟩ := setPriority_spec (hl.linked p) ((hl.length_le p).trans hf) pr
  cases hrun.symm.trans hs
  have hsame : (s.pkSetPriority p (s.priority p)).level = s.level := by
    rw [pkSetPriority_level]
    exact Function.update_eq_self p s.level
  cases hset with
  | invalid => exact ⟨hi.saved, hi.exact.congr (fun _ _ => Iff.rfl) (fun _ => rfl) (congrFun hsame)⟩
  | free hnil =>
    have hexact := set_exact hi hl hw hp pr
    rw [hnil] at hexact
    refine ⟨fun t ht => (hi.saved t ht).trans (congrArg _ (Function.update_of_ne ?_ _ _).symm), hexact⟩
    rintro rfl
    exact ht ((hl.linked t).eq_nil_iff.1 hnil)
  | same hne hsaved =>
    have hlast : ∀ t, SchedulerPriority.level (Function.update s.lastSet p pr t) =
        SchedulerPriority.level (s.lastSet t) := by
      intro t
      by_cases htp : t = p
      · subst htp
        rw [Function.update_self, ← hsaved]
        exact hi.saved t fun hnone => hne ((hl.linked t).eq_nil_iff.2 hnone)
      · rw [Function.update_of_ne htp]
    exact ⟨fun t ht => (hi.saved t ht).trans (hlast t).symm,
      hi.exact.congr (fun _ _ => Iff.rfl) hlast (congrFun hsame)⟩
  | changed hne =>
    have hexact := set_exact hi hl hw hp pr
    have hless : (SchedulerPriority.less : P → P → Bool) = mutexLessOp :=
      funext₂ InheritsPriority.less_eq
    rw [← hless] at hexact
    refine ⟨fun t ht => ?_, hexact⟩
    by_cases htp : t = p
    · subst htp
      simp only [Function.update_self]
    · simp only [Function.update_of_ne htp]
      exact hi.saved t ht

/-! ## A thread enters a heap -/

/-- A thread enters the heap of a mutex that the other one owns: if the owner has a lower priority, all the
threads ahead get that of the thread. -/
structure Enters (s s' : MutexSystem P M C T) (t o : T) : Prop where
  waits : ∀ a b, s'.WaitsFor a b ↔ s.WaitsFor a b ∨ a = t ∧ b = o
  saved : s'.savedPriority = s.savedPriority
  lastSet : s'.lastSet = s.lastSet
  locked : s'.mutexLocked = s.mutexLocked
  raised : s.level o < s.level t → ∀ u, ReflTransGen s.WaitsFor o u → s'.level u = s.level t
  others : s.level o < s.level t → ∀ u, ¬ ReflTransGen s.WaitsFor o u → s'.level u = s.level u
  same : ¬ s.level o < s.level t → s'.level = s.level

omit [SchedulerPriority P] [DecidableEq M] [DecidableEq C] in
/-- The thread waits for the owner, and every other one for whom it did. -/
theorem enter_waitsFor (hp : s.mutexWaiting p = none) (ho : s.owner m = some o)
    (hm : s'.mutexWaiting = Function.update s.mutexWaiting p (some m)) (hown : s'.owner = s.owner) (t u : T) :
    s'.WaitsFor t u ↔ s.WaitsFor t u ∨ t = p ∧ u = o := by
  unfold WaitsFor
  rw [hm, hown]
  by_cases ht : t = p
  · subst ht
    simp [hp, ho, eq_comm]
  · simp [ht]

/-- The thread is in the heap, and has not lent its priority. -/
def entered (s : MutexSystem P M C T) (m : M) (p : T) : MutexSystem P M C T :=
  { s with
    waiting := Function.update s.waiting m (pushHeap s.level (s.waiting m ++ [p]))
    mutexWaiting := Function.update s.mutexWaiting p (some m) }

omit [DecidableEq C] in
theorem enterWaiting_eq (hp : s.mutexWaiting p = none) : s.enterWaiting fuel m p o =
    if s.level o < s.level p then inherit p fuel (s.entered m p) o else .ok (s.entered m p) := by
  simp only [enterWaiting, hp, ne_eq, not_true_eq_false, if_false]
  rfl

omit [DecidableEq C] in
theorem enterWaiting_enters [Fintype T] (hw : s.WaitsOk) (hf : Fintype.card T ≤ fuel)
    (hp : s.mutexWaiting p = none) (ho : s.owner m = some o) (hop : o ≠ p) (hno : ¬ ReflTransGen s.WaitsFor o p) :
    ∃ r, s.enterWaiting fuel m p o = .ok r ∧ Enters s r p o := by
  obtain ⟨pr, w, hrun, -⟩ := enterWaiting_spec hw hf hp ho hop hno
  have hwaits : ∀ t u, (s.entered m p).WaitsFor t u ↔ s.WaitsFor t u ∨ t = p ∧ u = o :=
    enter_waitsFor hp ho rfl rfl
  refine ⟨_, hrun, hwaits, rfl, rfl, rfl, fun hlt u hu => ?_, fun hlt u hu => ?_, fun hlt => ?_⟩
  all_goals rw [enterWaiting_eq hp] at hrun
  · rw [if_pos hlt] at hrun
    exact congrArg SchedulerPriority.level
      ((inherit_priority hrun).1 u ((reflTransGen_insert hwaits hno).2 hu))
  · rw [if_pos hlt] at hrun
    exact congrArg SchedulerPriority.level
      ((inherit_priority hrun).2 u fun h => hu ((reflTransGen_insert hwaits hno).1 h))
  · rw [if_neg hlt] at hrun
    cases hrun
    rfl

omit [DecidableEq M] [DecidableEq C] [DecidableEq T] in
theorem Enters.baseSaved (h : Enters s s' t o) (hi : s.BaseSaved) : s'.BaseSaved := fun u hu => by
  rw [h.saved, h.lastSet]
  exact hi u (by rwa [h.locked] at hu)

omit [DecidableEq M] [DecidableEq C] [DecidableEq T] in
/-- No thread ahead has a higher priority than the one that enters. -/
theorem Enters.inherited (h : Enters s s' t o) (hi : s.Inherited) (hno : ¬ ReflTransGen s.WaitsFor o t)
    (hle : s.level o < s.level t → ∀ u, ReflTransGen s.WaitsFor o u → s.level u ≤ s.level t) : s'.Inherited where
  saved := h.baseSaved hi.saved
  exact := by
    rw [h.lastSet]
    by_cases hlt : s.level o < s.level t
    · exact hi.exact.lend (h.raised hlt) (h.others hlt) h.waits hno (hle hlt)
    · rw [h.same hlt]
      exact hi.exact.wait h.waits (not_lt.1 hlt)

omit [DecidableEq M] [DecidableEq C] [DecidableEq T] in
theorem Enters.level_le (h : Enters s s' t o)
    (hle : s.level o < s.level t → ∀ u, ReflTransGen s.WaitsFor o u → s.level u ≤ s.level t) (u : T) :
    s.level u ≤ s'.level u := by
  by_cases hlt : s.level o < s.level t
  · by_cases hu : ReflTransGen s.WaitsFor o u
    · rw [h.raised hlt u hu]
      exact hle hlt u hu
    · rw [h.others hlt u hu]
  · rw [h.same hlt]

omit [DecidableEq M] [DecidableEq C] [DecidableEq T] in
/-- A thread ahead has a higher priority, which is written over. -/
theorem Enters.not_exact (h : Enters s s' t o) (hi : s.Inherited) (hw : s.WaitsOk) (hlt : s.level o < s.level t)
    (hu : ReflTransGen s.WaitsFor o u) (hhigh : s.level t < s.level u) :
    ¬ LevelsExact s'.WaitsFor (fun t => SchedulerPriority.level (s'.lastSet t)) s'.level := by
  rw [h.lastSet]
  exact hi.exact.not_lend (h.raised hlt) (h.others hlt) (fun a b hab => (h.waits a b).2 (Or.inl hab)) hw.acyclic
    (fun _ _ _ hab hac => hab.unique hac) hlt hu hhigh

/-! ## Steps -/

/-- If a lock starts the walk, no thread that the walk comes to has a higher priority than the one that locks. -/
def RaisesOnly (s : MutexSystem P M C T) (e : Event P M C T) : Prop :=
  ∀ t m o, s.Locks e t m → s.owner m = some o → o ≠ t → s.level o < s.level t →
    ∀ u, ReflTransGen s.WaitsFor o u → s.level u ≤ s.level t

/-- A thread that locks a mutex of another thread enters its heap. -/
theorem step_enters [Fintype T] (h : Inv isRecursive s locked cq) (hf : Fintype.card T ≤ fuel)
    (hno : ¬ s.ClosesCycle e) (hlocks : s.Locks e t m) (ho : s.owner m = some o) (hot : o ≠ t) :
    ∃ s', s.step fuel e = .ok s' ∧ Enters s s' t o := by
  have hreach : ¬ ReflTransGen s.WaitsFor o t := fun hr => hno ⟨t, m, o, hlocks, ho, hot, hr⟩
  cases e with
  | lock u n =>
    obtain ⟨hp, rfl, rfl⟩ := hlocks
    obtain ⟨r, hr, henters⟩ := enterWaiting_enters h.waits hf (h.places.not_waiting (by rw [hp]; rfl)) ho hot hreach
    refine ⟨(r.setWait u true).setPc u (.locking n), ?_, henters.waits, henters.saved, henters.lastSet,
      henters.locked, henters.raised, henters.others, henters.same⟩
    rw [step, if_pos hp, pkLock, ho]
    dsimp only
    rw [if_neg hot, hr]
    rfl
  | resume u =>
    obtain ⟨rfl, c, depth, hp, hwait, hcond⟩ := hlocks
    obtain ⟨r, hr, henters⟩ := enterWaiting_enters h.waits hf (h.places.not_waiting (by rw [hp]; rfl)) ho hot hreach
    refine ⟨(r.setWait u true).setPc u (.relocking c m depth), ?_, henters.waits, henters.saved, henters.lastSet,
      henters.locked, henters.raised, henters.others, henters.same⟩
    rw [step, if_neg (by simp [hwait, hcond]), resume, hp]
    dsimp only
    rw [pkLockToDepth, ho]
    dsimp only
    rw [if_neg hot, hr]
    rfl
  | _ => cases hlocks

/-- The event is a section of a lock operation. -/
def Event.IsLock : Event P M C T → Prop
  | .lock _ _ | .tryLock _ _ | .resume _ => True
  | _ => False

/-- A section of a lock operation that does not enter a heap. -/
structure Keeps (s s' : MutexSystem P M C T) : Prop where
  inherited : s'.Inherited
  level : s'.level = s.level

omit [DecidableEq C] in
theorem pkLock_keeps (h : Inv isRecursive s locked cq) (hi : s.Inherited)
    (hfree : ∀ o, s.owner m = some o → o = p) (hs : s.pkLock fuel m p = .ok s') : Keeps s s' := by
  unfold pkLock at hs
  cases hown : s.owner m with
  | none =>
    rw [hown] at hs
    cases hs
    have ht := take_inherited hi h.locks h.waits hown p
    exact ⟨⟨ht.saved, ht.exact⟩, rfl⟩
  | some o =>
    rw [hown] at hs
    dsimp only at hs
    split_ifs at hs with hop hd
    · cases hs
      exact ⟨⟨hi.saved, hi.exact⟩, rfl⟩
    · exact absurd (hfree o hown) hop

omit [DecidableEq C] in
theorem pkTryLock_keeps {b : Bool} (h : Inv isRecursive s locked cq) (hi : s.Inherited)
    (hs : s.pkTryLock m p = (s', b)) : Keeps s s' := by
  unfold pkTryLock at hs
  cases hown : s.owner m with
  | none =>
    rw [hown] at hs
    cases hs
    have ht := take_inherited hi h.locks h.waits hown p
    exact ⟨⟨ht.saved, ht.exact⟩, rfl⟩
  | some o =>
    rw [hown] at hs
    dsimp only at hs
    split_ifs at hs
    · cases hs
      exact ⟨⟨hi.saved, hi.exact⟩, rfl⟩
    · cases hs
      exact ⟨hi, rfl⟩

omit [DecidableEq C] in
theorem condReturn_keeps {depth : ℕ} (hr : Keeps s r) : Keeps s ((r.restoreDepth m depth).condReturn m p) := by
  unfold restoreDepth
  split_ifs
  · exact ⟨⟨hr.inherited.saved, hr.inherited.exact⟩, hr.level⟩
  · exact ⟨⟨hr.inherited.saved, hr.inherited.exact⟩, hr.level⟩

omit [DecidableEq C] in
theorem pkLockToDepth_keeps {depth : ℕ} (h : Inv isRecursive s locked cq) (hi : s.Inherited)
    (hfree : ∀ o, s.owner m = some o → o = p) (hs : s.pkLockToDepth fuel c m p depth = .ok s') : Keeps s s' := by
  unfold pkLockToDepth at hs
  cases hown : s.owner m with
  | none =>
    rw [hown] at hs
    cases hs
    exact condReturn_keeps ⟨take_inherited hi h.locks h.waits hown p, rfl⟩
  | some o =>
    rw [hown] at hs
    dsimp only at hs
    split_ifs at hs with hop hd
    · cases hs
      exact ⟨⟨hi.saved, hi.exact⟩, rfl⟩
    · exact absurd (hfree o hown) hop

omit [DecidableEq C] in
theorem resume_keeps (h : Inv isRecursive s locked cq) (hi : s.Inherited) (hwait : s.wait t = false)
    (hcond : s.condWait t = false)
    (hfree : ∀ m o, s.Locks (.resume t) t m → s.owner m = some o → o = t) (hs : s.resume fuel t = .ok s') :
    Keeps s s' := by
  unfold resume at hs
  cases hp : s.pc t with
  | idle =>
    rw [hp] at hs
    cases hs
    exact ⟨hi, rfl⟩
  | locking m =>
    rw [hp] at hs
    dsimp only at hs
    split_ifs at hs
    · cases hs
      exact ⟨⟨hi.saved, hi.exact⟩, rfl⟩
    · cases hs
      exact ⟨⟨hi.saved, hi.exact⟩, rfl⟩
  | condWaiting c m depth =>
    rw [hp] at hs
    exact pkLockToDepth_keeps h hi (fun o => hfree m o ⟨rfl, c, depth, hp, hwait, hcond⟩) hs
  | relocking c m depth =>
    rw [hp] at hs
    dsimp only at hs
    split_ifs at hs
    · cases hs
      exact condReturn_keeps ⟨hi, rfl⟩
    · cases hs
      exact ⟨⟨hi.saved, hi.exact⟩, rfl⟩

/-- A step in which no thread enters a heap keeps the invariant. A lock changes no priority then. -/
theorem step_keeps [Fintype M] [InheritsPriority P] (h : Inv isRecursive s locked cq) (hi : s.Inherited)
    (hf : Fintype.card M ≤ fuel) (hfree : ∀ t m o, s.Locks e t m → s.owner m = some o → o = t)
    (hs : s.step fuel e = .ok s') : s'.Inherited ∧ (e.IsLock → s'.level = s.level) := by
  have hkeeps : Keeps s s' → s'.Inherited ∧ (e.IsLock → s'.level = s.level) :=
    fun hk => ⟨hk.inherited, fun _ => hk.level⟩
  cases e with
  | lock t m =>
    rw [step] at hs
    split_ifs at hs with hp
    · exact hkeeps (pkLock_keeps h hi (fun o => hfree t m o ⟨hp, rfl, rfl⟩) hs)
    · cases hs
      exact hkeeps ⟨hi, rfl⟩
  | tryLock t m =>
    rw [step] at hs
    split_ifs at hs with hp
    · cases hs
      exact hkeeps (pkTryLock_keeps (b := (s.pkTryLock m t).2) h hi rfl)
    · cases hs
      exact hkeeps ⟨hi, rfl⟩
  | unlock t m =>
    refine ⟨?_, fun hlock => hlock.elim⟩
    rw [step] at hs
    split_ifs at hs with hp
    · obtain ⟨r, hr, hs⟩ := bind_eq_ok (x := s.pkUnlock fuel m t) (f := fun r => .ok r.1) hs
      cases hs
      unfold pkUnlock at hr
      split_ifs at hr with hown hd
      · cases hr
        exact hi
      · cases hr
        exact ⟨hi.saved, hi.exact⟩
      · obtain ⟨r', hr', hr⟩ := bind_eq_ok hr
        cases hr
        have hrel := release_inherited hi h.locks h.waits (not_not.1 hown)
          (h.places.not_waiting (by rw [hp]; rfl)) hf hr'
        exact ⟨hrel.saved, hrel.exact⟩
    · cases hs
      exact hi
  | setPriority t pr =>
    refine ⟨?_, fun hlock => hlock.elim⟩
    rw [step] at hs
    split_ifs at hs with hp
    · exact setPriority_inherited hi h.locks h.waits (h.places.not_waiting (by rw [hp]; rfl)) hf hs
    · cases hs
      exact hi
  | wait t c m =>
    refine ⟨?_, fun hlock => hlock.elim⟩
    rw [step] at hs
    split_ifs at hs with hp
    · have hl := h.locks.enqueueCond c t
      have hw := h.waits.enqueueCond c t
      have hnone := h.places.not_waiting (t := t) (by rw [hp.1]; rfl)
      have hi₁ : (s.enqueueCond c t).Inherited := ⟨hi.saved, hi.exact⟩
      obtain ⟨r, -, hrun, -⟩ := release_spec hl hw hp.2 hnone hf
      rw [waitOn_eq hp.2 hrun] at hs
      cases hs
      have hrel := release_inherited hi₁ hl hw hp.2 hnone hf hrun
      exact ⟨hrel.saved, hrel.exact⟩
    · cases hs
      exact hi
  | signal t c =>
    refine ⟨?_, fun hlock => hlock.elim⟩
    rw [step] at hs
    split_ifs at hs with hp
    · cases hs
      unfold signal
      cases s.first c <;> exact ⟨hi.saved, hi.exact⟩
    · cases hs
      exact hi
  | broadcast t c =>
    refine ⟨?_, fun hlock => hlock.elim⟩
    rw [step] at hs
    split_ifs at hs with hp
    · obtain ⟨r, hr, hs⟩ := bind_eq_ok (x := broadcast c t fuel s false) (f := fun r => .ok r.1) hs
      cases hs
      obtain ⟨cw, f, rel, heq⟩ := broadcast_frame hr
      rw [heq]
      exact ⟨hi.saved, hi.exact⟩
    · cases hs
      exact hi
  | resume t =>
    by_cases hw : (s.wait t || s.condWait t) = true
    · rw [step, if_pos hw] at hs
      cases hs
      exact hkeeps ⟨hi, rfl⟩
    · rw [step, if_neg hw] at hs
      obtain ⟨hwait, hcond⟩ : s.wait t = false ∧ s.condWait t = false := by simpa using hw
      exact hkeeps (resume_keeps h hi hwait hcond (hfree t) hs)
  | wakeup t =>
    cases hs
    exact ⟨⟨hi.saved, hi.exact⟩, fun hlock => hlock.elim⟩

/-- **One step** that writes over no higher priority keeps the invariant, and a lock lowers no priority. -/
theorem step_inherited [Fintype T] [Fintype M] [InheritsPriority P] (h : Inv isRecursive s locked cq)
    (hi : s.Inherited) (hT : Fintype.card T < fuel) (hM : Fintype.card M < fuel) (hno : ¬ s.ClosesCycle e)
    (hr : s.RaisesOnly e) (hs : s.step fuel e = .ok s') :
    s'.Inherited ∧ (e.IsLock → ∀ t, s.level t ≤ s'.level t) := by
  by_cases henter : ∃ t m o, s.Locks e t m ∧ s.owner m = some o ∧ o ≠ t
  · obtain ⟨t, m, o, hlocks, ho, hot⟩ := henter
    obtain ⟨s₁, hs₁, henters⟩ := step_enters h hT.le hno hlocks ho hot
    cases hs₁.symm.trans hs
    exact ⟨henters.inherited hi (fun hreach => hno ⟨t, m, o, hlocks, ho, hot, hreach⟩) (hr t m o hlocks ho hot),
      fun _ => henters.level_le (hr t m o hlocks ho hot)⟩
  · obtain ⟨hi', hlevel⟩ := step_keeps h hi hM.le
      (fun t m o hlocks ho => not_not.1 fun hot => henter ⟨t, m, o, hlocks, ho, hot⟩) hs
    exact ⟨hi', fun hlock t => (congrFun (hlevel hlock) t).ge⟩

/-- **A step that writes over a higher priority** leaves priorities that are not exact. -/
theorem step_not_exact [Fintype T] [Fintype M] (h : Inv isRecursive s locked cq) (hi : s.Inherited)
    (hT : Fintype.card T < fuel) (hM : Fintype.card M < fuel) (hno : ¬ s.ClosesCycle e) (hr : ¬ s.RaisesOnly e) :
    ∃ s', s.step fuel e = .ok s' ∧ ¬ s'.PrioritiesExact := by
  unfold RaisesOnly at hr
  push Not at hr
  obtain ⟨t, m, o, hlocks, ho, hot, hlt, u, hu, hhigh⟩ := hr
  obtain ⟨s', hs, henters⟩ := step_enters h hT.le hno hlocks ho hot
  refine ⟨s', hs, ?_⟩
  obtain ⟨hd, -⟩ | ⟨s₁, locked₁, hs₁, hstep⟩ := step_ok h hT hM e hno
  · cases hd.symm.trans hs
  cases hs₁.symm.trans hs
  rw [prioritiesExact_iff hstep.inv.waits (henters.baseSaved hi.saved)]
  exact henters.not_exact hi h.waits hlt hu hhigh

/-! ## Runs -/

/-- In every state of the run the priorities are exact, and no lock lowers one. -/
def ExactRun (fuel : ℕ) : MutexSystem P M C T → List (Event P M C T) → Prop
  | s, [] => s.PrioritiesExact
  | s, e :: events => s.PrioritiesExact ∧ ∀ s', s.step fuel e = .ok s' →
      (e.IsLock → ∀ t, s.level t ≤ s'.level t) ∧ ExactRun fuel s' events

/-- No lock of the run writes over a higher priority. -/
def RaisesRun (fuel : ℕ) : MutexSystem P M C T → List (Event P M C T) → Prop
  | _, [] => True
  | s, e :: events => s.RaisesOnly e ∧ ∀ s', s.step fuel e = .ok s' → RaisesRun fuel s' events

theorem ExactRun.prioritiesExact {events : List (Event P M C T)} (h : ExactRun fuel s events) :
    s.PrioritiesExact := by
  cases events with
  | nil => exact h
  | cons e events => exact h.1

theorem run_exact_iff [Fintype T] [Fintype M] [InheritsPriority P] (hT : Fintype.card T < fuel)
    (hM : Fintype.card M < fuel) (events : List (Event P M C T)) (h : Inv isRecursive s locked cq)
    (hi : s.Inherited) (hno : NoCycle fuel s events) : ExactRun fuel s events ↔ RaisesRun fuel s events := by
  have hexact := (prioritiesExact_iff h.waits hi.saved).2 hi.exact
  induction events generalizing s locked cq with
  | nil => exact iff_of_true hexact trivial
  | cons e events ih =>
    have hnext : s.RaisesOnly e → ∀ s', s.step fuel e = .ok s' →
        (e.IsLock → ∀ t, s.level t ≤ s'.level t) ∧ (ExactRun fuel s' events ↔ RaisesRun fuel s' events) := by
      intro hr s' hs
      obtain ⟨hd, -⟩ | ⟨s₁, locked₁, hs₁, hstep⟩ := step_ok h hT hM e hno.1
      · cases hd.symm.trans hs
      cases hs₁.symm.trans hs
      obtain ⟨hi', hle⟩ := step_inherited h hi hT hM hno.1 hr hs
      exact ⟨hle, ih hstep.inv hi' (hno.2 s' hs) ((prioritiesExact_iff hstep.inv.waits hi'.saved).2 hi'.exact)⟩
    constructor
    · rintro ⟨-, hrun⟩
      have hr : s.RaisesOnly e := by
        by_contra hr
        obtain ⟨s', hs, hnot⟩ := step_not_exact h hi hT hM hno.1 hr
        exact hnot (hrun s' hs).2.prioritiesExact
      exact ⟨hr, fun s' hs => (hnext hr s' hs).2.1 (hrun s' hs).2⟩
    · rintro ⟨hr, hrun⟩
      exact ⟨hexact, fun s' hs => ⟨(hnext hr s' hs).1, (hnext hr s' hs).2.2 (hrun s' hs)⟩⟩

omit [DecidableEq M] [DecidableEq C] [DecidableEq T] in
theorem init_inherited (isRecursive : M → Bool) (priority savedPriority : T → P) (next : M → Option M)
    (last : C → Option T) (condNext : T → Option T) (saved : T → ℕ × ℤ) :
    (init isRecursive priority savedPriority next last condNext saved).Inherited where
  saved t ht := absurd rfl ht
  exact t := by
    refine ⟨Or.inl rfl, ?_⟩
    rintro x (rfl | ⟨u, ⟨m, hm, -⟩, -⟩)
    · exact le_rfl
    · cases hm

/-- **Priority inheritance.** In a run that closes no cycle the priority of every thread is always the largest of
its own and of those of the threads that wait for its mutexes, and no lock lowers one, if and only if no lock
starts a walk to a thread with a higher priority. -/
theorem exactRun_iff [Fintype T] [Fintype M] [InheritsPriority P] (isRecursive : M → Bool)
    (priority savedPriority : T → P) (next : M → Option M) (last : C → Option T) (condNext : T → Option T)
    (saved : T → ℕ × ℤ) (hT : Fintype.card T < fuel) (hM : Fintype.card M < fuel)
    (events : List (Event P M C T))
    (hno : NoCycle fuel (init isRecursive priority savedPriority next last condNext saved) events) :
    ExactRun fuel (init isRecursive priority savedPriority next last condNext saved) events ↔
      RaisesRun fuel (init isRecursive priority savedPriority next last condNext saved) events :=
  run_exact_iff hT hM events (init_inv isRecursive priority savedPriority next last condNext saved)
    (init_inherited isRecursive priority savedPriority next last condNext saved) hno

/-- Two threads with deadlines, of which thread 1 has the closer one, and a mutex. -/
def twoDeadlines : MutexSystem EDFSchedulerPriority Unit Unit (Fin 2) :=
  init (fun _ => false) (fun t => ⟨2 - t.val⟩) (fun _ => ⟨0⟩) (fun _ => none) (fun _ => none) (fun _ => none)
    fun _ => (0, 0)

theorem exactRun_iff_deadlines :
    ExactRun 3 twoDeadlines [.lock 0 (), .lock 1 (), .setPriority 0 ⟨5⟩, .unlock 0 (), .resume 1] ↔
      RaisesRun 3 twoDeadlines [.lock 0 (), .lock 1 (), .setPriority 0 ⟨5⟩, .unlock 0 (), .resume 1] :=
  exactRun_iff _ _ _ _ _ _ _ (by decide) (by decide) _
    (noCycle (by decide) (by decide) _ (init_inv _ _ _ _ _ _ _))

/-- Three threads with the priorities 0, 1 and 2, in the order `none`, `some false`, `some true`, and two mutexes. -/
def threeThreads : MutexSystem PrioritySchedulerPriority Bool Unit (Option Bool) :=
  init (fun _ => false) (fun t => ⟨t.elim 0 fun b => cond b 2 1⟩) (fun _ => ⟨0⟩) (fun _ => none) (fun _ => none)
    (fun _ => none) fun _ => (0, 0)

/-- The first thread waits for the mutex of the last one, and then the other one for the mutex of the first. -/
def threeThreadsEvents : List (Event PrioritySchedulerPriority Bool Unit (Option Bool)) :=
  [.lock (some true) true, .lock none false, .lock none true, .lock (some false) false]

theorem NoCycle.lock {events : List (Event P M C T)}
    (h : ∀ o, s.owner m = some o → o ≠ t → ¬ ReflTransGen s.WaitsFor o t) (hs : s.step fuel (.lock t m) = .ok s')
    (hrest : NoCycle fuel s' events) : NoCycle fuel s (.lock t m :: events) := by
  refine ⟨?_, fun s₁ hs₁ => ?_⟩
  · rintro ⟨u, n, o, ⟨-, rfl, rfl⟩, ho, hot, hr⟩
    exact h o ho hot hr
  · cases hs.symm.trans hs₁
    exact hrest

/-- The last lock lowers the priority of the last thread to that of the one that locks. -/
theorem not_exact_three : NoCycle 4 threeThreads threeThreadsEvents ∧
    ∃ s, run 4 threeThreads threeThreadsEvents = .ok s ∧ s.basePriority (some true) = ⟨2⟩ ∧
      s.priority (some true) = ⟨1⟩ ∧ ¬ s.PrioritiesExact := by
  refine ⟨?_, ?_⟩
  · refine .lock (fun o ho => ?_) rfl (.lock (fun o ho => ?_) rfl (.lock (fun o ho _ hr => ?_) rfl
      (.lock (fun o ho _ hr => ?_) rfl trivial)))
    · cases ho
    · cases ho
    · obtain rfl : some true = o := Option.some.inj ho
      obtain heq | ⟨u, ⟨m, hm, -⟩, -⟩ := hr.cases_head
      · cases heq
      · cases hm
    · obtain rfl : none = o := Option.some.inj ho
      obtain heq | ⟨u, ⟨m, hm, hu⟩, hr⟩ := hr.cases_head
      · cases heq
      · obtain rfl : true = m := Option.some.inj hm
        obtain rfl : some true = u := Option.some.inj hu
        obtain heq | ⟨u, ⟨m, hm, -⟩, -⟩ := hr.cases_head
        · cases heq
        · cases hm
  · obtain ⟨s, hrun, hbase, hpr⟩ : ∃ s, run 4 threeThreads threeThreadsEvents = .ok s ∧
        s.basePriority (some true) = ⟨2⟩ ∧ s.priority (some true) = ⟨1⟩ := ⟨_, rfl, rfl, rfl⟩
    refine ⟨s, hrun, hbase, hpr, fun h => ?_⟩
    have hle : SchedulerPriority.level (s.basePriority (some true)) ≤
        SchedulerPriority.level (s.priority (some true)) := h.own_le (some true)
    rw [hbase, hpr] at hle
    exact absurd hle (by decide)

end MutexSystem

end Miosix
