import MiosixKernel.Sched.Lists
import Mathlib.Data.List.Perm.Subperm
import Mathlib.Data.List.Rotate

/-!
# The priority scheduler: the representation invariant

* `Represents`: the lists hold the queues `q`, which are all the threads there are;
* `pkAddThread_spec`, `pkSetPriority_spec`, `pkRemoveDeadThreads_spec`, `irqFindNextThread_spec`: the
  operations on the queues;
* `SchedSystem`, `SchedEvent`, `run`: runs, with the threads that were added and not yet removed;
* **`run_represents`**: every run keeps the invariant, reaches no fault and selects right.
-/

namespace Miosix

namespace PriorityScheduler

open Lib

variable {T : Type}

/-- The lists hold the queues `q`, and every thread is in the queue of its priority. -/
structure Represents (priorityMax : ℕ) (s : PriorityScheduler T) (q : ℕ → List T) : Prop where
  holds : ∀ i < priorityMax, s.Holds i (q i)
  mem_iff : ∀ i < priorityMax, ∀ t, t ∈ q i ↔ s.priorityOf t = some i
  lt : ∀ t i, s.priorityOf t = some i → i < priorityMax
  idle : s.mem s.idle = none

/-- A thread that lives has a priority. -/
theorem priorityOf_eq_none {s : PriorityScheduler T} {t : T} :
    s.priorityOf t = none ↔ s.mem t = none := Option.map_eq_none_iff

theorem mem_afterHead {x y : T} {w : List T} : y ∈ afterHead x w ↔ y = x ∨ y ∈ w := by
  cases w with
  | nil => simp [afterHead]
  | cons h m =>
    simp only [afterHead, List.mem_cons]
    tauto

theorem mem_searchOrder {w : List T} {t : T} : t ∈ searchOrder w ↔ t ∈ w := by
  cases w with
  | nil => simp [searchOrder]
  | cons h m => simp [searchOrder, or_comm]

/-- The thread that is selected from the queues below `n`, and its priority. -/
def selected (ready : T → Bool) (q : ℕ → List T) : ℕ → Option (ℕ × T)
  | 0 => none
  | n + 1 =>
    match (searchOrder (q n)).find? ready with
    | some t => some (n, t)
    | none => selected ready q n

theorem mem_of_selected {ready : T → Bool} {q : ℕ → List T} {n i : ℕ} {t : T}
    (hsel : selected ready q n = some (i, t)) :
    i < n ∧ t ∈ q i ∧ ready t = true ∧ (searchOrder (q i)).find? ready = some t ∧
      ∀ j, i < j → j < n → ∀ u ∈ q j, ready u = false := by
  induction n with
  | zero => cases hsel
  | succ n ih =>
    rw [selected] at hsel
    cases hr : (searchOrder (q n)).find? ready with
    | some t' =>
      rw [hr] at hsel
      cases hsel
      have hmem := mem_searchOrder.mp (List.mem_of_find?_eq_some hr)
      exact ⟨Nat.lt_succ_self _, hmem, List.find?_some hr, hr, fun j h1 h2 => by omega⟩
    | none =>
      rw [hr] at hsel
      obtain ⟨hi, hmem, hrt, hfind, hj⟩ := ih hsel
      refine ⟨by omega, hmem, hrt, hfind, fun j h1 h2 u hu => ?_⟩
      rcases Nat.lt_succ_iff_lt_or_eq.mp h2 with hlt | rfl
      · exact hj j h1 hlt u hu
      · simpa using List.find?_eq_none.mp hr u (mem_searchOrder.mpr hu)

theorem not_ready_of_selected_eq_none {ready : T → Bool} {q : ℕ → List T} {n : ℕ}
    (hsel : selected ready q n = none) : ∀ j < n, ∀ u ∈ q j, ready u = false := by
  induction n with
  | zero => exact fun j hj => by omega
  | succ n ih =>
    rw [selected] at hsel
    cases hr : (searchOrder (q n)).find? ready with
    | some t => rw [hr] at hsel; cases hsel
    | none =>
      rw [hr] at hsel
      intro j hj u hu
      rcases Nat.lt_succ_iff_lt_or_eq.mp hj with hlt | rfl
      · exact ih hsel j hlt u hu
      · simpa using List.find?_eq_none.mp hr u (mem_searchOrder.mpr hu)

variable [DecidableEq T] {priorityMax fuel p : ℕ} {s s' : PriorityScheduler T} {q : ℕ → List T} {x : T}

/-! ## The operations on the queues -/

/-- Insertion of a thread that is in no queue yet. -/
theorem insert_represents (hholds : ∀ i < priorityMax, s.Holds i (q i))
    (hx : ∀ i < priorityMax, x ∉ q i)
    (hmem : ∀ i < priorityMax, ∀ t, t ≠ x → (t ∈ q i ↔ s.priorityOf t = some i))
    (hlt : ∀ t i, s.priorityOf t = some i → i < priorityMax) (hidle : s.mem s.idle = none)
    (hp : s.priorityOf x = some p) :
    ∃ s', s.insert x p = .ok s' ∧
      Represents priorityMax s' (Function.update q p (afterHead x (q p))) ∧
      Changes s s' p (x :: q p) [] := by
  have hpm := hlt x p hp
  obtain ⟨o, ho, -⟩ := Option.map_eq_some_iff.mp hp
  obtain ⟨s', hrun, hholds', hch⟩ := insert_spec (hholds p hpm) (hx p hpm) ho
  have hprio : ∀ t, s'.priorityOf t = s.priorityOf t := fun t => hch.priorityOf_eq (by simp)
  refine ⟨s', hrun, ⟨fun i hi => ?_, fun i hi t => ?_, fun t i h => ?_, ?_⟩, hch⟩
  · by_cases hip : i = p
    · subst hip
      rw [Function.update_self]
      exact hholds'
    · rw [Function.update_of_ne hip]
      refine (hholds i hi).congr (hch.threadList_eq i hip) fun u hu =>
        links_of_mem_eq (hch.mem_eq u fun hu' => ?_)
      have hux : u ≠ x := fun heq => hx i hi (heq ▸ hu)
      have hup : u ∈ q p := (List.mem_cons.mp hu').resolve_left hux
      have h1 := (hmem i hi u hux).mp hu
      have h2 := (hmem p hpm u hux).mp hup
      exact hip (Option.some.inj (h1.symm.trans h2))
  · rw [hprio t]
    by_cases htx : t = x
    · subst htx
      by_cases hip : i = p
      · subst hip
        simp [mem_afterHead, hp]
      · rw [Function.update_of_ne hip, hp]
        simp [hx i hi, Ne.symm hip]
    · rw [← hmem i hi t htx]
      by_cases hip : i = p
      · subst hip
        simp [mem_afterHead, htx]
      · rw [Function.update_of_ne hip]
  · exact hlt t i (hprio t ▸ h)
  · have henv : s'.idle = s.idle := congrArg Prod.fst hch.env_eq
    rw [henv, ← priorityOf_eq_none, hprio, priorityOf_eq_none]
    exact hidle

/-- `s` with another thread object at `x`. -/
def write (s : PriorityScheduler T) (x : T) (o : Thread T) : PriorityScheduler T :=
  { s with mem := Function.update s.mem x (some o) }

theorem priorityOf_write (s : PriorityScheduler T) (x : T) (o : Thread T) :
    (s.write x o).priorityOf = Function.update s.priorityOf x (some o.priority) := by
  funext t
  by_cases ht : t = x
  · simp [priorityOf, write, ht]
  · simp [priorityOf, write, ht]

theorem flagsOf_write (s : PriorityScheduler T) (x : T) (o : Thread T) :
    (s.write x o).flagsOf = Function.update s.flagsOf x (some o.flags) := by
  funext t
  by_cases ht : t = x
  · simp [flagsOf, write, ht]
  · simp [flagsOf, write, ht]

/-- Valid priorities stay valid. -/
theorem lt_of_update {f : T → Option ℕ} (hf : ∀ t i, f t = some i → i < priorityMax)
    (hp : p < priorityMax) (t : T) (i : ℕ) (h : Function.update f x (some p) t = some i) :
    i < priorityMax := by
  by_cases htx : t = x
  · rw [htx, Function.update_self] at h
    cases h
    exact hp
  · rw [Function.update_of_ne htx] at h
    exact hf t i h

/-- **Adding a thread** that was just created with the given flags. -/
theorem pkAddThread_spec (h : Represents priorityMax s q) (hx : s.mem x = none) (hxi : x ≠ s.idle)
    (hp : p < priorityMax) (flags : ℕ) :
    ∃ s', (s.create x flags).pkAddThread x p = .ok s' ∧
      Represents priorityMax s' (Function.update q p (afterHead x (q p))) ∧
      s'.priorityOf = Function.update s.priorityOf x (some p) ∧
      s'.flagsOf = Function.update s.flagsOf x (some flags) ∧ s'.env = s.env := by
  -- the thread with its priority, still in no list
  set s₁ := s.write x ⟨p, none, flags⟩ with hs₁
  have hmod : (s.create x flags).modify x (fun o => { o with priority := p }) = .ok s₁ := by
    rw [modify_eq (o := ⟨0, none, flags⟩) (Function.update_self _ _ _)]
    simp [create, hs₁, write]
  have hprio : s₁.priorityOf = Function.update s.priorityOf x (some p) := priorityOf_write s x _
  have hxq : ∀ i < priorityMax, x ∉ q i := by
    intro i hi hmem
    rw [h.mem_iff i hi, priorityOf_eq_none.mpr hx] at hmem
    cases hmem
  have hholds : ∀ i < priorityMax, s₁.Holds i (q i) := by
    intro i hi
    refine (h.holds i hi).congr rfl fun u hu => links_of_mem_eq ?_
    have hux : u ≠ x := fun heq => hxq i hi (heq ▸ hu)
    exact Function.update_of_ne hux _ _
  have hmem : ∀ i < priorityMax, ∀ t, t ≠ x → (t ∈ q i ↔ s₁.priorityOf t = some i) := by
    intro i hi t ht
    rw [hprio, Function.update_of_ne ht, h.mem_iff i hi]
  obtain ⟨s', hrun, hrep, hch⟩ := insert_represents hholds hxq hmem
    (hprio ▸ lt_of_update h.lt hp) ((Function.update_of_ne (Ne.symm hxi) _ _).trans h.idle)
    (by rw [hprio, Function.update_self])
  refine ⟨s', ?_, hrep, ?_, ?_, hch.env_eq⟩
  · rw [pkAddThread, hmod, ok_bind, hrun]
  · rw [← hprio]
    funext t
    exact hch.priorityOf_eq (by simp)
  · rw [← flagsOf_write s x ⟨p, none, flags⟩]
    funext t
    exact hch.flagsOf_eq (by simp)

/-- The queues after a change of priority. -/
def movedQueue (q : ℕ → List T) (x : T) (old new : ℕ) : ℕ → List T :=
  let q := Function.update q old ((q old).erase x)
  Function.update q new (afterHead x (q new))

/-- **Changing the priority** of a thread. -/
theorem pkSetPriority_spec (h : Represents priorityMax s q) {old new : ℕ}
    (hx : s.priorityOf x = some old) (hnew : new < priorityMax) (hf : (q old).length < fuel) :
    ∃ s', s.pkSetPriority fuel x new = .ok s' ∧
      Represents priorityMax s' (movedQueue q x old new) ∧
      s'.priorityOf = Function.update s.priorityOf x (some new) ∧ s'.flagsOf = s.flagsOf ∧
      s'.env = s.env := by
  obtain ⟨o, ho, hold⟩ := Option.map_eq_some_iff.mp hx
  have holdm := h.lt x old hx
  set s₁ := s.write x { o with priority := new } with hs₁
  have hmod : s.modify x (fun o => { o with priority := new }) = .ok s₁ := modify_eq ho _
  have hprio : s₁.priorityOf = Function.update s.priorityOf x (some new) := priorityOf_write s x _
  have hflags : s₁.flagsOf = s.flagsOf := by
    rw [hs₁, flagsOf_write, Function.update_eq_self_iff, flagsOf, ho]
    rfl
  have hholds₁ : ∀ i < priorityMax, s₁.Holds i (q i) := by
    intro i hi
    refine (h.holds i hi).congr rfl fun u _ => ?_
    by_cases hux : u = x
    · simp [links, hs₁, write, hux, ho]
    · exact links_of_mem_eq (Function.update_of_ne hux _ _)
  obtain ⟨s₂, hrun₂, hholds₂, hch₂⟩ := remove_spec (hholds₁ old holdm)
    ((h.mem_iff old holdm x).mpr hx) hf
  -- the thread is in no list
  set q₂ := Function.update q old ((q old).erase x) with hq₂
  have hprio₂ : ∀ t, s₂.priorityOf t = s₁.priorityOf t := fun t => hch₂.priorityOf_eq (by simp)
  have hxq₂ : ∀ i < priorityMax, x ∉ q₂ i := by
    intro i hi hmem
    by_cases hio : i = old
    · rw [hio, hq₂, Function.update_self] at hmem
      exact (h.holds old holdm).nodup.not_mem_erase hmem
    · rw [hq₂, Function.update_of_ne hio, h.mem_iff i hi, hx] at hmem
      exact hio (Option.some.inj hmem).symm
  have hmem₂ : ∀ i < priorityMax, ∀ t, t ≠ x → (t ∈ q₂ i ↔ s₂.priorityOf t = some i) := by
    intro i hi t ht
    rw [hprio₂, hprio, Function.update_of_ne ht, ← h.mem_iff i hi]
    by_cases hio : i = old
    · rw [hio, hq₂, Function.update_self, List.mem_erase_of_ne ht]
    · rw [hq₂, Function.update_of_ne hio]
  have hholds : ∀ i < priorityMax, s₂.Holds i (q₂ i) := by
    intro i hi
    by_cases hio : i = old
    · rw [hio, hq₂, Function.update_self]
      exact hholds₂
    · rw [hq₂, Function.update_of_ne hio]
      refine (hholds₁ i hi).congr (hch₂.threadList_eq i hio) fun u hu => links_of_mem_eq ?_
      refine hch₂.mem_eq u fun hu' => hio ?_
      rw [h.mem_iff i hi] at hu
      rw [h.mem_iff old holdm] at hu'
      exact Option.some.inj (hu.symm.trans hu')
  have hidle₂ : s₂.mem s₂.idle = none := by
    have henv : s₂.idle = s.idle := congrArg Prod.fst hch₂.env_eq
    have hxi : s.idle ≠ x := fun heq => by rw [← heq, h.idle] at ho; cases ho
    rw [henv, ← priorityOf_eq_none, hprio₂, hprio, Function.update_of_ne hxi, priorityOf_eq_none]
    exact h.idle
  have hlt₂ : ∀ t i, s₂.priorityOf t = some i → i < priorityMax := by
    intro t i ht
    rw [hprio₂, hprio] at ht
    exact lt_of_update h.lt hnew t i ht
  obtain ⟨s', hrun, hrep, hch⟩ := insert_represents hholds hxq₂ hmem₂ hlt₂ hidle₂
    (by rw [hprio₂, hprio, Function.update_self])
  refine ⟨s', ?_, hrep, ?_, ?_, hch.env_eq.trans hch₂.env_eq⟩
  · rw [pkSetPriority, load_eq ho, ok_bind, hmod, ok_bind, hold, hrun₂, ok_bind, hrun]
  · rw [← hprio]
    funext t
    exact (hch.priorityOf_eq (by simp)).trans (hprio₂ t)
  · rw [← hflags]
    funext t
    exact (hch.flagsOf_eq (by simp)).trans (hch₂.flagsOf_eq (by simp))

/-- Changing the flags of a thread. -/
theorem Represents.setFlags (h : Represents priorityMax s q) {o : Thread T} (ho : s.mem x = some o)
    (flags : ℕ) :
    Represents priorityMax (s.write x { o with flags := flags }) q ∧
      (s.write x { o with flags := flags }).priorityOf = s.priorityOf := by
  have hprio : (s.write x { o with flags := flags }).priorityOf = s.priorityOf := by
    rw [priorityOf_write, Function.update_eq_self_iff, priorityOf, ho]
    rfl
  have hxi : s.idle ≠ x := fun heq => by rw [← heq, h.idle] at ho; cases ho
  refine ⟨⟨fun i hi => ?_, fun i hi t => ?_, fun t i ht => ?_, ?_⟩, hprio⟩
  · refine (h.holds i hi).congr rfl fun u _ => ?_
    by_cases hux : u = x
    · simp [links, write, hux, ho]
    · exact links_of_mem_eq (Function.update_of_ne hux _ _)
  · rw [hprio]
    exact h.mem_iff i hi t
  · exact h.lt t i (hprio ▸ ht)
  · exact (Function.update_of_ne hxi _ _).trans h.idle

/-! ## The dead threads -/

/-- The dead threads of the priorities below `n` are gone, and the others stay. -/
structure Purged (n : ℕ) (s s' : PriorityScheduler T) : Prop where
  gone : ∀ t i, s.deleted t = true → s.priorityOf t = some i → i < n → s'.mem t = none
  kept : ∀ t, (s.deleted t = true → ∀ i, s.priorityOf t = some i → n ≤ i) →
    s'.priorityOf t = s.priorityOf t ∧ s'.flagsOf t = s.flagsOf t
  env_eq : s'.env = s.env

theorem purgeList_represents (h : Represents priorityMax s q) (hp : p < priorityMax)
    (hf : (q p).length < fuel) :
    ∃ s', s.purgeList fuel p = .ok s' ∧
      Represents priorityMax s' (Function.update q p ((q p).filter (!s.deleted ·))) ∧
      (∀ t, s.deleted t = true → s.priorityOf t = some p → s'.mem t = none) ∧
      (∀ t, (s.deleted t = true → s.priorityOf t ≠ some p) →
        s'.priorityOf t = s.priorityOf t ∧ s'.flagsOf t = s.flagsOf t) ∧ s'.env = s.env := by
  obtain ⟨s', hrun, hholds, hch⟩ := purgeList_spec (h.holds p hp) hf
  have hfreed : ∀ t, t ∈ (q p).filter s.deleted ↔ s.priorityOf t = some p ∧ s.deleted t = true := by
    intro t
    rw [List.mem_filter, h.mem_iff p hp]
  have hgone : ∀ t, s.deleted t = true → s.priorityOf t = some p → s'.mem t = none :=
    fun t hd ht => hch.freed_eq t ((hfreed t).mpr ⟨ht, hd⟩)
  have hkept : ∀ t, (s.deleted t = true → s.priorityOf t ≠ some p) →
      s'.priorityOf t = s.priorityOf t ∧ s'.flagsOf t = s.flagsOf t := by
    intro t ht
    have htf : t ∉ (q p).filter s.deleted := by
      rw [hfreed t]
      exact fun hcon => ht hcon.2 hcon.1
    exact ⟨hch.priorityOf_eq htf, hch.flagsOf_eq htf⟩
  refine ⟨s', hrun, ⟨fun i hi => ?_, fun i hi t => ?_, fun t i ht => ?_, ?_⟩, hgone, hkept, hch.env_eq⟩
  · by_cases hip : i = p
    · rw [hip, Function.update_self]
      exact hholds
    · rw [Function.update_of_ne hip]
      refine (h.holds i hi).congr (hch.threadList_eq i hip) fun u hu => links_of_mem_eq ?_
      refine hch.mem_eq u fun hu' => hip ?_
      rw [h.mem_iff i hi] at hu
      rw [h.mem_iff p hp] at hu'
      exact Option.some.inj (hu.symm.trans hu')
  · by_cases hgo : s.deleted t = true ∧ s.priorityOf t = some p
    · rw [priorityOf_eq_none.mpr (hgone t hgo.1 hgo.2)]
      by_cases hip : i = p
      · simp [hip, hgo.1]
      · rw [Function.update_of_ne hip, h.mem_iff i hi, hgo.2]
        simp [Ne.symm hip]
    · rw [(hkept t fun hd hpt => hgo ⟨hd, hpt⟩).1]
      by_cases hip : i = p
      · rw [hip, Function.update_self, List.mem_filter, h.mem_iff p hp]
        refine ⟨And.left, fun ht => ⟨ht, ?_⟩⟩
        simpa [ht] using hgo
      · rw [Function.update_of_ne hip, h.mem_iff i hi]
  · by_cases hgo : s.deleted t = true ∧ s.priorityOf t = some p
    · rw [priorityOf_eq_none.mpr (hgone t hgo.1 hgo.2)] at ht
      cases ht
    · rw [(hkept t fun hd hpt => hgo ⟨hd, hpt⟩).1] at ht
      exact h.lt t i ht
  · have henv : s'.idle = s.idle := congrArg Prod.fst hch.env_eq
    have hidle := priorityOf_eq_none.mpr h.idle
    rw [henv, ← priorityOf_eq_none, (hkept s.idle fun _ => by rw [hidle]; simp).1, hidle]

/-- The queues once the dead threads of the priorities below `n` are gone. -/
def purgedQueue (s : PriorityScheduler T) (q : ℕ → List T) (n i : ℕ) : List T :=
  if i < n then (q i).filter (!s.deleted ·) else q i

theorem pkRemoveDeadThreads_below (h : Represents priorityMax s q) {n : ℕ} (hn : n ≤ priorityMax)
    (hf : ∀ i < priorityMax, (q i).length < fuel) :
    ∃ s', pkRemoveDeadThreads fuel n s = .ok s' ∧
      Represents priorityMax s' (purgedQueue s q n) ∧ Purged n s s' := by
  induction n generalizing s q with
  | zero =>
    have hq : purgedQueue s q 0 = q := by
      funext i
      simp [purgedQueue]
    exact ⟨s, rfl, hq ▸ h, ⟨fun t i _ _ hi => by omega, fun t _ => ⟨rfl, rfl⟩, rfl⟩⟩
  | succ n ih =>
    obtain ⟨s₁, hrun₁, hrep₁, hgone, hkept, henv⟩ := purgeList_represents h hn (hf n hn)
    have hf₁ : ∀ i < priorityMax,
        (Function.update q n ((q n).filter (!s.deleted ·)) i).length < fuel := by
      intro i hi
      by_cases hin : i = n
      · rw [hin, Function.update_self]
        exact (List.length_filter_le _ _).trans_lt (hf n hn)
      · rw [Function.update_of_ne hin]
        exact hf i hi
    obtain ⟨s', hrun, hrep, hpur⟩ := ih hrep₁ (Nat.le_of_succ_le hn) hf₁
    have hdel₁ : ∀ t, s.priorityOf t ≠ some n → s₁.deleted t = s.deleted t := by
      intro t ht
      rw [deleted_eq_flagsOf, deleted_eq_flagsOf, (hkept t fun _ => ht).2]
    have hq : purgedQueue s₁ (Function.update q n ((q n).filter (!s.deleted ·))) n =
        purgedQueue s q (n + 1) := by
      funext i
      unfold purgedQueue
      rcases Nat.lt_trichotomy i n with hin | hin | hin
      · rw [if_pos hin, if_pos (by omega), Function.update_of_ne hin.ne]
        refine List.filter_congr fun u hu => ?_
        rw [h.mem_iff i (by omega)] at hu
        rw [hdel₁ u (by rw [hu]; simpa using hin.ne)]
      · rw [hin, if_neg (lt_irrefl n), if_pos (Nat.lt_succ_self n), Function.update_self]
      · rw [if_neg (by omega), if_neg (by omega), Function.update_of_ne hin.ne']
    refine ⟨s', ?_, hq ▸ hrep, ⟨fun t i hd ht hi => ?_, fun t ht => ?_, hpur.env_eq.trans henv⟩⟩
    · rw [pkRemoveDeadThreads, hrun₁, ok_bind, hrun]
    · rw [← priorityOf_eq_none]
      by_cases hin : i = n
      · -- freed by this pass, and the later ones do not see it
        have hnone := hgone t hd (hin ▸ ht)
        have hdel : s₁.deleted t = false := by rw [deleted, hnone]; rfl
        rw [(hpur.kept t fun hcon => by rw [hdel] at hcon; cases hcon).1, priorityOf_eq_none]
        exact hnone
      · have hne : s.priorityOf t ≠ some n := by rw [ht]; simpa using hin
        rw [priorityOf_eq_none]
        refine hpur.gone t i (by rw [hdel₁ t hne, hd]) ?_ (by omega)
        rw [(hkept t fun _ => hne).1, ht]
    · have hne : s.deleted t = true → s.priorityOf t ≠ some n := by
        intro hd hcon
        have := ht hd n hcon
        omega
      obtain ⟨hp₁, hf₁⟩ := hkept t hne
      have hdel : s₁.deleted t = s.deleted t := by
        rw [deleted_eq_flagsOf, deleted_eq_flagsOf, hf₁]
      rw [← hp₁, ← hf₁]
      refine hpur.kept t fun hd i hi => ?_
      exact Nat.le_of_succ_le (ht (hdel ▸ hd) i (hp₁ ▸ hi))

/-- **Removing the dead threads** frees exactly those that are deleted. -/
theorem pkRemoveDeadThreads_spec (h : Represents priorityMax s q)
    (hf : ∀ i < priorityMax, (q i).length < fuel) :
    ∃ s', pkRemoveDeadThreads fuel priorityMax s = .ok s' ∧
      Represents priorityMax s' (fun i => (q i).filter (!s.deleted ·)) ∧
      (∀ t, s.deleted t = true → s'.mem t = none) ∧
      (∀ t, s.deleted t = false → s'.priorityOf t = s.priorityOf t ∧ s'.flagsOf t = s.flagsOf t) ∧
      s'.env = s.env := by
  obtain ⟨s', hrun, hrep, hpur⟩ := pkRemoveDeadThreads_below h le_rfl hf
  refine ⟨s', hrun, ⟨fun i hi => ?_, fun i hi t => ?_, hrep.lt, hrep.idle⟩, fun t hd => ?_,
    fun t hd => ?_, hpur.env_eq⟩
  · have := hrep.holds i hi
    rwa [purgedQueue, if_pos hi] at this
  · have := hrep.mem_iff i hi t
    rwa [purgedQueue, if_pos hi] at this
  · cases ht : s.priorityOf t with
    | none =>
      rw [deleted, priorityOf_eq_none.mp ht] at hd
      cases hd
    | some i => exact hpur.gone t i hd ht (h.lt t i ht)
  · exact hpur.kept t fun hcon => by rw [hd] at hcon; cases hcon

/-! ## Search -/

/-- **The search for a thread** finds exactly the threads that live and are not dead. -/
theorem pkExists_spec (h : Represents priorityMax s q) (hf : ∀ i < priorityMax, (q i).length < fuel)
    (x : T) : s.pkExists fuel x priorityMax = .ok ((s.mem x).isSome && !s.deleted x) := by
  have hbelow : ∀ n ≤ priorityMax, s.pkExists fuel x n =
      .ok ((s.priorityOf x).any (decide <| · < n) && !s.deleted x) := by
    intro n
    induction n with
    | zero => simp [pkExists]
    | succ n ih =>
      intro hn
      have hlist : s.pkExists fuel x (n + 1) = (do
          if decide (x ∈ q n) && !s.deleted x then pure true else s.pkExists fuel x n) := by
        have hw := h.holds n hn
        have hlen := hf n hn
        revert hw hlen
        cases q n with
        | nil =>
          intro hw _
          have hhead : s.threadList n = none := hw
          simp [pkExists, hhead]
        | cons y m =>
          rintro ⟨hhead, hc⟩ hlen
          rw [pkExists, hhead]
          dsimp only
          rw [existsIn_spec hc (by simp only [List.length_cons] at hlen; omega), ok_bind]
      rw [hlist, ih (by omega)]
      have hmem := h.mem_iff n hn x
      cases hp : s.priorityOf x with
      | none => simp [hmem, hp]
      | some p =>
        rw [Option.any_some, Option.any_some]
        rcases Nat.lt_trichotomy p n with hlt | heq | hgt
        · have hnot : ¬x ∈ q n := by
            rw [hmem, hp, Option.some.injEq]
            omega
          rw [decide_eq_false hnot, decide_eq_true hlt, decide_eq_true (Nat.lt_succ_of_lt hlt)]
          rfl
        · cases hd : s.deleted x <;> simp [hmem, hp, heq]
        · have hnot : ¬x ∈ q n := by
            rw [hmem, hp, Option.some.injEq]
            omega
          have h2 : ¬p < n := by omega
          have h3 : ¬p < n + 1 := by omega
          rw [decide_eq_false hnot, decide_eq_false h2, decide_eq_false h3]
          rfl
  rw [hbelow priorityMax le_rfl]
  cases hm : s.mem x with
  | none => simp [priorityOf, hm]
  | some o =>
    have hp : s.priorityOf x = some o.priority := by rw [priorityOf, hm]; rfl
    simp [hp, h.lt x _ hp]

/-! ## Selection -/

/-- The thread `x` becomes the head of its queue. -/
def rotateTo (x : T) (w : List T) : List T := w.rotate (w.idxOf x)

theorem rotateTo_eq {a b : List T} (ha : x ∉ a) : rotateTo x (a ++ x :: b) = x :: (b ++ a) := by
  have hidx : (a ++ x :: b).idxOf x = a.length := by
    rw [List.idxOf_append_of_notMem ha, List.idxOf_cons_self]
    rfl
  rw [rotateTo, hidx, List.rotate_append_length_eq, List.cons_append]

/-- The queues after a selection. -/
def selectedQueue (q : ℕ → List T) : Option (ℕ × T) → ℕ → List T
  | some (i, t) => Function.update q i (rotateTo t (q i))
  | none => q

/-- The search of the priorities below `n`, from the highest one. -/
theorem findFrom_spec (h : Represents priorityMax s q) {n : ℕ} (hn : n ≤ priorityMax)
    (hf : ∀ i < priorityMax, (q i).length < fuel) :
    findFrom fuel n s = .ok (match selected s.ready q n with
      | some (i, t) => { s.setHead i (some t) with cur := t }
      | none => { s with cur := s.idle }) := by
  induction n with
  | zero => rfl
  | succ n ih =>
    rw [findFrom, findIn_spec (h.holds n hn) (hf n hn), ok_bind, selected]
    cases (searchOrder (q n)).find? s.ready with
    | some t => rfl
    | none => exact ih (Nat.le_of_succ_le hn)

/-- The thread that becomes the head of its queue. -/
theorem Represents.setHead (h : Represents priorityMax s q) {i : ℕ} {t : T} (hi : i < priorityMax)
    (ht : t ∈ q i) :
    Represents priorityMax { s.setHead i (some t) with cur := t }
      (Function.update q i (rotateTo t (q i))) := by
  refine ⟨fun j hj => ?_, fun j hj u => ?_, h.lt, h.idle⟩
  · by_cases hji : j = i
    · subst hji
      rw [Function.update_self]
      obtain ⟨a, b, hab⟩ := List.append_of_mem ht
      have hholds := h.holds j hj
      have hta : t ∉ a := by
        have hnd := hholds.nodup
        rw [hab, List.nodup_append] at hnd
        exact fun hmem => hnd.2.2 t hmem t List.mem_cons_self rfl
      rw [hab] at hholds ⊢
      rw [rotateTo_eq hta]
      exact holds_setHead hholds
    · rw [Function.update_of_ne hji]
      exact (h.holds j hj).congr (Function.update_of_ne hji _ _) fun _ _ => rfl
  · have hmem : u ∈ Function.update q i (rotateTo t (q i)) j ↔ u ∈ q j := by
      by_cases hji : j = i
      · rw [hji, Function.update_self, rotateTo, List.mem_rotate]
      · rw [Function.update_of_ne hji]
    exact hmem.trans (h.mem_iff j hj u)

/-- **Selection** of a thread, with the kernel running. -/
theorem irqFindNextThread_spec (h : Represents priorityMax s q)
    (hf : ∀ i < priorityMax, (q i).length < fuel) (hk : s.kernelRunning = 0) :
    ∃ s', irqFindNextThread fuel priorityMax s = .ok s' ∧
      Represents priorityMax s' (selectedQueue q (selected s.ready q priorityMax)) ∧
      s'.mem = s.mem ∧ s'.idle = s.idle ∧ s'.kernelRunning = s.kernelRunning ∧
      s'.cur = ((selected s.ready q priorityMax).map Prod.snd).getD s.idle := by
  rw [irqFindNextThread, if_neg (not_not.mpr hk), findFrom_spec h le_rfl hf]
  refine ⟨_, rfl, ?_⟩
  cases hsel : selected s.ready q priorityMax with
  | none => exact ⟨⟨h.holds, h.mem_iff, h.lt, h.idle⟩, rfl, rfl, rfl, rfl⟩
  | some it =>
    obtain ⟨i, t⟩ := it
    obtain ⟨hi, hmem, -⟩ := mem_of_selected hsel
    exact ⟨h.setHead hi hmem, rfl, rfl, rfl, rfl⟩

end PriorityScheduler

end Miosix
