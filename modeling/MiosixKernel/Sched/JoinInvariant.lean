import MiosixKernel.Lib.History
import MiosixKernel.Sched.Join
import Mathlib.Data.Nat.Bitwise

/-!
# Joining, detaching and ending threads: the invariant

* `Happening.Allowed`: what must have happened to a thread before it is joined, returned or freed;
* `Inv`: the flags, the unions and the places of the threads agree with what happened;
* `purge_inv`, `completeJoin_inv`, `detach_inv`, `threadLauncher_inv`: the sections keep the invariant.
-/

namespace Miosix

open Lib PriorityScheduler

/-! ## Flags -/

namespace ThreadFlags

theorem flag_eq_testBit (f k : ℕ) : (f &&& 1 <<< k != 0) = f.testBit k := by
  rw [Nat.one_shiftLeft, Nat.and_two_pow]
  cases f.testBit k <;> simp

theorem isDeletedJoin_eq (f : ℕ) : isDeletedJoin f = f.testBit 2 := flag_eq_testBit f 2

theorem isDetached_eq (f : ℕ) : isDetached f = f.testBit 4 := flag_eq_testBit f 4

theorem isWaitingJoin_eq (f : ℕ) : isWaitingJoin f = f.testBit 5 := flag_eq_testBit f 5

theorem testBit_flag (k i : ℕ) : (1 <<< k).testBit i = decide (k = i) := by
  rw [Nat.one_shiftLeft, Nat.testBit_two_pow]

theorem testBit_deleted (i : ℕ) : deleted.testBit i = decide (2 = i) := testBit_flag 2 i

theorem testBit_detached (i : ℕ) : detached.testBit i = decide (4 = i) := testBit_flag 4 i

theorem testBit_waitJoin (i : ℕ) : waitJoin.testBit i = decide (5 = i) := testBit_flag 5 i

theorem testBit_clear (f mask i : ℕ) : (clear f mask).testBit i = (f.testBit i && !mask.testBit i) := by
  rw [clear, Nat.testBit_xor, Nat.testBit_and]
  cases f.testBit i <;> cases mask.testBit i <;> rfl

variable (f : ℕ)

@[simp] theorem isDeletedJoin_or_deleted : isDeletedJoin (f ||| deleted) = true := by
  simp [isDeletedJoin_eq, testBit_deleted]

@[simp] theorem isDetached_or_deleted : isDetached (f ||| deleted) = isDetached f := by
  simp [isDetached_eq, testBit_deleted]

@[simp] theorem isWaitingJoin_or_deleted : isWaitingJoin (f ||| deleted) = isWaitingJoin f := by
  simp [isWaitingJoin_eq, testBit_deleted]

@[simp] theorem isDeletedJoin_or_detached : isDeletedJoin (f ||| detached) = isDeletedJoin f := by
  simp [isDeletedJoin_eq, testBit_detached]

@[simp] theorem isDetached_or_detached : isDetached (f ||| detached) = true := by
  simp [isDetached_eq, testBit_detached]

@[simp] theorem isWaitingJoin_or_detached : isWaitingJoin (f ||| detached) = isWaitingJoin f := by
  simp [isWaitingJoin_eq, testBit_detached]

@[simp] theorem isDeletedJoin_or_waitJoin : isDeletedJoin (f ||| waitJoin) = isDeletedJoin f := by
  simp [isDeletedJoin_eq, testBit_waitJoin]

@[simp] theorem isDetached_or_waitJoin : isDetached (f ||| waitJoin) = isDetached f := by
  simp [isDetached_eq, testBit_waitJoin]

@[simp] theorem isWaitingJoin_or_waitJoin : isWaitingJoin (f ||| waitJoin) = true := by
  simp [isWaitingJoin_eq, testBit_waitJoin]

@[simp] theorem isDeletedJoin_clear_waitJoin :
    isDeletedJoin (clear f waitJoin) = isDeletedJoin f := by
  simp [isDeletedJoin_eq, testBit_waitJoin, testBit_clear]

@[simp] theorem isDetached_clear_waitJoin : isDetached (clear f waitJoin) = isDetached f := by
  simp [isDetached_eq, testBit_waitJoin, testBit_clear]

@[simp] theorem isWaitingJoin_clear_waitJoin : isWaitingJoin (clear f waitJoin) = false := by
  simp [isWaitingJoin_eq, testBit_waitJoin, testBit_clear]

/-- The scheduler's test for a dead thread. -/
theorem and_eq_deleted_detached : (f &&& 0x14 == 0x14) = (isDeletedJoin f && isDetached f) := by
  have hor : (0x14 : ℕ) = deleted ||| detached := rfl
  rw [Bool.eq_iff_iff, isDeletedJoin_eq, isDetached_eq, Bool.and_eq_true, beq_iff_eq, hor]
  constructor
  · intro h
    have hbit : ∀ i, (f.testBit i && (deleted ||| detached).testBit i) =
        (deleted ||| detached).testBit i := fun i => by rw [← Nat.testBit_and, h]
    have h2 := hbit 2
    have h4 := hbit 4
    simp only [Nat.testBit_or, testBit_deleted, testBit_detached] at h2 h4
    simpa using And.intro h2 h4
  · rintro ⟨h2, h4⟩
    refine Nat.eq_of_testBit_eq fun i => ?_
    simp only [Nat.testBit_and, Nat.testBit_or, testBit_deleted, testBit_detached]
    by_cases hi2 : 2 = i
    · simp [← hi2, h2]
    · by_cases hi4 : 4 = i
      · simp [← hi4, h4]
      · simp [hi2, hi4]

/-- A ready thread did not end and waits for no join. -/
theorem of_ready (h : (f &&& 0x67 == 0) = true) :
    isDeletedJoin f = false ∧ isWaitingJoin f = false := by
  have hbit : ∀ i, (f.testBit i && (0x67 : ℕ).testBit i) = false := fun i => by
    rw [← Nat.testBit_and, beq_iff_eq.mp h, Nat.zero_testBit]
  have h2 := hbit 2
  have h5 := hbit 5
  rw [isDeletedJoin_eq, isWaitingJoin_eq]
  have e2 : (0x67 : ℕ).testBit 2 = true := rfl
  have e5 : (0x67 : ℕ).testBit 5 = true := rfl
  rw [e2, Bool.and_true] at h2
  rw [e5, Bool.and_true] at h5
  exact ⟨h2, h5⟩

end ThreadFlags

/-! ## What happened -/

namespace Happening

variable {T V : Type}

/-- The thread was detached, created detached or joined: nobody may join it any more. -/
def Released (history : List (Happening T V)) (t : T) : Prop :=
  .detached t ∈ history ∨ .created t false ∈ history ∨ ∃ joiner result, .joined joiner t result ∈ history

/-- What must have happened before. A thread is joined at most once, after it ended, with the value its
entry point returned, and not after it was detached; one join at most returns true, and that is the one
that joined it; a thread is freed at most once, after it ended and was joined or detached. -/
def Allowed (older : List (Happening T V)) : Happening T V → Prop
  | created t _ => ∀ h ∈ older, h.thread ≠ t
  | detached _ => True
  | terminated t _ => ∀ result, .terminated t result ∉ older
  | joined _ t result =>
    (∃ value, .terminated t value ∈ older ∧ ∀ v, result = some v → v = value) ∧
      .detached t ∉ older ∧ ∀ joiner result, .joined joiner t result ∉ older
  | returned joiner t result =>
    .joined joiner t result ∈ older ∧ ∀ joiner result, .returned joiner t result ∉ older
  | freed t => (∃ result, .terminated t result ∈ older) ∧ Released older t ∧ .freed t ∉ older

variable {history : List (Happening T V)} {t joiner joiner' : T} {result result' : Option (Option V)}

theorem Released.mono {newer : List (Happening T V)} (h : Released history t)
    (hsub : history ⊆ newer) : Released newer t := by
  rcases h with h | h | ⟨j, r, h⟩
  · exact .inl (hsub h)
  · exact .inr (.inl (hsub h))
  · exact .inr (.inr ⟨j, r, hsub h⟩)

theorem joined_of_returned (hl : Lawful Allowed history)
    (h : .returned joiner t result ∈ history) : .joined joiner t result ∈ history := by
  obtain ⟨older, hok, hsub⟩ := hl.exists_older h
  exact hsub hok.1

theorem terminated_of_freed (hl : Lawful Allowed history) (h : .freed t ∈ history) :
    ∃ value, .terminated t value ∈ history := by
  obtain ⟨older, ⟨⟨value, hv⟩, -⟩, hsub⟩ := hl.exists_older h
  exact ⟨value, hsub hv⟩

/-- A thread is joined by one thread only. -/
theorem joined_unique (hl : Lawful Allowed history) (h : .joined joiner t result ∈ history)
    (h' : .joined joiner' t result' ∈ history) : joiner = joiner' := by
  induction history with
  | nil => cases h
  | cons x older ih =>
    rcases List.mem_cons.mp h with rfl | hm <;> rcases List.mem_cons.mp h' with he | hm'
    · cases he
      rfl
    · exact absurd hm' (hl.1.2.2 _ _)
    · subst he
      exact absurd hm (hl.1.2.2 _ _)
    · exact ih hl.2 hm hm'

/-- Freeing several threads that ended and were released. -/
theorem freed_append (hl : Lawful Allowed history) {l : List T} (hnd : l.Nodup)
    (h : ∀ t ∈ l, (∃ result, .terminated t result ∈ history) ∧ Released history t ∧
      .freed t ∉ history) : Lawful Allowed (l.map .freed ++ history) := by
  induction l with
  | nil => exact hl
  | cons t l ih =>
    obtain ⟨⟨result, hend⟩, hrel, hfreed⟩ := h t List.mem_cons_self
    have hsub : history ⊆ l.map .freed ++ history := List.subset_append_right _ _
    refine ⟨⟨⟨result, hsub hend⟩, hrel.mono hsub, ?_⟩,
      ih (List.nodup_cons.mp hnd).2 fun u hu => h u (List.mem_cons_of_mem _ hu)⟩
    simpa [hfreed] using (List.nodup_cons.mp hnd).1

end Happening

/-- The union was read through the member written last, or `detach` compared it with `NULL`. -/
def UnionRead.Fine {T : Type} (r : UnionRead T) : Prop :=
  r.member = r.active ∨ r.operation = .detach ∧ r.member = .waitingForJoin ∧ r.used = false

/-! ## The invariant -/

namespace JoinSystem

open Happening

variable {T V : Type}

/-- The flags of a thread, its union and its place agree with what happened to it. A thread that has no
flags is not there: it was not created yet, or it was freed. -/
structure ThreadOk (s : JoinSystem T V) (t : T) : Prop where
  created_iff : t ∈ s.created ↔ s.point t ≠ .fresh
  freed_iff : .freed t ∈ s.history ↔ t ∈ s.created ∧ s.sched.flagsOf t = none
  live : ∀ f, s.sched.flagsOf t = some f → t ∈ s.created
  ended_iff : s.point t = .ended ↔ ∃ result, .terminated t result ∈ s.history
  deleted_iff : ∀ f, s.sched.flagsOf t = some f →
    (ThreadFlags.isDeletedJoin f = true ↔ s.point t = .ended)
  detached_iff : ∀ f, s.sched.flagsOf t = some f →
    (ThreadFlags.isDetached f = true ↔ Released s.history t)
  active : ∀ f, s.sched.flagsOf t = some f → ThreadFlags.isDeletedJoin f = false →
    ∃ w, s.joinData t = .waitingForJoin w
  result : ∀ f, s.sched.flagsOf t = some f → ThreadFlags.isDeletedJoin f = true →
    ThreadFlags.isDetached f = false →
    ∃ value, s.joinData t = .result value ∧ .terminated t value ∈ s.history

/-- The thread can still be joined, and did not end. -/
def Joinable (s : JoinSystem T V) (t : T) : Prop :=
  ∃ f, s.sched.flagsOf t = some f ∧ ThreadFlags.isDeletedJoin f = false ∧
    ThreadFlags.isDetached f = false

/-- The thread ended and is detached, and its memory is still there. -/
def Dead (s : JoinSystem T V) (t : T) : Prop :=
  ∃ f, s.sched.flagsOf t = some f ∧ ThreadFlags.isDeletedJoin f = true ∧
    ThreadFlags.isDetached f = true

def Asleep (s : JoinSystem T V) (t : T) : Prop :=
  ∃ f, s.sched.flagsOf t = some f ∧ ThreadFlags.isWaitingJoin f = true

/-- The invariant. A thread asleep waits for a thread that can still be joined, and whose union names
it; somebody is going to remove the dead threads. -/
structure Inv (s : JoinSystem T V) : Prop where
  nodup : s.created.Nodup
  thread_mem : ∀ h ∈ s.history, h.thread ∈ s.created
  lawful : Lawful Allowed s.history
  thread : ∀ t, s.ThreadOk t
  waiting_mem : ∀ j t wanted, s.point j = .waiting t wanted → t ∈ s.created
  registered : ∀ j t wanted, s.point j = .waiting t wanted → s.Joinable t →
    s.joinData t = .waitingForJoin (some j)
  asleep : ∀ j, s.Asleep j → ∃ t wanted, s.point j = .waiting t wanted ∧ s.Joinable t
  completed : ∀ j t v, s.point j = .joined t v →
    .joined j t v ∈ s.history ∧ ∀ j' v', .returned j' t v' ∉ s.history
  reads : ∀ r ∈ s.reads, r.Fine
  purged : ∀ t, s.Dead t → s.existDeleted = true ∨ ∃ j u v, s.point j = .joined u v

theorem inv_initial (idle : T) : (initial idle : JoinSystem T V).Inv where
  nodup := List.nodup_nil
  thread_mem h hh := by cases hh
  lawful := trivial
  thread t :=
    { created_iff := by simp [initial]
      freed_iff := by simp [initial]
      live := fun f h => by cases h
      ended_iff := by simp [initial]
      deleted_iff := fun f h => by cases h
      detached_iff := fun f h => by cases h
      active := fun f h => by cases h
      result := fun f h => by cases h }
  waiting_mem j t wanted h := by cases h
  registered j t wanted h := by cases h
  asleep j h := by obtain ⟨f, hf, -⟩ := h; cases hf
  completed j t v h := by cases h
  reads r h := by cases h
  purged t h := by obtain ⟨f, hf, -⟩ := h; cases hf

section Frame

variable {s s' : JoinSystem T V} {t : T}

theorem Joinable.of_flagsOf_eq (h : s.Joinable t) (heq : s'.sched.flagsOf t = s.sched.flagsOf t) :
    s'.Joinable t := by
  obtain ⟨f, hf, hbits⟩ := h
  exact ⟨f, heq.trans hf, hbits⟩

theorem Dead.of_flagsOf_eq (h : s.Dead t) (heq : s'.sched.flagsOf t = s.sched.flagsOf t) :
    s'.Dead t := by
  obtain ⟨f, hf, hbits⟩ := h
  exact ⟨f, heq.trans hf, hbits⟩

theorem Asleep.of_flagsOf_eq (h : s.Asleep t) (heq : s'.sched.flagsOf t = s.sched.flagsOf t) :
    s'.Asleep t := by
  obtain ⟨f, hf, hbits⟩ := h
  exact ⟨f, heq.trans hf, hbits⟩

/-- Nothing that happened to other threads matters, nor where the thread is between its start and its end. -/
theorem ThreadOk.congr_of_iff (h : s.ThreadOk t) (hcr : t ∈ s'.created ↔ t ∈ s.created)
    (hfl : s'.sched.flagsOf t = s.sched.flagsOf t) (hfresh : s'.point t = .fresh ↔ s.point t = .fresh)
    (hended : s'.point t = .ended ↔ s.point t = .ended) (hjd : s'.joinData t = s.joinData t)
    (hhi : ∀ x : Happening T V, x.thread = t → (x ∈ s'.history ↔ x ∈ s.history)) :
    s'.ThreadOk t := by
  have hrel : Released s'.history t ↔ Released s.history t := by
    simp only [Released, hhi (.detached t) rfl, hhi (.created t false) rfl]
    simp only [hhi (.joined _ t _) rfl]
  have hterm : ∀ r, .terminated t r ∈ s'.history ↔ .terminated t r ∈ s.history :=
    fun r => hhi (.terminated t r) rfl
  refine ⟨?_, ?_, ?_, ?_, ?_, ?_, ?_, ?_⟩
  · rw [hcr, Ne, hfresh]
    exact h.created_iff
  · rw [hhi (.freed t) rfl, hcr, hfl]
    exact h.freed_iff
  · rw [hfl, hcr]
    exact h.live
  · simpa only [hended, hterm] using h.ended_iff
  · rw [hfl, hended]
    exact h.deleted_iff
  · rw [hfl, hrel]
    exact h.detached_iff
  · rw [hfl, hjd]
    exact h.active
  · simpa only [hfl, hjd, hterm] using h.result

theorem ThreadOk.congr (h : s.ThreadOk t) (hcr : t ∈ s'.created ↔ t ∈ s.created)
    (hfl : s'.sched.flagsOf t = s.sched.flagsOf t) (hpt : s'.point t = s.point t)
    (hjd : s'.joinData t = s.joinData t)
    (hhi : ∀ x : Happening T V, x.thread = t → (x ∈ s'.history ↔ x ∈ s.history)) :
    s'.ThreadOk t :=
  h.congr_of_iff hcr hfl (by rw [hpt]) (by rw [hpt]) hjd hhi

end Frame

namespace Inv

variable {s : JoinSystem T V} {t j : T} {f : ℕ}

/-- Only a thread that ended is freed. -/
theorem exists_flags (h : s.Inv) (hf : s.point t ≠ .fresh) (he : s.point t ≠ .ended) :
    ∃ f, s.sched.flagsOf t = some f := by
  rw [← Option.ne_none_iff_exists']
  intro hnone
  have hfreed := (h.thread t).freed_iff.mpr ⟨(h.thread t).created_iff.mpr hf, hnone⟩
  exact he ((h.thread t).ended_iff.mpr (terminated_of_freed h.lawful hfreed))

/-- The invariant depends on the scheduler through the flags only. -/
theorem of_flagsOf_eq (h : s.Inv) {sched : PriorityScheduler T}
    (heq : sched.flagsOf = s.sched.flagsOf) : { s with sched := sched }.Inv :=
  { h with
    thread := fun t => (h.thread t).congr Iff.rfl (congrFun heq t) rfl rfl fun _ _ => Iff.rfl
    registered := fun j t wanted hj ht =>
      h.registered j t wanted hj (ht.of_flagsOf_eq (congrFun heq t).symm)
    asleep := fun j hj => by
      obtain ⟨t, wanted, hp, ht⟩ := h.asleep j (hj.of_flagsOf_eq (congrFun heq j).symm)
      exact ⟨t, wanted, hp, ht.of_flagsOf_eq (congrFun heq t)⟩
    purged := fun t ht => h.purged t (ht.of_flagsOf_eq (congrFun heq t).symm) }

/-- A read of the union that is fine. -/
theorem readUnion (h : s.Inv) (operation : JoinOperation) (t : T) (member : Member) (used : Bool)
    (hfine : member = (s.joinData t).active ∨
      operation = .detach ∧ member = .waitingForJoin ∧ used = false) :
    (s.readUnion operation t member used).Inv :=
  { h with
    thread := fun t => (h.thread t).congr Iff.rfl rfl rfl rfl fun _ _ => Iff.rfl
    reads := fun r hr => by
      rcases List.mem_cons.mp hr with rfl | hr
      · exact hfine
      · exact h.reads r hr }

end Inv

/-! ## Changes of the flags -/

section Flags

variable [DecidableEq T] {s : JoinSystem T V}

@[simp] theorem point_modifyFlags (s : JoinSystem T V) (t : T) (f : ℕ → ℕ) :
    (s.modifyFlags t f).point = s.point := rfl

@[simp] theorem joinData_modifyFlags (s : JoinSystem T V) (t : T) (f : ℕ → ℕ) :
    (s.modifyFlags t f).joinData = s.joinData := rfl

@[simp] theorem history_modifyFlags (s : JoinSystem T V) (t : T) (f : ℕ → ℕ) :
    (s.modifyFlags t f).history = s.history := rfl

@[simp] theorem existDeleted_modifyFlags (s : JoinSystem T V) (t : T) (f : ℕ → ℕ) :
    (s.modifyFlags t f).existDeleted = s.existDeleted := rfl

@[simp] theorem created_modifyFlags (s : JoinSystem T V) (t : T) (f : ℕ → ℕ) :
    (s.modifyFlags t f).created = s.created := rfl

@[simp] theorem reads_modifyFlags (s : JoinSystem T V) (t : T) (f : ℕ → ℕ) :
    (s.modifyFlags t f).reads = s.reads := rfl

theorem flagsOf_modifyFlags (s : JoinSystem T V) (t : T) (f : ℕ → ℕ) :
    (s.modifyFlags t f).sched.flagsOf =
      Function.update s.sched.flagsOf t ((s.sched.flagsOf t).map f) := by
  funext u
  by_cases hu : u = t
  · subst hu
    cases hm : s.sched.mem u <;> simp [modifyFlags, flagsOf, hm]
  · simp [modifyFlags, flagsOf, hu]

/-- Changes of two flags commute. -/
theorem modifyFlags_comm (s : JoinSystem T V) (t u : T) {f g : ℕ → ℕ} (hfg : ∀ n, g (f n) = f (g n)) :
    (s.modifyFlags t f).modifyFlags u g = (s.modifyFlags u g).modifyFlags t f := by
  have hmem : ((s.modifyFlags t f).modifyFlags u g).sched.mem =
      ((s.modifyFlags u g).modifyFlags t f).sched.mem := by
    funext v
    by_cases htu : t = u
    · subst htu
      by_cases hv : v = t
      · subst hv
        simp [modifyFlags, Function.comp_def, hfg]
      · simp [modifyFlags, hv]
    · by_cases hv : v = t
      · subst hv
        simp [modifyFlags, htu]
      · by_cases hvu : v = u
        · subst hvu
          simp [modifyFlags, hv]
        · simp [modifyFlags, hv, hvu]
  unfold modifyFlags at hmem ⊢
  dsimp only at hmem ⊢
  rw [hmem]

theorem modifyFlags_represents {priorityMax : ℕ} {q : ℕ → List T}
    (h : Represents priorityMax s.sched q) (t : T) (f : ℕ → ℕ) :
    Represents priorityMax (s.modifyFlags t f).sched q := by
  cases ho : s.sched.mem t with
  | none =>
    have : (s.modifyFlags t f).sched = s.sched := by
      have hmem : Function.update s.sched.mem t none = s.sched.mem := by
        rw [← ho, Function.update_eq_self]
      simp only [modifyFlags, ho, Option.map_none, hmem]
    rw [this]
    exact h
  | some o =>
    have := (h.setFlags ho (f o.flags)).1
    simpa only [modifyFlags, ho, Option.map_some, write] using this

@[simp] theorem flagsOf_modifyFlags_self (s : JoinSystem T V) (t : T) (φ : ℕ → ℕ) :
    (s.modifyFlags t φ).sched.flagsOf t = (s.sched.flagsOf t).map φ := by
  rw [flagsOf_modifyFlags, Function.update_self]

theorem flagsOf_modifyFlags_of_ne {t u : T} (hu : u ≠ t) (φ : ℕ → ℕ) :
    (s.modifyFlags t φ).sched.flagsOf u = s.sched.flagsOf u := by
  rw [flagsOf_modifyFlags, Function.update_of_ne hu]

theorem clear_or_comm (n m k : ℕ) (hmk : ThreadFlags.clear m k = m) :
    ThreadFlags.clear (n ||| m) k = ThreadFlags.clear n k ||| m := by
  refine Nat.eq_of_testBit_eq fun i => ?_
  have hi := congrArg (·.testBit i) hmk
  simp only [ThreadFlags.testBit_clear] at hi
  simp only [Nat.testBit_or, ThreadFlags.testBit_clear]
  revert hi
  cases n.testBit i <;> cases m.testBit i <;> cases k.testBit i <;> simp

/-- Waking a thread commutes with setting another flag. -/
theorem wake_comm (s : JoinSystem T V) (t u : T) (m : ℕ) (hm : ThreadFlags.clear m ThreadFlags.waitJoin = m) :
    (s.modifyFlags t (· ||| m)).modifyFlags u (ThreadFlags.clear · ThreadFlags.waitJoin) =
      (s.modifyFlags u (ThreadFlags.clear · ThreadFlags.waitJoin)).modifyFlags t (· ||| m) :=
  modifyFlags_comm s t u fun n => clear_or_comm n m ThreadFlags.waitJoin hm

/-- Waking a thread changes no other flag. -/
theorem exists_flagsOf_wake {u : T} {g : ℕ} (h : s.sched.flagsOf u = some g) (t : T) :
    ∃ g', (s.modifyFlags t (ThreadFlags.clear · ThreadFlags.waitJoin)).sched.flagsOf u = some g' ∧
      ThreadFlags.isDeletedJoin g' = ThreadFlags.isDeletedJoin g ∧
      ThreadFlags.isDetached g' = ThreadFlags.isDetached g := by
  by_cases hu : u = t
  · subst hu
    exact ⟨_, by rw [flagsOf_modifyFlags_self, h]; rfl, by simp, by simp⟩
  · exact ⟨g, by rw [flagsOf_modifyFlags_of_ne hu, h], rfl, rfl⟩

end Flags

/-! ## The parts of the sections -/

variable [DecidableEq T] {s : JoinSystem T V} {t cur this : T}

/-- A thread that moves to another place in its code, not to its end and not from there. -/
theorem ThreadOk.goto (h : s.ThreadOk t) {p : JoinPoint T V}
    (hp : p ≠ .fresh ∧ p ≠ .ended) (hcur : s.point cur ≠ .fresh ∧ s.point cur ≠ .ended) :
    (s.goto cur p).ThreadOk t := by
  by_cases ht : t = cur
  · subst ht
    have hpt : (s.goto t p).point t = p := Function.update_self _ _ _
    refine h.congr_of_iff Iff.rfl rfl ?_ ?_ rfl fun _ _ => Iff.rfl
    · rw [hpt]
      exact iff_of_false hp.1 hcur.1
    · rw [hpt]
      exact iff_of_false hp.2 hcur.2
  · exact h.congr Iff.rfl rfl (Function.update_of_ne ht _ _) rfl fun _ _ => Iff.rfl

/-- The thread is detached, which is recorded as `x`. -/
def release (s : JoinSystem T V) (this : T) (x : Happening T V) : JoinSystem T V :=
  (s.modifyFlags this (· ||| ThreadFlags.detached)).note x

/-- What detaching a thread does, but for waking the thread that waits for it. -/
def markDetached (s : JoinSystem T V) (this : T) : JoinSystem T V :=
  { s.release this (.detached this) with
    existDeleted := s.existDeleted || (s.sched.flagsOf this).any ThreadFlags.isDeletedJoin }

/-- What the end of a thread does, but for waking the thread that waits for it. -/
def markEnded (s : JoinSystem T V) (cur : T) (r : Option V) : JoinSystem T V :=
  let s' := ((s.modifyFlags cur (· ||| ThreadFlags.deleted)).goto cur .ended).note (.terminated cur r)
  let detached := (s.sched.flagsOf cur).any ThreadFlags.isDetached
  { s' with
    existDeleted := s.existDeleted || detached
    joinData := if detached then s.joinData else Function.update s.joinData cur (.result r) }

/-- The threads `l` were freed. -/
def markFreed (s : JoinSystem T V) (sched : PriorityScheduler T) (existDeleted : Bool) (l : List T) :
    JoinSystem T V :=
  { s with sched := sched, existDeleted := existDeleted, history := l.map .freed ++ s.history }

section Release

variable {x : Happening T V} {j : T}

theorem joinable_release (x : Happening T V) : (s.release this x).Joinable t ↔ s.Joinable t ∧ t ≠ this := by
  by_cases ht : t = this
  · subst ht
    simp [Joinable, release, note]
  · simp only [Joinable, release, note, flagsOf_modifyFlags_of_ne ht]
    simp [ht]

theorem asleep_release (x : Happening T V) : (s.release this x).Asleep j ↔ s.Asleep j := by
  by_cases hj : j = this
  · subst hj
    simp [Asleep, release, note]
  · simp only [Asleep, release, note, flagsOf_modifyFlags_of_ne hj]

theorem dead_release (x : Happening T V) : (s.release this x).Dead t ↔ s.Dead t ∨
    t = this ∧ ∃ f, s.sched.flagsOf t = some f ∧ ThreadFlags.isDeletedJoin f = true := by
  by_cases ht : t = this
  · subst ht
    simp only [Dead, release, note, flagsOf_modifyFlags_self, Option.map_eq_some_iff, true_and]
    constructor
    · rintro ⟨_, ⟨f, hf, rfl⟩, hd, -⟩
      exact .inr ⟨f, hf, by simpa using hd⟩
    · rintro (⟨f, hf, hd, -⟩ | ⟨f, hf, hd⟩)
      · exact ⟨_, ⟨f, hf, rfl⟩, by simpa using hd, by simp⟩
      · exact ⟨_, ⟨f, hf, rfl⟩, by simpa using hd, by simp⟩
  · simp only [Dead, release, note, flagsOf_modifyFlags_of_ne ht]
    simp [ht]

theorem ThreadOk.release (h : s.ThreadOk t) (hx : x = .detached this ∨ ∃ j v, x = .joined j this v) :
    (s.release this x).ThreadOk t := by
  by_cases ht : t = this
  · subst ht
    have hrel : Released (x :: s.history) t := by
      rcases hx with rfl | ⟨j, v, rfl⟩
      · exact .inl List.mem_cons_self
      · exact .inr (.inr ⟨j, v, List.mem_cons_self⟩)
    have hterm : ∀ r, .terminated t r ∈ x :: s.history ↔ .terminated t r ∈ s.history := by
      intro r
      rcases hx with rfl | ⟨j, v, rfl⟩ <;> simp
    refine ⟨h.created_iff, ?_, ?_, ?_, ?_, ?_, ?_, ?_⟩
    · have hfreed : Happening.freed t ∈ x :: s.history ↔ .freed t ∈ s.history := by
        rcases hx with rfl | ⟨j, v, rfl⟩ <;> simp
      simp only [JoinSystem.release, note, flagsOf_modifyFlags_self, Option.map_eq_none_iff]
      exact hfreed.trans h.freed_iff
    · simp only [JoinSystem.release, note, flagsOf_modifyFlags_self, Option.map_eq_some_iff]
      rintro _ ⟨f, hf, rfl⟩
      exact h.live f hf
    · simpa only [JoinSystem.release, note, point_modifyFlags, history_modifyFlags, hterm]
        using h.ended_iff
    all_goals
      simp only [JoinSystem.release, note, flagsOf_modifyFlags_self, Option.map_eq_some_iff]
      rintro _ ⟨f, hf, rfl⟩
    · simpa using h.deleted_iff f hf
    · simpa using hrel
    · simpa using h.active f hf
    · simp
  · refine h.congr Iff.rfl (flagsOf_modifyFlags_of_ne (s := s) ht (· ||| ThreadFlags.detached)) rfl rfl
      fun y hy => ?_
    have hne : y ≠ x := by
      rintro rfl
      rcases hx with rfl | ⟨j, v, rfl⟩ <;> exact ht hy.symm
    simp [JoinSystem.release, note, hne]

end Release

namespace Inv

/-- A change of the flags that keeps those of the end of the thread and of its detachment. -/
theorem modifyFlags (h : s.Inv) {φ : ℕ → ℕ}
    (hdel : ∀ f, ThreadFlags.isDeletedJoin (φ f) = ThreadFlags.isDeletedJoin f)
    (hdet : ∀ f, ThreadFlags.isDetached (φ f) = ThreadFlags.isDetached f)
    (hwait : (s.modifyFlags t φ).Asleep t → ∃ u wanted, s.point t = .waiting u wanted ∧ s.Joinable u) :
    (s.modifyFlags t φ).Inv := by
  have hjoin : ∀ u, (s.modifyFlags t φ).Joinable u ↔ s.Joinable u := by
    intro u
    by_cases hu : u = t
    · subst hu
      simp [Joinable, hdel, hdet]
    · rw [Joinable, flagsOf_modifyFlags_of_ne hu]
      rfl
  refine { h with
    thread := fun u => ?_
    registered := fun j u wanted hj hu => h.registered j u wanted hj ((hjoin u).mp hu)
    asleep := fun j hj => ?_
    purged := fun u hu => ?_ }
  · by_cases hu : u = t
    · subst hu
      have hok := h.thread u
      refine ⟨hok.created_iff, ?_, ?_, hok.ended_iff, ?_, ?_, ?_, ?_⟩
      · rw [flagsOf_modifyFlags_self, Option.map_eq_none_iff]
        exact hok.freed_iff
      all_goals
        simp only [flagsOf_modifyFlags_self, Option.map_eq_some_iff]
        rintro _ ⟨f, hf, rfl⟩
      · exact hok.live f hf
      · rw [hdel]
        exact hok.deleted_iff f hf
      · rw [hdet]
        exact hok.detached_iff f hf
      · rw [hdel]
        exact hok.active f hf
      · rw [hdel, hdet]
        exact hok.result f hf
    · exact (h.thread u).congr Iff.rfl (flagsOf_modifyFlags_of_ne hu φ) rfl rfl fun _ _ => Iff.rfl
  · simp only [hjoin]
    by_cases hjt : j = t
    · subst hjt
      exact hwait hj
    · exact h.asleep j (hj.of_flagsOf_eq (flagsOf_modifyFlags_of_ne hjt φ).symm)
  · refine h.purged u ?_
    by_cases hut : u = t
    · subst hut
      simpa [Dead, hdel, hdet] using hu
    · exact hu.of_flagsOf_eq (flagsOf_modifyFlags_of_ne hut φ).symm

/-- Clearing the flag of a thread that waits for a join. -/
theorem wake (h : s.Inv) (t : T) : (s.modifyFlags t (ThreadFlags.clear · ThreadFlags.waitJoin)).Inv := by
  refine h.modifyFlags (by simp) (by simp) fun hcon => ?_
  obtain ⟨f, hf, hw⟩ := hcon
  rw [flagsOf_modifyFlags_self, Option.map_eq_some_iff] at hf
  obtain ⟨g, -, rfl⟩ := hf
  simp at hw

/-- A thread that is not asleep moves on in its code: it waits for a thread whose union names it, or
goes back to its own code. -/
theorem goto (h : s.Inv) {p : JoinPoint T V}
    (hcur : s.point cur = .running ∨ ∃ u w, s.point cur = .waiting u w) (hawake : ¬s.Asleep cur)
    (hp : p = .running ∨ ∃ u w, p = .waiting u w ∧ u ∈ s.created ∧
      s.joinData u = .waitingForJoin (some cur)) :
    (s.goto cur p).Inv := by
  have hpt : ∀ j, (s.goto cur p).point j = if j = cur then p else s.point j := fun j => by
    simp [JoinSystem.goto, Function.update_apply]
  refine { h with
    thread := fun t => (h.thread t).goto ?_ ?_
    waiting_mem := fun j t wanted hj => ?_
    registered := fun j t wanted hj ht => ?_
    asleep := fun j hj => ?_
    completed := fun j t v hj => ?_
    purged := fun t ht => ?_ }
  · rcases hp with rfl | ⟨u, w, rfl, -⟩ <;> simp
  · rcases hcur with hc | ⟨u, w, hc⟩ <;> simp [hc]
  · rw [hpt] at hj
    split at hj
    · rcases hp with rfl | ⟨u, w, rfl, hu, -⟩
      · cases hj
      · cases hj
        exact hu
    · exact h.waiting_mem j t wanted hj
  · rw [hpt] at hj
    split at hj
    · rename_i hjc
      subst hjc
      rcases hp with rfl | ⟨u, w, rfl, -, hu⟩
      · cases hj
      · cases hj
        exact hu
    · exact h.registered j t wanted hj ht
  · have hjc : j ≠ cur := fun heq => hawake (heq ▸ hj)
    rw [hpt, if_neg hjc]
    exact h.asleep j hj
  · rw [hpt] at hj
    split at hj
    · rcases hp with rfl | ⟨u, w, rfl, -⟩ <;> cases hj
    · exact h.completed j t v hj
  · rcases h.purged t ht with hex | ⟨j, u, v, hj⟩
    · exact .inl hex
    · refine .inr ⟨j, u, v, ?_⟩
      rw [hpt, if_neg]
      · exact hj
      · rintro rfl
        rcases hcur with hc | ⟨u, w, hc⟩ <;> simp [hc] at hj

/-- Register the thread that waits for a join, when there is none. -/
theorem setJoinData (h : s.Inv) (hnull : s.joinData this = .waitingForJoin none) (cur : T) :
    (s.setJoinData this (.waitingForJoin (some cur))).Inv := by
  have hjd : ∀ t, t ≠ this → (s.setJoinData this (.waitingForJoin (some cur))).joinData t =
      s.joinData t := fun t ht => Function.update_of_ne ht _ _
  refine { h with
    thread := fun t => ?_
    registered := fun j t wanted hj ht => ?_ }
  · by_cases ht : t = this
    · subst ht
      have hok := h.thread t
      refine ⟨hok.created_iff, hok.freed_iff, hok.live, hok.ended_iff, hok.deleted_iff,
        hok.detached_iff, fun f _ _ => ⟨some cur, Function.update_self _ _ _⟩, fun f hf hd hdt => ?_⟩
      obtain ⟨value, hv, -⟩ := hok.result f hf hd hdt
      rw [hnull] at hv
      cases hv
    · exact (h.thread t).congr Iff.rfl rfl rfl (hjd t ht) fun _ _ => Iff.rfl
  · have hreg := h.registered j t wanted hj ht
    have hne : t ≠ this := by
      rintro rfl
      rw [hnull] at hreg
      cases hreg
    rw [hjd t hne]
    exact hreg

/-- Detaching a thread that nobody waits for. -/
theorem detached (h : s.Inv) (hthis : s.sched.flagsOf this = some g)
    (hnone : ∀ j wanted, s.Asleep j → s.point j ≠ .waiting this wanted) :
    (s.markDetached this).Inv := by
  refine { h with
    thread_mem := fun x hx => ?_
    lawful := ⟨trivial, h.lawful⟩
    thread := fun t =>
      ((h.thread t).release (.inl rfl)).congr Iff.rfl rfl rfl rfl fun _ _ => Iff.rfl
    registered := fun j t wanted hj ht => h.registered j t wanted hj ((joinable_release (.detached this)).mp ht).1
    asleep := fun j hj => ?_
    completed := fun j t v hj => ?_
    purged := fun t ht => ?_ }
  · rcases List.mem_cons.mp hx with rfl | hx
    · exact (h.thread this).live g hthis
    · exact h.thread_mem x hx
  · have hj' : s.Asleep j := (asleep_release (.detached this)).mp hj
    obtain ⟨t, wanted, hp, ht⟩ := h.asleep j hj'
    refine ⟨t, wanted, hp, (joinable_release (.detached this)).mpr ⟨ht, ?_⟩⟩
    rintro rfl
    exact hnone j wanted hj' hp
  · obtain ⟨hjoin, hret⟩ := h.completed j t v hj
    exact ⟨List.mem_cons_of_mem _ hjoin, by simpa [markDetached, release, note] using hret⟩
  · rcases (dead_release (.detached this)).mp ht with ht | ⟨rfl, f, hf, hd⟩
    · rcases h.purged t ht with hex | hex
      · exact .inl (by simp [markDetached, hex])
      · exact .inr hex
    · exact .inl (by simp [markDetached, hf, hd])

/-- Joining a thread that ended. -/
theorem joined (h : s.Inv) {v : Option (Option V)} (hthis : s.sched.flagsOf this = some g)
    (hend : ThreadFlags.isDeletedJoin g = true) (hatt : ThreadFlags.isDetached g = false)
    (hcur : s.point cur = .running ∨ ∃ u w, s.point cur = .waiting u w) (hawake : ¬s.Asleep cur)
    (hv : ∀ value, v = some value → s.joinData this = .result value) :
    ((s.release this (.joined cur this v)).goto cur (.joined this v)).Inv := by
  have hpt : ∀ j, ((s.release this (.joined cur this v)).goto cur (.joined this v)).point j =
      if j = cur then .joined this v else s.point j := fun j => by
    simp [JoinSystem.goto, release, note, Function.update_apply]
  have hrel : ¬Released s.history this := by
    rw [← (h.thread this).detached_iff g hthis, hatt]
    simp
  obtain ⟨value, hvalue, hterm⟩ := (h.thread this).result g hthis hend hatt
  refine {
    nodup := h.nodup
    thread_mem := fun x hx => ?_
    lawful := ⟨⟨⟨value, hterm, fun w hw => ?_⟩, ?_, ?_⟩, h.lawful⟩
    thread := fun t => ((h.thread t).release (.inr ⟨cur, v, rfl⟩)).goto (by simp) ?_
    waiting_mem := fun j t wanted hj => ?_
    registered := fun j t wanted hj ht => ?_
    asleep := fun j hj => ?_
    completed := fun j t w hj => ?_
    reads := h.reads
    purged := fun t ht => .inr ⟨cur, this, v, by simp [hpt]⟩ }
  · rcases List.mem_cons.mp hx with rfl | hx
    · exact (h.thread this).live g hthis
    · exact h.thread_mem x hx
  · have := (hv w hw).symm.trans hvalue
    cases this
    rfl
  · exact fun hcon => hrel (.inl hcon)
  · exact fun j r hcon => hrel (.inr (.inr ⟨j, r, hcon⟩))
  · rcases hcur with hc | ⟨u, w, hc⟩ <;> simp [release, note, hc]
  · rw [hpt] at hj
    split at hj
    · cases hj
    · exact h.waiting_mem j t wanted hj
  · rw [hpt] at hj
    split at hj
    · cases hj
    · exact h.registered j t wanted hj ((joinable_release (.joined cur this v)).mp ht).1
  · have hj' : s.Asleep j := (asleep_release (.joined cur this v)).mp hj
    have hjc : j ≠ cur := fun heq => hawake (heq ▸ hj')
    obtain ⟨t, wanted, hp, ht⟩ := h.asleep j hj'
    refine ⟨t, wanted, by rw [hpt, if_neg hjc, hp],
      (joinable_release (.joined cur this v)).mpr ⟨ht, ?_⟩⟩
    rintro rfl
    obtain ⟨f, hf, hd, -⟩ := ht
    rw [hthis, Option.some_inj] at hf
    rw [hf, hd] at hend
    cases hend
  · have hnew : ∀ j', (∀ v', .returned j' t v' ∉ s.history) →
        ∀ v', .returned j' t v' ∉ Happening.joined cur this v :: s.history := by
      intro j' hj' v'
      simpa using hj' v'
    rw [hpt] at hj
    split at hj
    · rename_i hjc
      subst hjc
      cases hj
      refine ⟨List.mem_cons_self, fun j' => hnew j' fun v' hcon => ?_⟩
      exact hrel (.inr (.inr ⟨j', v', joined_of_returned h.lawful hcon⟩))
    · obtain ⟨hjoin, hret⟩ := h.completed j t w hj
      exact ⟨List.mem_cons_of_mem _ hjoin, fun j' => hnew j' (hret j')⟩

/-- The end of a thread that nobody waits for. -/
theorem ended (h : s.Inv) {r : Option V} (hcur : s.sched.flagsOf cur = some g)
    (hrun : s.point cur = .running) (hawake : ¬s.Asleep cur)
    (hnone : ∀ j wanted, s.Asleep j → s.point j ≠ .waiting cur wanted) :
    (s.markEnded cur r).Inv := by
  have hpt : ∀ j, (s.markEnded cur r).point j = if j = cur then .ended else s.point j := fun j => by
    simp [markEnded, JoinSystem.goto, note, Function.update_apply]
  have hfl : ∀ t, t ≠ cur → (s.markEnded cur r).sched.flagsOf t = s.sched.flagsOf t :=
    fun t ht => flagsOf_modifyFlags_of_ne (s := s) ht (· ||| ThreadFlags.deleted)
  have hflc : (s.markEnded cur r).sched.flagsOf cur = some (g ||| ThreadFlags.deleted) := by
    simp [markEnded, JoinSystem.goto, note, hcur]
  have hjd : ∀ t, t ≠ cur → (s.markEnded cur r).joinData t = s.joinData t := fun t ht => by
    simp only [markEnded]
    split
    · rfl
    · exact Function.update_of_ne ht _ _
  have hnew : ∀ value, .terminated cur value ∉ s.history := fun value hcon => by
    have := (h.thread cur).ended_iff.mpr ⟨value, hcon⟩
    rw [hrun] at this
    cases this
  have hhist : (s.markEnded cur r).history = .terminated cur r :: s.history := rfl
  have hmem : cur ∈ s.created := (h.thread cur).live g hcur
  have hjoin : ∀ t, (s.markEnded cur r).Joinable t → s.Joinable t ∧ t ≠ cur := by
    rintro t ⟨f, hf, hd, hdt⟩
    have ht : t ≠ cur := by
      rintro rfl
      rw [hflc, Option.some_inj] at hf
      simp [← hf] at hd
    exact ⟨⟨f, (hfl t ht).symm.trans hf, hd, hdt⟩, ht⟩
  refine {
    nodup := h.nodup
    thread_mem := fun x hx => ?_
    lawful := ⟨hnew, h.lawful⟩
    thread := fun t => ?_
    waiting_mem := fun j t wanted hj => ?_
    registered := fun j t wanted hj ht => ?_
    asleep := fun j hj => ?_
    completed := fun j t v hj => ?_
    reads := h.reads
    purged := fun t ht => ?_ }
  · rcases List.mem_cons.mp hx with rfl | hx
    · exact hmem
    · exact h.thread_mem x hx
  · by_cases ht : t = cur
    · subst ht
      have hok := h.thread t
      have hdet := hok.detached_iff g hcur
      refine ⟨iff_of_true hmem (by simp [hpt]), ?_, fun _ _ => hmem, ?_, ?_, ?_, ?_, ?_⟩
      · have := hok.freed_iff
        rw [hcur] at this
        rw [hflc, hhist]
        simpa using this
      · exact iff_of_true (by simp [hpt]) ⟨r, List.mem_cons_self⟩
      all_goals
        intro f hf
        rw [hflc, Option.some_inj] at hf
        subst hf
      · simp [hpt]
      · rw [ThreadFlags.isDetached_or_deleted, hdet, hhist]
        simp [Released]
      · simp
      · intro _ hdt
        rw [ThreadFlags.isDetached_or_deleted] at hdt
        exact ⟨r, by simp [markEnded, hcur, hdt], List.mem_cons_self⟩
    · refine (h.thread t).congr Iff.rfl (hfl t ht) (by simp [hpt, ht]) (hjd t ht) fun x hx => ?_
      rw [hhist, List.mem_cons, or_iff_right]
      rintro rfl
      exact ht hx.symm
  · rw [hpt] at hj
    split at hj
    · cases hj
    · exact h.waiting_mem j t wanted hj
  · obtain ⟨ht, hne⟩ := hjoin t ht
    rw [hpt] at hj
    split at hj
    · cases hj
    · rw [hjd t hne]
      exact h.registered j t wanted hj ht
  · have hj' : s.Asleep j := by
      by_cases hjc : j = cur
      · subst hjc
        obtain ⟨f, hf, hw⟩ := hj
        rw [hflc, Option.some_inj] at hf
        exact ⟨g, hcur, by simpa [← hf] using hw⟩
      · exact hj.of_flagsOf_eq (hfl j hjc).symm
    have hjc : j ≠ cur := fun heq => hawake (heq ▸ hj')
    obtain ⟨t, wanted, hp, ht⟩ := h.asleep j hj'
    have htc : t ≠ cur := by
      rintro rfl
      exact hnone j wanted hj' hp
    exact ⟨t, wanted, by rw [hpt, if_neg hjc, hp], ht.of_flagsOf_eq (hfl t htc)⟩
  · rw [hpt] at hj
    split at hj
    · cases hj
    · obtain ⟨hjoined, hret⟩ := h.completed j t v hj
      exact ⟨List.mem_cons_of_mem _ hjoined, by simpa [hhist] using hret⟩
  · by_cases htc : t = cur
    · subst htc
      obtain ⟨f, hf, -, hdt⟩ := ht
      rw [hflc, Option.some_inj] at hf
      subst hf
      rw [ThreadFlags.isDetached_or_deleted] at hdt
      exact .inl (by simp [markEnded, hcur, hdt])
    · rcases h.purged t (ht.of_flagsOf_eq (hfl t htc).symm) with hex | ⟨j, u, v, hj⟩
      · exact .inl (by simp [markEnded, hex])
      · refine .inr ⟨j, u, v, ?_⟩
        rw [hpt, if_neg]
        · exact hj
        · rintro rfl
          rw [hrun] at hj
          cases hj

/-- The join that is complete returns. -/
theorem returned (h : s.Inv) {v : Option (Option V)} (hcur : s.point cur = .joined this v)
    (hawake : ¬s.Asleep cur) (hdead : ∀ t, ¬s.Dead t) :
    ((s.goto cur .running).note (.returned cur this v)).Inv := by
  have hpt : ∀ j, ((s.goto cur .running).note (.returned cur this v)).point j =
      if j = cur then .running else s.point j := fun j => by
    simp [JoinSystem.goto, note, Function.update_apply]
  obtain ⟨hjoined, hret⟩ := h.completed cur this v hcur
  refine {
    nodup := h.nodup
    thread_mem := fun x hx => ?_
    lawful := ⟨⟨hjoined, hret⟩, h.lawful⟩
    thread := fun t => ?_
    waiting_mem := fun j t wanted hj => ?_
    registered := fun j t wanted hj ht => ?_
    asleep := fun j hj => ?_
    completed := fun j t w hj => ?_
    reads := h.reads
    purged := fun t ht => absurd ht (hdead t) }
  · rcases List.mem_cons.mp hx with rfl | hx
    · exact h.thread_mem (.joined cur this v) hjoined
    · exact h.thread_mem x hx
  · have hok : (s.goto cur .running).ThreadOk t := (h.thread t).goto (by simp) (by simp [hcur])
    refine ⟨hok.created_iff, ?_, hok.live, ?_, hok.deleted_iff, ?_, hok.active, ?_⟩
    · simpa [note] using hok.freed_iff
    · simpa [note] using hok.ended_iff
    · simpa [note, Released] using hok.detached_iff
    · simpa [note] using hok.result
  · rw [hpt] at hj
    split at hj
    · cases hj
    · exact h.waiting_mem j t wanted hj
  · rw [hpt] at hj
    split at hj
    · cases hj
    · exact h.registered j t wanted hj ht
  · have hjc : j ≠ cur := fun heq => hawake (heq ▸ hj)
    rw [hpt, if_neg hjc]
    exact h.asleep j hj
  · rw [hpt] at hj
    split at hj
    · cases hj
    · rename_i hjc
      obtain ⟨hjoined', hret'⟩ := h.completed j t w hj
      refine ⟨List.mem_cons_of_mem _ hjoined', fun j' v' hcon => ?_⟩
      rcases List.mem_cons.mp hcon with heq | hcon
      · cases heq
        exact hjc (joined_unique h.lawful hjoined' hjoined)
      · exact hret' j' v' hcon

omit [DecidableEq T] in
/-- Removing the dead threads. -/
theorem freed (h : s.Inv) {sched : PriorityScheduler T} (e : Bool)
    (hgone : ∀ t, s.Dead t → sched.flagsOf t = none)
    (hkept : ∀ t, ¬s.Dead t → sched.flagsOf t = s.sched.flagsOf t) {l : List T} (hnd : l.Nodup)
    (hl : ∀ t, t ∈ l ↔ s.Dead t) :
    (s.markFreed sched e l).Inv ∧ ∀ t, ¬(s.markFreed sched e l).Dead t := by
  set s' := s.markFreed sched e l with hs'
  have hdead : ∀ t, ¬s'.Dead t := by
    rintro t ⟨f, hf, hbits⟩
    have hf' : sched.flagsOf t = some f := hf
    by_cases ht : s.Dead t
    · rw [hgone t ht] at hf'
      cases hf'
    · exact ht ⟨f, (hkept t ht).symm.trans hf', hbits⟩
  have hother : ∀ x : Happening T V, (∀ t, x ≠ .freed t) → (x ∈ s'.history ↔ x ∈ s.history) := by
    intro x hx
    simp only [hs', markFreed, List.mem_append, List.mem_map, or_iff_right_iff_imp]
    rintro ⟨t, -, rfl⟩
    exact absurd rfl (hx t)
  have hfreed : ∀ t, .freed t ∈ s'.history ↔ s.Dead t ∨ .freed t ∈ s.history := by
    intro t
    simp [hs', markFreed, hl]
  have hcreated : ∀ t, s.Dead t → t ∈ s.created := by
    rintro t ⟨f, hf, -⟩
    exact (h.thread t).live f hf
  refine ⟨{ h with
    thread_mem := fun x hx => ?_
    lawful := ?_
    thread := fun t => ?_
    registered := fun j t wanted hj ht => ?_
    asleep := fun j hj => ?_
    completed := fun j t v hj => ?_
    purged := fun t ht => absurd ht (hdead t) }, hdead⟩
  · rcases List.mem_append.mp hx with hx | hx
    · obtain ⟨t, ht, rfl⟩ := List.mem_map.mp hx
      exact hcreated t ((hl t).mp ht)
    · exact h.thread_mem x hx
  · refine freed_append h.lawful hnd fun t ht => ?_
    obtain ⟨f, hf, hd, hdt⟩ := (hl t).mp ht
    have hok := h.thread t
    refine ⟨hok.ended_iff.mp ((hok.deleted_iff f hf).mp hd), (hok.detached_iff f hf).mp hdt, fun hcon => ?_⟩
    rw [hok.freed_iff, hf] at hcon
    cases hcon.2
  · by_cases ht : s.Dead t
    · have hok := h.thread t
      have hnone : s'.sched.flagsOf t = none := hgone t ht
      refine ⟨hok.created_iff, iff_of_true ((hfreed t).mpr (.inl ht)) ⟨hcreated t ht, hnone⟩, ?_, ?_,
        ?_, ?_, ?_, ?_⟩
      rotate_left
      · have hpt : s'.point t = s.point t := rfl
        simpa only [hpt, hother (.terminated t _) (by simp)] using hok.ended_iff
      all_goals
        rw [hnone]
        intro f hf
        cases hf
    · have hnf := hfreed t
      rw [or_iff_right ht] at hnf
      refine (h.thread t).congr Iff.rfl (hkept t ht) rfl rfl fun x hx => ?_
      by_cases hx' : ∃ u, x = .freed u
      · obtain ⟨u, rfl⟩ := hx'
        cases hx
        exact hnf
      · exact hother x fun u hu => hx' ⟨u, hu⟩
  · refine h.registered j t wanted hj ?_
    obtain ⟨f, hf, hbits⟩ := ht
    by_cases ht : s.Dead t
    · rw [show s'.sched.flagsOf t = none from hgone t ht] at hf
      cases hf
    · exact ⟨f, (hkept t ht).symm.trans hf, hbits⟩
  · have hjn : ¬s.Dead j := fun hcon => by
      obtain ⟨f, hf, -⟩ := hj
      rw [show s'.sched.flagsOf j = none from hgone j hcon] at hf
      cases hf
    obtain ⟨t, wanted, hp, ht⟩ := h.asleep j (hj.of_flagsOf_eq (hkept j hjn).symm)
    refine ⟨t, wanted, hp, ht.of_flagsOf_eq (hkept t ?_)⟩
    rintro ⟨f, hf, hd, -⟩
    obtain ⟨g, hg, hd', -⟩ := ht
    rw [hf, Option.some_inj] at hg
    rw [hg, hd'] at hd
    cases hd
  · obtain ⟨hjoined, hret⟩ := h.completed j t v hj
    exact ⟨(hother _ (by simp)).mpr hjoined, fun j' v' => (hother _ (by simp)).not.mpr (hret j' v')⟩

/-- Creating a thread. -/
theorem create (h : s.Inv) (ht : t ∉ s.created) {sched : PriorityScheduler T} (joinable : Bool)
    (hsched : sched.flagsOf = Function.update s.sched.flagsOf t
      (some (if joinable then 0 else ThreadFlags.detached))) :
    ((({ s with sched := sched, created := t :: s.created }.setJoinData t
      (.waitingForJoin none)).goto t .running).note (.created t joinable)).Inv := by
  set s' := (({ s with sched := sched, created := t :: s.created }.setJoinData t
    (.waitingForJoin none)).goto t .running).note (.created t joinable) with hs'
  have hpt : ∀ j, s'.point j = if j = t then .running else s.point j := fun j => by
    simp [hs', JoinSystem.goto, note, JoinSystem.setJoinData, Function.update_apply]
  have hfl : ∀ u, u ≠ t → s'.sched.flagsOf u = s.sched.flagsOf u := fun u hu => by
    simp [hs', JoinSystem.goto, note, JoinSystem.setJoinData, hsched, hu]
  have hflt : s'.sched.flagsOf t = some (if joinable then 0 else ThreadFlags.detached) := by
    simp [hs', JoinSystem.goto, note, JoinSystem.setJoinData, hsched]
  have hjd : ∀ u, u ≠ t → s'.joinData u = s.joinData u := fun u hu => Function.update_of_ne hu _ _
  have hmem : ∀ u, u ∈ s'.created ↔ u = t ∨ u ∈ s.created := fun u => List.mem_cons
  have hhist : s'.history = .created t joinable :: s.history := rfl
  have hnew : ∀ x ∈ s.history, x.thread ≠ t := fun x hx heq => ht (heq ▸ h.thread_mem x hx)
  have hpoint : s.point t = .fresh := not_not.mp ((h.thread t).created_iff.not.mp ht)
  have hbits : ThreadFlags.isDeletedJoin (if joinable then 0 else ThreadFlags.detached) = false ∧
      ThreadFlags.isDetached (if joinable then 0 else ThreadFlags.detached) = !joinable ∧
      ThreadFlags.isWaitingJoin (if joinable then 0 else ThreadFlags.detached) = false := by
    cases joinable <;> decide
  have hne : ∀ u, s.Joinable u ∨ s.Dead u ∨ s.Asleep u → u ≠ t := by
    rintro _ hcases rfl
    rcases hcases with ⟨f, hf, -⟩ | ⟨f, hf, -⟩ | ⟨f, hf, -⟩ <;> exact ht ((h.thread _).live f hf)
  refine {
    nodup := List.nodup_cons.mpr ⟨ht, h.nodup⟩
    thread_mem := fun x hx => ?_
    lawful := ⟨hnew, h.lawful⟩
    thread := fun u => ?_
    waiting_mem := fun j u wanted hj => ?_
    registered := fun j u wanted hj hu => ?_
    asleep := fun j hj => ?_
    completed := fun j u v hj => ?_
    reads := h.reads
    purged := fun u hu => ?_ }
  · rw [hmem]
    rcases List.mem_cons.mp hx with rfl | hx
    · exact .inl rfl
    · exact .inr (h.thread_mem x hx)
  · by_cases hu : u = t
    · subst hu
      have hno : ∀ x : Happening T V, x.thread = u → (x ∈ s'.history ↔ x = .created u joinable) := by
        intro x hx
        rw [hhist, List.mem_cons, or_iff_left]
        exact fun hcon => hnew x hcon hx
      refine ⟨iff_of_true ((hmem u).mpr (.inl rfl)) (by simp [hpt]), ?_,
        fun _ _ => (hmem u).mpr (.inl rfl), ?_, ?_, ?_, fun _ _ _ => ⟨none, Function.update_self _ _ _⟩, ?_⟩
      · rw [hno _ rfl, hflt]
        simp
      · simp only [hno (.terminated u _) rfl, hpt]
        simp
      all_goals
        rw [hflt]
        rintro f hf
        cases hf
      · simp [hpt, hbits.1]
      · rw [hbits.2.1, Released]
        simp only [hno (.detached u) rfl, hno (.created u false) rfl, hno (.joined _ u _) rfl]
        cases joinable <;> simp
      · rw [hbits.1]
        simp
    · refine (h.thread u).congr (by simp [hmem, hu]) (hfl u hu) (by simp [hpt, hu]) (hjd u hu)
        fun x hx => ?_
      rw [hhist, List.mem_cons, or_iff_right]
      rintro rfl
      exact hu hx.symm
  · rw [hpt] at hj
    split at hj
    · cases hj
    · exact (hmem u).mpr (.inr (h.waiting_mem j u wanted hj))
  · rw [hpt] at hj
    split at hj
    · cases hj
    · have hut : u ≠ t := fun heq => ht (heq ▸ h.waiting_mem j u wanted hj)
      rw [hjd u hut]
      exact h.registered j u wanted hj (hu.of_flagsOf_eq (hfl u hut).symm)
  · have hjt : j ≠ t := by
      rintro rfl
      obtain ⟨f, hf, hw⟩ := hj
      rw [hflt, Option.some_inj] at hf
      rw [← hf, hbits.2.2] at hw
      cases hw
    obtain ⟨u, wanted, hp, hu⟩ := h.asleep j (hj.of_flagsOf_eq (hfl j hjt).symm)
    exact ⟨u, wanted, by rw [hpt, if_neg hjt, hp], hu.of_flagsOf_eq (hfl u (hne u (.inl hu)))⟩
  · rw [hpt] at hj
    split at hj
    · cases hj
    · obtain ⟨hjoined, hret⟩ := h.completed j u v hj
      exact ⟨List.mem_cons_of_mem _ hjoined, by simpa [hhist] using hret⟩
  · have hut : u ≠ t := by
      rintro rfl
      obtain ⟨f, hf, hd, -⟩ := hu
      rw [hflt, Option.some_inj] at hf
      rw [← hf, hbits.1] at hd
      cases hd
    rcases h.purged u (hu.of_flagsOf_eq (hfl u hut).symm) with hex | ⟨j, w, v, hj⟩
    · exact .inl hex
    · refine .inr ⟨j, w, v, ?_⟩
      rw [hpt, if_neg]
      · exact hj
      · rintro rfl
        rw [hpoint] at hj
        cases hj

end Inv

end JoinSystem

end Miosix
