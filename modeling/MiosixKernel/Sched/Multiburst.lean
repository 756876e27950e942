import MiosixKernel.Kernel.IntrusiveList
import MiosixKernel.Sched.ControlThreads

/-!
# The control based scheduler with several bursts: the model

With `SCHED_CONTROL_MULTIBURST` the threads that are ready are also in `activeThreads`, and a round goes through
this list. A thread that becomes ready enters it where its real-time priority says.

* `MultiburstScheduler`: the scheduler;
* `addThreadToActiveList`, `remThreadFromActiveList`, `irqWaitStatusHook`, `irqFindNextThread`;
* `step`, `run`;
* **`pkRemoveDeadThreads_both`**: `PKremoveDeadThreads`, with and without `SCHED_CONTROL_MULTIBURST`.
-/

namespace Miosix

open Lib

/-- `REALTIME_PRIORITY_IMMEDIATE`, `REALTIME_PRIORITY_NEXT_BURST` and any other one. -/
inductive ControlRealtimePriority where
  | immediate
  | nextBurst
  | endOfRound
deriving DecidableEq

def ControlSchedulerPriority.getRealtime (pr : ControlSchedulerPriority) : ControlRealtimePriority :=
  if pr.realtime = 1 then .immediate else if pr.realtime = 2 then .nextBurst else .endOfRound

structure MultiburstScheduler (T D : Type) where
  threads : ControlList T
  activeThreads : IntrusiveList T
  curInRound : ListItem T
  idle : T
  cur : T
  kernelRunning : ℕ
  regulation : D
  history : List (RoundEvent T)

inductive MultiburstEvent (T : Type) where
  | add (thread : T) (flags : ℕ) (priority : ControlSchedulerPriority)
  | setFlags (thread : T) (flags : ℕ)
  | find (now : ℤ)
  | pause (kernelRunning : ℕ)

namespace MultiburstScheduler

variable {T D : Type} [DecidableEq T]

/-- Follow a pointer that must not be null. -/
def deref {α : Type} : Option α → Except Fault α
  | some a => .ok a
  | none => .error .badAccess

/-! ## The list of active threads -/

/-- The thread goes before the current one, after it, or to the end of the round. -/
def addThreadToActiveList (s : MultiburstScheduler T D) (t : T) : Except Fault (MultiburstScheduler T D) := do
  let o ← s.threads.load t
  match o.priority.getRealtime with
  | .immediate =>
    let activeThreads ← deref (s.activeThreads.insert s.curInRound t)
    let curInRound ← deref (activeThreads.prev s.curInRound)
    let curInRound ← deref (activeThreads.prev curInRound)
    pure { s with activeThreads := activeThreads, curInRound := curInRound }
  | .nextBurst =>
    let temp ← deref (s.activeThreads.next s.curInRound)
    let activeThreads ← deref (s.activeThreads.insert temp t)
    pure { s with activeThreads := activeThreads }
  | .endOfRound => pure { s with activeThreads := s.activeThreads.pushBack t }

def remThreadFromActiveList (s : MultiburstScheduler T D) (t : T) : Except Fault (MultiburstScheduler T D) := do
  let curInRound ← if s.curInRound = .item t then deref (s.activeThreads.next s.curInRound) else pure s.curInRound
  pure { s with curInRound := curInRound, activeThreads := (s.activeThreads.erase (.item t)).1 }

def setLastReadyStatus (s : MultiburstScheduler T D) (t : T) (b : Bool) : Except Fault (MultiburstScheduler T D) := do
  let threads ← s.threads.modify t fun o => { o with lastReadyStatus := b }
  pure { s with threads := threads }

/-- A loop over the active threads that reads every one. -/
def visitStep (s : MultiburstScheduler T D) :
    ListItem T × List (T × ControlThread T) →
      Except Fault (Flow (ListItem T × List (T × ControlThread T)) (List (T × ControlThread T)))
  | (.emptyListItem, l) => pure (.done l.reverse)
  | (.item it, l) => do
    let o ← s.threads.load it
    let next ← deref (s.activeThreads.next (.item it))
    pure (.next (next, (it, o) :: l))

variable (reg : ControlRegulator T D) (fuel : ℕ)

def visitActive (s : MultiburstScheduler T D) : Except Fault (List (T × ControlThread T)) :=
  forever .diverges s.visitStep fuel (s.activeThreads.head, [])

def irqRecalculateAlfa (s : MultiburstScheduler T D) : Except Fault (MultiburstScheduler T D) := do
  let active ← s.visitActive fuel
  let l ← s.threads.visit fuel
  pure { s with regulation := reg.recalculateAlfa active l s.regulation }

/-! ## The operations -/

/-- A thread object that was just constructed, and is in no list. -/
def create (s : MultiburstScheduler T D) (thread : T) (flags : ℕ) : MultiburstScheduler T D :=
  { s with threads.mem := Function.update s.threads.mem thread (some ⟨none, flags, ⟨0, 3⟩, false⟩) }

def pkAddThread (s : MultiburstScheduler T D) (thread : T) (priority : ControlSchedulerPriority) :
    Except Fault (Option (MultiburstScheduler T D)) :=
  if reg.fixedPoint ∧ 64 ≤ s.threads.threadListSize then pure none
  else do
    let threads ← s.threads.pkAddThread thread priority
    let s := { s with threads := threads }
    let o ← s.threads.load thread
    let s ← if ThreadFlags.isReady o.flags then do
        let s ← s.addThreadToActiveList thread
        s.setLastReadyStatus thread true
      else s.setLastReadyStatus thread false
    some <$> s.irqRecalculateAlfa reg fuel

def pkRemoveDeadThreads (s : MultiburstScheduler T D) : Except Fault (MultiburstScheduler T D) := do
  let threads ← s.threads.pkRemoveDeadThreads fuel
  { s with threads := threads }.irqRecalculateAlfa reg fuel

def irqWaitStatusHook (s : MultiburstScheduler T D) (t : T) : Except Fault (MultiburstScheduler T D) := do
  let o ← s.threads.load t
  let s ← if ThreadFlags.isReady o.flags && !o.lastReadyStatus then do
      let s ← s.addThreadToActiveList t
      s.setLastReadyStatus t true
    else if !ThreadFlags.isReady o.flags && o.lastReadyStatus then do
      let s ← s.remThreadFromActiveList t
      s.setLastReadyStatus t false
    else pure s
  s.irqRecalculateAlfa reg fuel

/-- The flags of a thread change, and the scheduler is told. -/
def setFlags (s : MultiburstScheduler T D) (t : T) (flags : ℕ) : Except Fault (MultiburstScheduler T D) := do
  let threads ← s.threads.modify t fun o => { o with flags := flags }
  let history := if ThreadFlags.isReady flags then s.history else .stops t :: s.history
  { s with threads := threads, history := history }.irqWaitStatusHook reg fuel t

/-- Run the thread at `curInRound`. If it is not ready the source returns `UINT_MAX`. -/
def select (now : ℤ) (s : MultiburstScheduler T D) (c : T) : Except Fault (MultiburstScheduler T D) := do
  let o ← s.threads.load c
  if ThreadFlags.isReady o.flags then
    pure { s with
      curInRound := .item c
      cur := c
      regulation := reg.setNextPreemption (some c) now s.regulation
      history := .selects c :: s.history }
  else throw .unexpected

/-- The body of the loop of `IRQfindNextThread`, which always returns. -/
def findNext (now : ℤ) (s : MultiburstScheduler T D) : Except Fault (MultiburstScheduler T D) := do
  let curInRound ←
    if s.curInRound ≠ .emptyListItem then deref (s.activeThreads.next s.curInRound) else pure s.curInRound
  match curInRound with
  | .item c => s.select reg now c
  | .emptyListItem => do
    let active ← s.visitActive fuel
    match s.activeThreads.head with
    | .emptyListItem =>
      -- no thread is ready, run the idle thread
      pure { s with
        curInRound := .emptyListItem
        cur := s.idle
        regulation := reg.setNextPreemption none now s.regulation
        history := .idles :: s.history }
    | .item front => do
      let l ← s.threads.visit fuel
      let saturated := active.all fun p => reg.saturated s.regulation p.1
      select reg now { s with
        curInRound := .item front
        regulation := reg.runRegulator saturated l s.threads.spTr s.threads.threadListSize s.regulation
        history := .regulator (active.map Prod.fst) :: s.history } front

def irqFindNextThread (now : ℤ) (s : MultiburstScheduler T D) : Except Fault (MultiburstScheduler T D) :=
  if s.kernelRunning ≠ 0 then pure s
  else if s.cur ≠ s.idle then do
    let _ ← s.threads.load s.cur
    findNext reg fuel now { s with regulation := reg.storeBurst s.cur now s.regulation }
  else s.findNext reg fuel now

/-! ## Runs -/

/-- The first thread is added, and `IRQsetIdleThread` is called, before the kernel is started. -/
def initial (main idle : T) (priority : ControlSchedulerPriority) (regulation : D) : MultiburstScheduler T D where
  threads := {
    mem t := if t = main then some ⟨none, 0, priority, true⟩ else none
    threadList := some main
    threadListSize := 1
    spTr := bNominal }
  activeThreads := IntrusiveList.new.pushBack main
  curInRound := .emptyListItem
  idle := idle
  cur := main
  kernelRunning := 0
  regulation := regulation
  history := []

def step (s : MultiburstScheduler T D) : MultiburstEvent T → Except Fault (MultiburstScheduler T D)
  | .add thread flags priority =>
    if (s.threads.mem thread).isSome ∨ thread = s.idle then pure s
    else do return (← (s.create thread flags).pkAddThread reg fuel thread priority).getD s
  | .setFlags thread flags =>
    if (s.threads.mem thread).isNone then pure s else s.setFlags reg fuel thread flags
  | .find now => s.irqFindNextThread reg fuel now
  | .pause kernelRunning => pure { s with kernelRunning := kernelRunning }

def run (s : MultiburstScheduler T D) : List (MultiburstEvent T) → Except Fault (MultiburstScheduler T D)
  | [] => pure s
  | e :: es => do
    let s ← s.step reg fuel e
    s.run es

/-! ## Removal of the dead threads -/

variable {s : MultiburstScheduler T D} {a : List T}

omit [DecidableEq T] in
theorem visitActive_eq {fuel : ℕ} (ha : s.activeThreads.IsList a) (hl : ∀ t ∈ a, ∃ o, s.threads.mem t = some o)
    (hf : a.length < fuel) : s.visitActive fuel = .ok (s.threads.visited a) := by
  suffices hwalk : ∀ b c acc fuel, a = c ++ b → b.length < fuel →
      forever .diverges s.visitStep fuel (IntrusiveList.position b, acc) =
        .ok (acc.reverse ++ s.threads.visited b) by
    rw [visitActive, ha.head]
    exact hwalk a [] [] fuel rfl hf
  intro b
  induction b with
  | nil =>
    rintro c acc (_ | fuel) - hf
    · cases hf
    · exact forever_done (by simp [visitStep, ControlList.visited])
  | cons t b ih =>
    rintro c acc (_ | fuel) rfl hf
    · cases hf
    · obtain ⟨o, ho⟩ := hl t (by simp)
      have hstep : s.visitStep (.item t, acc) = .ok (.next (IntrusiveList.position b, (t, o) :: acc)) := by
        simp [visitStep, ControlList.load_eq ho, ha.next_eq, deref]
      rw [IntrusiveList.position_cons, forever_next hstep,
        ih (c ++ [t]) _ fuel (by simp) (by simpa using hf), ControlList.visited_cons ho]
      simp

omit [DecidableEq T] in
theorem irqRecalculateAlfa_eq {l : List T} {fuel : ℕ} (hl : s.threads.Holds l) (ha : s.activeThreads.IsList a)
    (hsub : a ⊆ l) (hf : l.length < fuel) :
    s.irqRecalculateAlfa reg fuel = .ok { s with
      regulation := reg.recalculateAlfa (s.threads.visited a) (s.threads.visited l) s.regulation } := by
  have hlen : a.length < fuel := lt_of_le_of_lt (ha.nodup.subperm hsub).length_le hf
  rw [irqRecalculateAlfa, visitActive_eq ha (fun t ht => hl.alive t (hsub ht)) hlen, ok_bind,
    ControlList.visit_eq hl hf]
  rfl

/-- **`PKremoveDeadThreads`**, with and without `SCHED_CONTROL_MULTIBURST`. With it, the active threads are some
of those that are not deleted. -/
theorem pkRemoveDeadThreads_both {s : ControlScheduler T D} {m : MultiburstScheduler T D} {l a : List T} {fuel : ℕ}
    (hs : s.threads.Holds l) (hm : m.threads.Holds l) (ha : m.activeThreads.IsList a)
    (hsub : ∀ t ∈ a, t ∈ l ∧ m.threads.deleted t = false) (hf : l.length < fuel) :
    ((∃ s', s.pkRemoveDeadThreads reg fuel = .ok s' ∧ s.threads.RemovesDeleted s'.threads l) ↔
      ControlList.Followed s.threads.deleted (l.dropWhile s.threads.deleted)) ∧
    ((∃ m', m.pkRemoveDeadThreads reg fuel = .ok m' ∧ m.threads.RemovesDeleted m'.threads l) ↔
      ControlList.Followed m.threads.deleted (l.dropWhile m.threads.deleted)) := by
  rw [← ControlList.pkRemoveDeadThreads_iff hs hf, ← ControlList.pkRemoveDeadThreads_iff hm hf]
  have hlen : ∀ p : T → Bool, (l.filter p).length < fuel := fun p => lt_of_le_of_lt (List.length_filter_le _ _) hf
  constructor
  · constructor
    · rintro ⟨s', hok, hr⟩
      obtain ⟨threads, hthreads, hok⟩ := bind_eq_ok hok
      obtain ⟨visited, -, hok⟩ := bind_eq_ok hok
      cases hok
      exact ⟨threads, hthreads, hr⟩
    · rintro ⟨threads, hthreads, hr⟩
      have hok : ({ s with threads := threads } : ControlScheduler T D).irqRecalculateAlfa reg fuel = _ :=
        ControlScheduler.irqRecalculateAlfa_eq reg hr.1 (hlen _)
      exact ⟨_, by rw [ControlScheduler.pkRemoveDeadThreads, hthreads, ok_bind, hok], hr⟩
  · constructor
    · rintro ⟨m', hok, hr⟩
      obtain ⟨threads, hthreads, hok⟩ := bind_eq_ok hok
      obtain ⟨active, -, hok⟩ := bind_eq_ok hok
      obtain ⟨visited, -, hok⟩ := bind_eq_ok hok
      cases hok
      exact ⟨threads, hthreads, hr⟩
    · rintro ⟨threads, hthreads, hr⟩
      have hsub' : a ⊆ l.filter (!m.threads.deleted ·) := fun t ht =>
        List.mem_filter.mpr ⟨(hsub t ht).1, by simp [(hsub t ht).2]⟩
      have hok : ({ m with threads := threads } : MultiburstScheduler T D).irqRecalculateAlfa reg fuel = _ :=
        irqRecalculateAlfa_eq reg hr.1 ha hsub' (hlen _)
      exact ⟨_, by rw [pkRemoveDeadThreads, hthreads, ok_bind, hok], hr⟩

theorem holds_initial (main idle : T) (priority : ControlSchedulerPriority) (regulation : D) :
    (initial main idle priority regulation).threads.Holds [main] where
  linked := ⟨rfl, by simp [initial, ControlList.links, Linked]⟩
  nodup := List.nodup_singleton main
  alive t ht := ⟨⟨none, 0, priority, true⟩, by simp [initial, List.mem_singleton.mp ht]⟩
  size := rfl
  round := rfl

theorem isList_erase {l : IntrusiveList T} {b c : List T} {t : T} (h : l.IsList (b ++ t :: c)) :
    (l.erase (.item t)).1.IsList (b ++ c) := by
  obtain ⟨l', hl', h'⟩ := h.erase
  rwa [hl']

/-- The threads 4, 3, 2, 1 and 0 are in the list; the first two and the one before the last are deleted. -/
theorem pkRemoveDeadThreads_both_five : ∃ s m,
    (ControlScheduler.initial 0 9 0 ⟨1, 3⟩ ()).run (noRegulator ℕ) 9 [.add 1 0 ⟨1, 3⟩, .add 2 0 ⟨1, 3⟩,
      .add 3 0 ⟨1, 3⟩, .add 4 0 ⟨1, 3⟩, .setFlags 4 0x14, .setFlags 1 0x14, .setFlags 3 0x14] = .ok s ∧
    (initial 0 9 ⟨1, 3⟩ ()).run (noRegulator ℕ) 9 [.add 1 0 ⟨1, 3⟩, .add 2 0 ⟨1, 3⟩, .add 3 0 ⟨1, 3⟩,
      .add 4 0 ⟨1, 3⟩, .setFlags 4 0x14, .setFlags 1 0x14, .setFlags 3 0x14] = .ok m ∧
    (∃ s', s.pkRemoveDeadThreads (noRegulator ℕ) 9 = .ok s' ∧ s'.threads.Holds [2, 0] ∧
      ∀ t ∈ [4, 3, 1], s'.threads.mem t = none) ∧
    ∃ m', m.pkRemoveDeadThreads (noRegulator ℕ) 9 = .ok m' ∧ m'.threads.Holds [2, 0] ∧
      ∀ t ∈ [4, 3, 1], m'.threads.mem t = none := by
  obtain ⟨s, hs, hholds, hdeleted⟩ : ∃ s, (ControlScheduler.initial 0 9 0 ⟨1, 3⟩ ()).run (noRegulator ℕ) 9
      [.add 1 0 ⟨1, 3⟩, .add 2 0 ⟨1, 3⟩, .add 3 0 ⟨1, 3⟩, .add 4 0 ⟨1, 3⟩, .setFlags 4 0x14, .setFlags 1 0x14,
        .setFlags 3 0x14] = .ok s ∧ s.threads.Holds [4, 3, 2, 1, 0] ∧
      [4, 3, 2, 1, 0].map s.threads.deleted = [true, true, false, true, false] :=
    ⟨_, rfl, ⟨⟨rfl, rfl, rfl, rfl, rfl, rfl⟩, by decide, by simp only [← Option.isSome_iff_exists]; decide, rfl,
      rfl⟩, rfl⟩
  obtain ⟨m, hm, hmholds, hactive, hmdeleted⟩ : ∃ m, (initial 0 9 ⟨1, 3⟩ ()).run (noRegulator ℕ) 9
      [.add 1 0 ⟨1, 3⟩, .add 2 0 ⟨1, 3⟩, .add 3 0 ⟨1, 3⟩, .add 4 0 ⟨1, 3⟩, .setFlags 4 0x14, .setFlags 1 0x14,
        .setFlags 3 0x14] = .ok m ∧ m.threads.Holds [4, 3, 2, 1, 0] ∧
      m.activeThreads = ((((((((IntrusiveList.new.pushBack 0).pushBack 1).pushBack 2).pushBack 3).pushBack
        4).erase (.item 4)).1.erase (.item 1)).1.erase (.item 3)).1 ∧
      [4, 3, 2, 1, 0].map m.threads.deleted = [true, true, false, true, false] :=
    ⟨_, rfl, ⟨⟨rfl, rfl, rfl, rfl, rfl, rfl⟩, by decide, by simp only [← Option.isSome_iff_exists]; decide, rfl,
      rfl⟩, rfl, rfl⟩
  simp only [List.map_cons, List.map_nil, List.cons.injEq, and_true] at hdeleted hmdeleted
  obtain ⟨h4, h3, h2, h1, h0⟩ := hdeleted
  obtain ⟨hm4, hm3, hm2, hm1, hm0⟩ := hmdeleted
  have hlist : (((((IntrusiveList.new.pushBack 0).pushBack 1).pushBack 2).pushBack 3).pushBack 4).IsList
      [0, 1, 2, 3, 4] :=
    ((((IntrusiveList.isList_new.pushBack (by decide)).pushBack (by decide)).pushBack (by decide)).pushBack
      (by decide)).pushBack (by decide)
  have ha : m.activeThreads.IsList [0, 2] := by
    rw [hactive]
    exact isList_erase (b := [0, 2]) (isList_erase (b := [0]) (isList_erase (b := [0, 1, 2, 3]) hlist))
  obtain ⟨hplain, hmulti⟩ := pkRemoveDeadThreads_both (noRegulator ℕ) hholds hmholds ha
    (by simp [hm2, hm0]) (by decide : [4, 3, 2, 1, 0].length < 9)
  obtain ⟨s', hs', hr⟩ := hplain.mpr (by simp [h4, h3, h2, h1, h0, ControlList.Followed])
  obtain ⟨m', hm', hmr⟩ := hmulti.mpr (by simp [hm4, hm3, hm2, hm1, hm0, ControlList.Followed])
  refine ⟨s, m, hs, hm, ⟨s', hs', ?_, ?_⟩, m', hm', ?_, ?_⟩
  · simpa [h4, h3, h2, h1, h0] using hr.1
  · simpa [h4, h3, h2, h1, h0] using hr.2.freed
  · simpa [hm4, hm3, hm2, hm1, hm0] using hmr.1
  · simpa [hm4, hm3, hm2, hm1, hm0] using hmr.2.freed

/-- Threads 2 and 1 follow each other in the list and are deleted: thread 1 stays. The first thread of all is
deleted, and another one is not: the end of the list is missed. -/
theorem pkRemoveDeadThreads_misses :
    (∃ s s', (ControlScheduler.initial 0 9 0 ⟨1, 3⟩ ()).run (noRegulator ℕ) 9 [.add 1 0 ⟨1, 3⟩, .add 2 0 ⟨1, 3⟩,
        .add 3 0 ⟨1, 3⟩, .setFlags 2 0x14, .setFlags 1 0x14] = .ok s ∧
      s.pkRemoveDeadThreads (noRegulator ℕ) 9 = .ok s' ∧ s.threads.deleted 1 = true ∧
      (s'.threads.mem 1).isSome = true) ∧
    ∃ s, (ControlScheduler.initial 0 9 0 ⟨1, 3⟩ ()).run (noRegulator ℕ) 9 [.add 1 0 ⟨1, 3⟩, .setFlags 0 0x14] = .ok s ∧
      s.pkRemoveDeadThreads (noRegulator ℕ) 9 = .error .badAccess := by
  exact ⟨⟨_, _, rfl, rfl, rfl, rfl⟩, _, rfl, rfl⟩

end MultiburstScheduler

end Miosix
