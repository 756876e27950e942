import MiosixKernel.Timer.Wakeup
import MiosixKernel.Sched.Sleeping

/-!
# The sleeping list of the timer interrupt

The interrupt is modelled with the sleeping threads in a list, and the kernel has them in an intrusive list, whose entries
are on the stacks of the threads.

* `Shadows`: the list of the interrupt has the entries of the intrusive list, in the same order, and the same flags;
* `Shadows.add`, `Shadows.wake`: a thread goes to sleep, and the threads are woken whose time has come;
* **`run_shadows`**: the two go on together along every run.
-/

namespace Miosix

namespace Sleeping

variable {D T P : Type}

/-- What the interrupt sees of an entry. -/
def Entry.data (e : Entry D T) : SleepData T := ⟨some e.thread, e.wakeupTime⟩

/-- The list of the interrupt is the intrusive one, with the entries `l`. -/
structure Shadows (s : Sleeping D T) (k : SleepState T P) (l : List (Entry D T)) : Prop where
  inv : s.Inv l
  list : k.sleepingList = l.map Entry.data
  flags : k.sleepFlag = s.sleep

variable [DecidableEq D] [DecidableEq T] {s : Sleeping D T} {k : SleepState T P} {l : List (Entry D T)} {e : Entry D T}
  {fuel : ℕ}

/-! ## Going to sleep -/

omit [DecidableEq D] in
theorem sleepingList_add (e : Entry D T) (hk : k.sleepingList = l.map Entry.data) :
    (k.irqAddToSleepingList e.thread e.wakeupTime).sleepingList = (addEntry l e).map Entry.data := by
  unfold SleepState.irqAddToSleepingList addEntry
  dsimp only [SleepState.irqSetSleep]
  rw [hk, List.map_append, List.map_cons, List.takeWhile_map, List.dropWhile_map]
  split_ifs with hfirst
  · cases l with
    | nil => rfl
    | cons d l =>
      have hd : ¬ d.wakeupTime < e.wakeupTime := not_lt.2 (hfirst d.data rfl)
      rw [List.takeWhile_cons_of_neg (by simpa using hd), List.dropWhile_cons_of_neg (by simpa using hd)]
      rfl
  · rfl

omit [DecidableEq D] in
theorem sleepFlag_add (t : T) (time : ℤ) :
    (k.irqAddToSleepingList t time).sleepFlag = Function.update k.sleepFlag t true := by
  unfold SleepState.irqAddToSleepingList
  dsimp only
  split_ifs <;> rfl

/-- **A thread goes to sleep**, in both lists. -/
theorem Shadows.add (h : Shadows s k l) (hf : l.length ≤ fuel) (hitem : ∀ d ∈ l, d.item ≠ e.item)
    (hthread : ∀ d ∈ l, d.thread ≠ e.thread) : ∃ s', s.add fuel e.item e.thread e.wakeupTime = some s' ∧
      Shadows s' (k.irqAddToSleepingList e.thread e.wakeupTime) (addEntry l e) := by
  obtain ⟨s', hrun, hinv⟩ := add_spec h.inv hf hitem hthread
  refine ⟨s', hrun, hinv, sleepingList_add e h.list, funext fun t => Bool.eq_iff_iff.2 ?_⟩
  rw [sleepFlag_add, hinv.flags t, ((addEntry_perm l e).map Entry.thread).mem_iff, List.map_cons, List.mem_cons,
    ← h.inv.flags t, h.flags]
  by_cases ht : t = e.thread
  · simp [ht]
  · simp [ht]

/-! ## Waking up -/

section Wake

variable [LT P] [DecidableLT P]

omit [DecidableEq D] in
/-- The loop of the interrupt: the entries that stay, what it returns, and the flags. -/
theorem wakeLoop_data (currentTime : ℤ) (hl : l.Pairwise fun d e => d.wakeupTime ≤ e.wakeupTime) (k : SleepState T P) :
    ∃ result flags, SleepState.wakeLoop currentTime (l.map Entry.data) k =
        ((l.filter fun d => decide (currentTime < d.wakeupTime)).map Entry.data, result, { k with sleepFlag := flags }) ∧
      (result = true ↔ ∃ e ∈ l, e.wakeupTime ≤ currentTime ∧ k.priority k.cur < k.priority e.thread) ∧
      ∀ t, flags t = true ↔ k.sleepFlag t = true ∧ ∀ e ∈ l, e.thread = t → currentTime < e.wakeupTime := by
  induction l generalizing k with
  | nil => exact ⟨false, k.sleepFlag, rfl, by simp, by simp⟩
  | cons e l ih =>
    rw [List.map_cons, SleepState.wakeLoop]
    by_cases hlt : currentTime < e.wakeupTime
    · have hlater : ∀ d ∈ e :: l, ¬ d.wakeupTime ≤ currentTime := fun d hd => not_le.2 <| by
        rcases List.mem_cons.1 hd with rfl | hd
        · exact hlt
        · exact hlt.trans_le ((List.pairwise_cons.1 hl).1 d hd)
      refine ⟨false, k.sleepFlag, ?_, ?_, fun t =>
        ⟨fun h => ⟨h, fun d hd _ => not_le.1 (hlater d hd)⟩, And.left⟩⟩
      · rw [filter_eq_self hl hlt]
        exact if_pos hlt
      · refine iff_of_false Bool.false_ne_true ?_
        rintro ⟨d, hd, hle, -⟩
        exact hlater d hd hle
    · obtain ⟨result, flags, hrun, hresult, hflags⟩ := ih (List.pairwise_cons.1 hl).2 (k.irqSetSleep e.thread false)
      refine ⟨decide (k.priority k.cur < k.priority e.thread) || result, flags, ?_, ?_, fun t => ?_⟩
      · rw [if_neg (show ¬ currentTime < e.data.wakeupTime from hlt), List.filter_cons_of_neg (by simpa using hlt)]
        dsimp only [Entry.data]
        simp only [hrun]
        rfl
      · rw [Bool.or_eq_true, hresult, List.exists_mem_cons_iff, and_iff_right (not_lt.1 hlt), decide_eq_true_eq]
        rfl
      · rw [hflags, List.forall_mem_cons]
        by_cases ht : e.thread = t
        · simp [SleepState.irqSetSleep, ht, hlt]
        · simp [SleepState.irqSetSleep, Function.update_of_ne (Ne.symm ht), ht]

omit [DecidableEq D] in
/-- With an empty list the loop does nothing. -/
theorem irqWakeThreads_loop (currentTime : ℤ) (k : SleepState T P) : k.irqWakeThreads currentTime =
    ((SleepState.wakeLoop currentTime k.sleepingList k).2.1, { (SleepState.wakeLoop currentTime k.sleepingList k).2.2 with
      sleepingList := (SleepState.wakeLoop currentTime k.sleepingList k).1 }) := by
  unfold SleepState.irqWakeThreads
  split_ifs with hempty
  · rw [List.isEmpty_iff] at hempty
    cases k
    cases hempty
    rfl
  · rfl

variable [SchedulerPriority P]

/-- **The threads are woken whose time has come**, in both lists, and the answers are the same. -/
theorem Shadows.wake (hless : ∀ a b : P, SchedulerPriority.less a b = decide (a < b)) (h : Shadows s k l)
    (hf : l.length ≤ fuel) (currentTime : ℤ) : ∃ s', s.irqWakeThreads fuel k.priority k.cur currentTime =
        some (s', (k.irqWakeThreads currentTime).1) ∧
      Shadows s' (k.irqWakeThreads currentTime).2 (l.filter fun d => decide (currentTime < d.wakeupTime)) := by
  obtain ⟨s', b, hrun, hinv, hb⟩ := irqWakeThreads_spec h.inv hf k.priority k.cur currentTime
  obtain ⟨result, flags, hloop, hresult, hflags⟩ := wakeLoop_data currentTime h.inv.sorted k
  have hk : k.irqWakeThreads currentTime = (result, { k with
      sleepingList := (l.filter fun d => decide (currentTime < d.wakeupTime)).map Entry.data
      sleepFlag := flags }) := by
    rw [irqWakeThreads_loop, h.list, hloop]
  have hanswer : b = result := Bool.eq_iff_iff.2 (by simp only [hb, hresult, hless, decide_eq_true_eq])
  rw [hk]
  refine ⟨s', by rw [hrun, hanswer], hinv, rfl, funext fun t => Bool.eq_iff_iff.2 ?_⟩
  rw [hflags, h.flags, h.inv.sleep_filter hinv]

/-! ## Runs -/

/-- What the interrupt's list does at an event. The priorities and the running thread are those of the event. -/
def stepList (k : SleepState T P) : Event D T P → SleepState T P
  | .add _ t time => k.irqAddToSleepingList t time
  | .wake priority cur currentTime => ({ k with priority := priority, cur := cur }.irqWakeThreads currentTime).2

theorem Shadows.step (hless : ∀ a b : P, SchedulerPriority.less a b = decide (a < b)) (h : Shadows s k l)
    (hf : l.length ≤ fuel) (ev : Event D T P) (hev : Allowed l [ev]) :
    ∃ s', s.step fuel ev = some s' ∧ Shadows s' (stepList k ev) (entriesAfter l ev) := by
  cases ev with
  | add x t time =>
    obtain ⟨⟨hitem, hthread⟩, -⟩ := hev
    exact Shadows.add (e := ⟨x, t, time⟩) h hf hitem hthread
  | wake priority cur currentTime =>
    have h' : Shadows s { k with priority := priority, cur := cur } l := ⟨h.inv, h.list, h.flags⟩
    obtain ⟨s', hrun, hs'⟩ := h'.wake hless hf currentTime
    exact ⟨s', by rw [Sleeping.step, hrun]; rfl, hs'⟩

theorem Shadows.run (hless : ∀ a b : P, SchedulerPriority.less a b = decide (a < b)) (events : List (Event D T P))
    (h : Shadows s k l) (hallowed : Allowed l events) (hf : l.length + events.length ≤ fuel) :
    ∃ s', Sleeping.run fuel s events = some s' ∧ Shadows s' (events.foldl stepList k) (events.foldl entriesAfter l) := by
  induction events generalizing s k l with
  | nil => exact ⟨s, rfl, h⟩
  | cons ev events ih =>
    obtain ⟨hev, hrest⟩ := hallowed
    rw [List.length_cons] at hf
    have hlen := length_entriesAfter l ev
    have hl : l.length ≤ fuel := by omega
    obtain ⟨s₁, hrun, h₁⟩ := h.step hless hl ev ⟨hev, trivial⟩
    obtain ⟨s', hrun', h'⟩ := ih h₁ hrest (by omega)
    exact ⟨s', by rw [Sleeping.run, hrun]; exact hrun', h'⟩

/-- **The two lists.** After every sequence of threads going to sleep and being woken, the interrupt's list is the intrusive
one: the same threads with the same wakeup times in the same order, and the same flags. -/
theorem run_shadows (hless : ∀ a b : P, SchedulerPriority.less a b = decide (a < b)) (p : D → Option T)
    (wakeupTime : D → ℤ) (events : List (Event D T P)) (hallowed : Allowed [] events) (hfuel : events.length ≤ fuel)
    (hk : k.sleepingList = []) (hflags : ∀ t, k.sleepFlag t = false) :
    ∃ s, Sleeping.run fuel (init p wakeupTime) events = some s ∧
      Shadows s (events.foldl stepList k) (events.foldl entriesAfter []) :=
  Shadows.run hless events ⟨init_inv p wakeupTime, hk, funext hflags⟩ hallowed (by simpa using hfuel)

end Wake

end Sleeping

end Miosix
