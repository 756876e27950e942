import MiosixKernel.Kernel.IntrusiveList
import MiosixKernel.Sched.Priority

/-!
# The list of sleeping threads

`sleepingList` is sorted by the time at which the threads are to be woken. A thread that goes to sleep
enters it with a `SleepData` on its stack, and `IRQwakeThreads` removes the threads at the front.

* `Sleeping`: the list, the entries and the flags;
* `irqAddToSleepingList`, `irqWakeThreads`: the code;
* `Entry`, `addEntry`: the list as it is meant to be;
* **`run_sleeping`**: after every run, the list has the sleeping threads, sorted.
-/

namespace Miosix

open Lib

structure Sleeping (D T : Type) where
  sleepingList : IntrusiveList D
  /- The fields of a `SleepData`. -/
  p : D → Option T
  wakeupTime : D → ℤ
  /- `SLEEP` is set in the flags of the thread. -/
  sleep : T → Bool

namespace Sleeping

open IntrusiveList ListItem

variable {D T P : Type} [DecidableEq D] [DecidableEq T] [SchedulerPriority P]

/-! ## The code -/

def irqSetSleep (s : Sleeping D T) (t : T) (sleeping : Bool) : Sleeping D T :=
  { s with sleep := Function.update s.sleep t sleeping }

/-- The loop that looks for the place of a thread: the first entry that is not to be woken before. -/
def findPlace (s : Sleeping D T) (time : ℤ) : ℕ → ListItem D → Option (ListItem D)
  | _, emptyListItem => some emptyListItem
  | 0, item _ => none
  | fuel + 1, item d =>
    if s.wakeupTime d < time then do
      let it ← s.sleepingList.next (item d)
      s.findPlace time fuel it
    else some (item d)

/-- `none` is a null pointer, or a loop that goes on for ever. -/
def irqAddToSleepingList (fuel : ℕ) (s : Sleeping D T) (x : D) : Option (Sleeping D T) := do
  let t ← s.p x
  let s := s.irqSetSleep t true
  match s.sleepingList.head with
  | emptyListItem => some { s with sleepingList := s.sleepingList.pushFront x }
  | item d =>
    if s.wakeupTime x ≤ s.wakeupTime d then
      some { s with sleepingList := s.sleepingList.pushFront x }
    else do
      let it ← s.findPlace (s.wakeupTime x) fuel s.sleepingList.head
      let list ← s.sleepingList.insert it x
      some { s with sleepingList := list }

/-- The loop of `irqWakeThreads`. -/
def wakeLoop (priority : T → P) (cur : T) (currentTime : ℤ) :
    ℕ → Sleeping D T → ListItem D → Bool → Option (Sleeping D T × Bool)
  | _, s, emptyListItem, result => some (s, result)
  | 0, _, item _, _ => none
  | fuel + 1, s, item d, result =>
    if currentTime < s.wakeupTime d then some (s, result)
    else
      match s.p d with
      | none => do
        let it ← s.sleepingList.next (item d)
        wakeLoop priority cur currentTime fuel s it result
      | some t =>
        let s := s.irqSetSleep t false
        let result := SchedulerPriority.less (priority cur) (priority t) || result
        let (list, it) := s.sleepingList.erase (item d)
        wakeLoop priority cur currentTime fuel { s with sleepingList := list } it result

def irqWakeThreads (fuel : ℕ) (s : Sleeping D T) (priority : T → P) (cur : T) (currentTime : ℤ) :
    Option (Sleeping D T × Bool) :=
  if s.sleepingList.isEmpty then some (s, false)
  else wakeLoop priority cur currentTime fuel s s.sleepingList.head false

/-! ## Runs -/

/-- A thread goes to sleep with a new `SleepData`, or the threads whose time has come are woken while
another thread runs. -/
inductive Event (D T P : Type) where
  | add (x : D) (t : T) (time : ℤ)
  | wake (priority : T → P) (cur : T) (currentTime : ℤ)

/-- The thread fills in its `SleepData` and enters the list. -/
def add (fuel : ℕ) (s : Sleeping D T) (x : D) (t : T) (time : ℤ) : Option (Sleeping D T) :=
  irqAddToSleepingList fuel { s with
    p := Function.update s.p x (some t)
    wakeupTime := Function.update s.wakeupTime x time } x

def step (fuel : ℕ) (s : Sleeping D T) : Event D T P → Option (Sleeping D T)
  | .add x t time => s.add fuel x t time
  | .wake priority cur currentTime => Prod.fst <$> s.irqWakeThreads fuel priority cur currentTime

def run (fuel : ℕ) : Sleeping D T → List (Event D T P) → Option (Sleeping D T)
  | s, [] => some s
  | s, e :: events => do
    let s ← s.step fuel e
    run fuel s events

/-- Nobody sleeps. What a `SleepData` has before it is filled in does not matter. -/
def init (p : D → Option T) (wakeupTime : D → ℤ) : Sleeping D T :=
  ⟨IntrusiveList.new, p, wakeupTime, fun _ => false⟩

/-! ## The list as it is meant to be -/

/-- A thread that sleeps. -/
structure Entry (D T : Type) where
  item : D
  thread : T
  wakeupTime : ℤ

/-- A thread enters the list before those that are not to be woken before it. -/
def addEntry (l : List (Entry D T)) (e : Entry D T) : List (Entry D T) :=
  l.takeWhile (fun d => decide (d.wakeupTime < e.wakeupTime)) ++
    e :: l.dropWhile fun d => decide (d.wakeupTime < e.wakeupTime)

/-- The threads that sleep after an event. -/
def entriesAfter (l : List (Entry D T)) : Event D T P → List (Entry D T)
  | .add x t time => addEntry l ⟨x, t, time⟩
  | .wake _ _ currentTime => l.filter fun d => decide (currentTime < d.wakeupTime)

/-- The threads that enter the list, and their `SleepData`, are not in it. -/
def Allowed : List (Entry D T) → List (Event D T P) → Prop
  | _, [] => True
  | l, e :: events => (match e with
      | .add x t _ => (∀ d ∈ l, d.item ≠ x) ∧ ∀ d ∈ l, d.thread ≠ t
      | .wake _ _ _ => True) ∧ Allowed (entriesAfter l e) events

/-- The list has the entries `l`, which are sorted, and the flags say who sleeps. -/
structure Inv (s : Sleeping D T) (l : List (Entry D T)) : Prop where
  list : s.sleepingList.IsList (l.map Entry.item)
  data : ∀ e ∈ l, s.p e.item = some e.thread ∧ s.wakeupTime e.item = e.wakeupTime
  sorted : l.Pairwise fun d e => d.wakeupTime ≤ e.wakeupTime
  threads : (l.map Entry.thread).Nodup
  flags : ∀ t, s.sleep t = true ↔ t ∈ l.map Entry.thread

variable {s s' : Sleeping D T} {l a b : List (Entry D T)} {e : Entry D T} {fuel : ℕ}

/-! ## Going to sleep -/

omit [DecidableEq D] [DecidableEq T] in
theorem addEntry_perm (l : List (Entry D T)) (e : Entry D T) : (addEntry l e).Perm (e :: l) := by
  rw [addEntry]
  refine List.perm_middle.trans (List.Perm.cons e ?_)
  rw [List.takeWhile_append_dropWhile]

omit [DecidableEq D] [DecidableEq T] in
theorem addEntry_sorted (hl : l.Pairwise fun d e => d.wakeupTime ≤ e.wakeupTime) (e : Entry D T) :
    (addEntry l e).Pairwise fun d e => d.wakeupTime ≤ e.wakeupTime := by
  induction l with
  | nil => exact List.pairwise_singleton _ _
  | cons d l ih =>
    obtain ⟨hd, hl⟩ := List.pairwise_cons.1 hl
    by_cases hlt : d.wakeupTime < e.wakeupTime
    · have heq : addEntry (d :: l) e = d :: addEntry l e := by simp [addEntry, hlt]
      rw [heq]
      refine List.pairwise_cons.2 ⟨fun x hx => ?_, ih hl⟩
      rcases List.mem_cons.1 ((addEntry_perm l e).mem_iff.1 hx) with rfl | hx
      · exact hlt.le
      · exact hd x hx
    · have heq : addEntry (d :: l) e = e :: d :: l := by simp [addEntry, hlt]
      rw [heq]
      refine List.pairwise_cons.2 ⟨fun x hx => ?_, List.pairwise_cons.2 ⟨hd, hl⟩⟩
      rcases List.mem_cons.1 hx with rfl | hx
      · exact not_lt.1 hlt
      · exact (not_lt.1 hlt).trans (hd x hx)

omit [DecidableEq D] [DecidableEq T] in
/-- The loop stops at the first entry that is not to be woken before. -/
theorem findPlace_spec (time : ℤ) : ∀ (b : List (Entry D T)) {a : List (Entry D T)} (fuel : ℕ),
    s.sleepingList.IsList ((a ++ b).map Entry.item) → (∀ e ∈ b, s.wakeupTime e.item = e.wakeupTime) →
    b.length ≤ fuel → s.findPlace time fuel (position (b.map Entry.item)) =
      some (position ((b.dropWhile fun d => decide (d.wakeupTime < time)).map Entry.item))
  | [], _, fuel, _, _, _ => by cases fuel <;> rfl
  | _ :: _, _, 0, _, _, hf => by simp at hf
  | e :: b, a, fuel + 1, hl, hdata, hf => by
    have hnext : s.sleepingList.next (item e.item) = some (position (b.map Entry.item)) := by
      refine IsList.next_eq (a := a.map Entry.item) ?_
      simpa using hl
    have ih := findPlace_spec time b (a := a ++ [e]) fuel (by simpa using hl)
      (fun d hd => hdata d (List.mem_cons_of_mem _ hd)) (by simpa using hf)
    rw [List.map_cons, position_cons, findPlace, hdata e List.mem_cons_self]
    by_cases hlt : e.wakeupTime < time
    · rw [if_pos hlt, hnext, List.dropWhile_cons_of_pos (by simpa using hlt)]
      exact ih
    · rw [if_neg hlt, List.dropWhile_cons_of_neg (by simpa using hlt)]
      rfl

/-- **A thread goes to sleep.** -/
theorem add_spec (h : s.Inv l) (hf : l.length ≤ fuel) (hitem : ∀ d ∈ l, d.item ≠ e.item)
    (hthread : ∀ d ∈ l, d.thread ≠ e.thread) :
    ∃ s', s.add fuel e.item e.thread e.wakeupTime = some s' ∧ s'.Inv (addEntry l e) := by
  have hx : e.item ∉ l.map Entry.item := by
    rw [List.mem_map]
    rintro ⟨d, hd, heq⟩
    exact hitem d hd heq
  have ht : e.thread ∉ l.map Entry.thread := by
    rw [List.mem_map]
    rintro ⟨d, hd, heq⟩
    exact hthread d hd heq
  set s₁ : Sleeping D T := irqSetSleep { s with
    p := Function.update s.p e.item (some e.thread)
    wakeupTime := Function.update s.wakeupTime e.item e.wakeupTime } e.thread true with hs₁
  have hdata : ∀ d ∈ l, s₁.p d.item = some d.thread ∧ s₁.wakeupTime d.item = d.wakeupTime := by
    intro d hd
    obtain ⟨h1, h2⟩ := h.data d hd
    exact ⟨(Function.update_of_ne (hitem d hd) _ _).trans h1,
      (Function.update_of_ne (hitem d hd) _ _).trans h2⟩
  have he : s₁.p e.item = some e.thread ∧ s₁.wakeupTime e.item = e.wakeupTime :=
    ⟨Function.update_self _ _ _, Function.update_self _ _ _⟩
  -- The list is all that remains to be shown.
  have hinv : ∀ list : IntrusiveList D, list.IsList ((addEntry l e).map Entry.item) →
      Inv { s₁ with sleepingList := list } (addEntry l e) := by
    intro list hlist
    have hperm := addEntry_perm l e
    refine ⟨hlist, fun d hd => ?_, addEntry_sorted h.sorted e, ?_, fun t => ?_⟩
    · rcases List.mem_cons.1 (hperm.mem_iff.1 hd) with rfl | hd
      · exact he
      · exact hdata d hd
    · exact (hperm.map Entry.thread).nodup_iff.2 (List.nodup_cons.2 ⟨ht, h.threads⟩)
    · rw [(hperm.map Entry.thread).mem_iff, List.map_cons, List.mem_cons, ← h.flags t]
      by_cases hte : t = e.thread
      · simp [hs₁, irqSetSleep, hte]
      · simp [hs₁, irqSetSleep, hte]
  have hfront : addEntry l e = e :: l → (s₁.sleepingList.pushFront e.item).IsList
      ((addEntry l e).map Entry.item) := fun heq => by
    rw [heq]
    exact h.list.pushFront hx
  have hrun : s.add fuel e.item e.thread e.wakeupTime =
      (match s₁.sleepingList.head with
      | emptyListItem => some { s₁ with sleepingList := s₁.sleepingList.pushFront e.item }
      | item d =>
        if s₁.wakeupTime e.item ≤ s₁.wakeupTime d then
          some { s₁ with sleepingList := s₁.sleepingList.pushFront e.item }
        else do
          let it ← s₁.findPlace (s₁.wakeupTime e.item) fuel s₁.sleepingList.head
          let list ← s₁.sleepingList.insert it e.item
          some { s₁ with sleepingList := list }) := by
    simp only [add, irqAddToSleepingList, Function.update_self, Option.bind_eq_bind, Option.bind_some]
    rfl
  have hhead : s₁.sleepingList.head = position (l.map Entry.item) := h.list.head
  rw [hrun, hhead, he.2]
  cases l with
  | nil => exact ⟨_, rfl, hinv _ (hfront rfl)⟩
  | cons d l =>
    rw [List.map_cons, position_cons]
    dsimp only
    rw [(hdata d List.mem_cons_self).2]
    by_cases hle : e.wakeupTime ≤ d.wakeupTime
    · rw [if_pos hle]
      exact ⟨_, rfl, hinv _ (hfront (by simp [addEntry, not_lt.2 hle]))⟩
    · rw [if_neg hle]
      have hfind := findPlace_spec (s := s₁) e.wakeupTime (d :: l) (a := []) fuel h.list
        (fun x hx => (hdata x hx).2) hf
      rw [List.map_cons, position_cons] at hfind
      rw [hfind]
      have hsplit := List.takeWhile_append_dropWhile
        (p := fun x : Entry D T => decide (x.wakeupTime < e.wakeupTime)) (l := d :: l)
      have hlist : s.sleepingList.IsList
          (((d :: l).takeWhile fun x => decide (x.wakeupTime < e.wakeupTime)).map Entry.item ++
            ((d :: l).dropWhile fun x => decide (x.wakeupTime < e.wakeupTime)).map Entry.item) := by
        rw [← List.map_append, hsplit]
        exact h.list
      obtain ⟨list, hins, hl'⟩ := hlist.insert (x := e.item) (by rwa [← List.map_append, hsplit])
      refine ⟨{ s₁ with sleepingList := list }, ?_, hinv list ?_⟩
      · rw [Option.bind_eq_bind, Option.bind_some]
        change (s.sleepingList.insert _ _ >>= _) = _
        rw [hins]
        rfl
      · rwa [addEntry, List.map_append, List.map_cons]

/-! ## Waking up -/

omit [DecidableEq D] [DecidableEq T] in
/-- Nobody is woken if the first thread is not. -/
theorem filter_eq_self (hl : (e :: l).Pairwise fun d e => d.wakeupTime ≤ e.wakeupTime) {time : ℤ}
    (he : time < e.wakeupTime) : (e :: l).filter (fun d => decide (time < d.wakeupTime)) = e :: l := by
  refine List.filter_eq_self.2 fun d hd => decide_eq_true ?_
  rcases List.mem_cons.1 hd with rfl | hd
  · exact he
  · exact he.trans_le ((List.pairwise_cons.1 hl).1 d hd)

/-- The first thread is woken. -/
theorem Inv.wakeFirst (h : s.Inv (e :: l)) : ∃ list,
    s.sleepingList.erase (item e.item) = (list, position (l.map Entry.item)) ∧
      Inv { s.irqSetSleep e.thread false with sleepingList := list } l := by
  obtain ⟨list, hrun, hlist⟩ := IsList.erase (a := []) (b := l.map Entry.item) h.list
  obtain ⟨ht, hnd⟩ := List.nodup_cons.1 h.threads
  refine ⟨list, hrun, hlist, fun d hd => h.data d (List.mem_cons_of_mem _ hd),
    (List.pairwise_cons.1 h.sorted).2, hnd, fun t => ?_⟩
  by_cases hte : t = e.thread
  · subst hte
    simp only [irqSetSleep, Function.update_self]
    exact iff_of_false Bool.false_ne_true ht
  · simp only [irqSetSleep, Function.update_of_ne hte]
    rw [h.flags t, List.map_cons, List.mem_cons]
    exact or_iff_right hte

/-- **The loop wakes the threads whose time has come**, and tells if one has a higher priority. -/
theorem wakeLoop_spec (priority : T → P) (cur : T) (currentTime : ℤ) :
    ∀ (l : List (Entry D T)) {s : Sleeping D T} (fuel : ℕ) (result : Bool), s.Inv l → l.length ≤ fuel →
      ∃ s' b, wakeLoop priority cur currentTime fuel s (position (l.map Entry.item)) result = some (s', b) ∧
        s'.Inv (l.filter fun d => decide (currentTime < d.wakeupTime)) ∧
        (b = true ↔ result = true ∨ ∃ e ∈ l, e.wakeupTime ≤ currentTime ∧
          SchedulerPriority.less (priority cur) (priority e.thread) = true)
  | [], s, fuel, result, h, _ => by
    refine ⟨s, result, ?_, h, by simp⟩
    cases fuel <;> rfl
  | _ :: _, _, 0, _, _, hf => by simp at hf
  | e :: l, s, fuel + 1, result, h, hf => by
    obtain ⟨hp, htime⟩ := h.data e List.mem_cons_self
    rw [List.map_cons, position_cons, wakeLoop, htime]
    by_cases hlt : currentTime < e.wakeupTime
    · refine ⟨s, result, if_pos hlt, (filter_eq_self h.sorted hlt).symm ▸ h, ?_⟩
      refine (or_iff_left ?_).symm
      rintro ⟨d, hd, hle, -⟩
      rcases List.mem_cons.1 hd with rfl | hd
      · exact absurd hle (not_le.2 hlt)
      · exact absurd hle (not_le.2 (hlt.trans_le ((List.pairwise_cons.1 h.sorted).1 d hd)))
    · obtain ⟨list, herase, hinv⟩ := h.wakeFirst
      obtain ⟨s', b, hrun, hinv', hb⟩ := wakeLoop_spec priority cur currentTime l fuel
        (SchedulerPriority.less (priority cur) (priority e.thread) || result) hinv (by simpa using hf)
      refine ⟨s', b, ?_, ?_, ?_⟩
      · rw [if_neg hlt, hp]
        have herase' : (s.irqSetSleep e.thread false).sleepingList.erase (item e.item) =
            (list, position (l.map Entry.item)) := herase
        simp only [herase']
        exact hrun
      · rwa [List.filter_cons_of_neg (by simpa using hlt)]
      · rw [hb, Bool.or_eq_true, List.exists_mem_cons_iff, and_iff_right (not_lt.1 hlt)]
        tauto

omit [DecidableEq D] [DecidableEq T] in
/-- The threads that were not woken still sleep. -/
theorem Inv.sleep_filter {currentTime : ℤ} (h : s.Inv l)
    (h' : s'.Inv (l.filter fun d => decide (currentTime < d.wakeupTime))) (t : T) :
    s'.sleep t = true ↔ s.sleep t = true ∧ ∀ e ∈ l, e.thread = t → currentTime < e.wakeupTime := by
  rw [h'.flags, h.flags]
  simp only [List.mem_map, List.mem_filter, decide_eq_true_eq]
  constructor
  · rintro ⟨e, ⟨he, hlt⟩, rfl⟩
    refine ⟨⟨e, he, rfl⟩, fun d hd hde => ?_⟩
    rwa [List.inj_on_of_nodup_map h.threads hd he hde]
  · rintro ⟨⟨e, he, rfl⟩, hlt⟩
    exact ⟨e, ⟨he, hlt e he rfl⟩, rfl⟩

theorem irqWakeThreads_spec (h : s.Inv l) (hf : l.length ≤ fuel) (priority : T → P) (cur : T)
    (currentTime : ℤ) : ∃ s' b, s.irqWakeThreads fuel priority cur currentTime = some (s', b) ∧
      s'.Inv (l.filter fun d => decide (currentTime < d.wakeupTime)) ∧
      (b = true ↔ ∃ e ∈ l, e.wakeupTime ≤ currentTime ∧
        SchedulerPriority.less (priority cur) (priority e.thread) = true) := by
  obtain ⟨s', b, hrun, hinv, hb⟩ := wakeLoop_spec priority cur currentTime l fuel false h hf
  rw [irqWakeThreads]
  split_ifs with hempty
  · obtain rfl : l = [] := List.map_eq_nil_iff.1 (h.list.isEmpty_iff.1 hempty)
    exact ⟨s, false, rfl, h, by simp⟩
  · refine ⟨s', b, ?_, hinv, by simpa using hb⟩
    rw [show s.sleepingList.head = _ from h.list.head]
    exact hrun

/-! ## Every run -/

omit [DecidableEq D] [DecidableEq T] [SchedulerPriority P] in
theorem length_entriesAfter (l : List (Entry D T)) (e : Event D T P) :
    (entriesAfter l e).length ≤ l.length + 1 := by
  cases e with
  | add x t time => exact (addEntry_perm l ⟨x, t, time⟩).length_eq.le
  | wake priority cur currentTime => exact (List.length_filter_le _ l).trans (Nat.le_succ _)

/-- **One event.** -/
theorem step_spec (h : s.Inv l) (hf : l.length ≤ fuel) (ev : Event D T P)
    (hev : Allowed l [ev]) : ∃ s', s.step fuel ev = some s' ∧ s'.Inv (entriesAfter l ev) := by
  cases ev with
  | add x t time =>
    obtain ⟨⟨hitem, hthread⟩, -⟩ := hev
    exact add_spec (e := ⟨x, t, time⟩) h hf hitem hthread
  | wake priority cur currentTime =>
    obtain ⟨s', b, hrun, hinv, -⟩ := irqWakeThreads_spec h hf priority cur currentTime
    exact ⟨s', by rw [step, hrun]; rfl, hinv⟩

theorem run_inv : ∀ (events : List (Event D T P)) {s : Sleeping D T} {l : List (Entry D T)}, s.Inv l →
    Allowed l events → l.length + events.length ≤ fuel →
    ∃ s', run fuel s events = some s' ∧ s'.Inv (events.foldl entriesAfter l) ∧
      (events.foldl entriesAfter l).length ≤ fuel
  | [], s, _, h, _, hf => ⟨s, rfl, h, hf⟩
  | ev :: events, s, l, h, ⟨hev, hrest⟩, hf => by
    rw [List.length_cons] at hf
    have hl : l.length ≤ fuel := by omega
    have hlen := length_entriesAfter l ev
    obtain ⟨s₁, hrun, hinv⟩ := step_spec h hl ev ⟨hev, trivial⟩
    obtain ⟨s', hrun', hinv'⟩ := run_inv events hinv hrest (by omega)
    exact ⟨s', by rw [run, hrun]; exact hrun', hinv'⟩

omit [DecidableEq T] in
theorem init_inv (p : D → Option T) (wakeupTime : D → ℤ) : (init p wakeupTime).Inv [] where
  list := isList_new
  data e he := by cases he
  sorted := List.Pairwise.nil
  threads := List.nodup_nil
  flags t := by simp [init]

/-- **The sleeping list.** After every sequence of threads going to sleep and being woken, the list is well
linked, sorted, and has the threads whose `SLEEP` flag is set, each once. Then `IRQwakeThreads` removes the
entries whose time has come, keeps the others in order, clears the flags of the threads removed, and tells
if one of them has a higher priority than the thread that runs. -/
theorem run_sleeping (p : D → Option T) (wakeupTime : D → ℤ) (events : List (Event D T P))
    (hallowed : Allowed [] events) (hfuel : events.length ≤ fuel) :
    ∃ s, run fuel (init p wakeupTime) events = some s ∧ ∃ l : List (Entry D T),
      l = events.foldl entriesAfter [] ∧
      s.sleepingList.IsList (l.map Entry.item) ∧
      (∀ e ∈ l, s.p e.item = some e.thread ∧ s.wakeupTime e.item = e.wakeupTime) ∧
      (l.Pairwise fun d e => d.wakeupTime ≤ e.wakeupTime) ∧
      (l.map Entry.thread).Nodup ∧
      (∀ t, s.sleep t = true ↔ t ∈ l.map Entry.thread) ∧
      ∀ (priority : T → P) (cur : T) (currentTime : ℤ), ∃ s' b,
        s.irqWakeThreads fuel priority cur currentTime = some (s', b) ∧
        s'.sleepingList.IsList
          ((l.filter fun e => decide (currentTime < e.wakeupTime)).map Entry.item) ∧
        (∀ t, s'.sleep t = true ↔
          s.sleep t = true ∧ ∀ e ∈ l, e.thread = t → currentTime < e.wakeupTime) ∧
        (b = true ↔ ∃ e ∈ l, e.wakeupTime ≤ currentTime ∧
          SchedulerPriority.less (priority cur) (priority e.thread) = true) := by
  obtain ⟨s, hrun, h, hlen⟩ := run_inv events (init_inv p wakeupTime) hallowed (by simpa using hfuel)
  refine ⟨s, hrun, _, rfl, h.list, h.data, h.sorted, h.threads, h.flags, fun priority cur currentTime => ?_⟩
  obtain ⟨s', b, hwake, hinv, hb⟩ := irqWakeThreads_spec h hlen priority cur currentTime
  exact ⟨s', b, hwake, hinv.list, h.sleep_filter hinv, hb⟩

theorem run_sleeping_three : ∃ s, run 3 (init (fun _ => none) fun _ => 0)
    [.add (0 : Fin 3) (0 : Fin 3) 5, .add 1 1 3, .wake (fun _ => PrioritySchedulerPriority.mk 0) 2 4] =
      some s ∧ s.sleepingList.IsList [0] ∧ ∀ t, s.sleep t = true ↔ t = 0 := by
  obtain ⟨s, hrun, l, rfl, hlist, -, -, -, hflags, -⟩ := run_sleeping (fun _ => none) (fun _ => 0)
    [.add (0 : Fin 3) (0 : Fin 3) 5, .add 1 1 3, .wake (fun _ => PrioritySchedulerPriority.mk 0) 2 4]
    (by simp [Allowed, entriesAfter, addEntry]) (le_refl 3)
  refine ⟨s, hrun, hlist, fun t => (hflags t).trans ?_⟩
  simp [entriesAfter, addEntry]

end Sleeping

end Miosix
