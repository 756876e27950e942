import MiosixKernel.Sched.JoinRun

/-!
# Joining when the memory of freed threads is used again

A thread may be created where a thread that was freed had been. Then the same pointer is for several
threads, one after the other, and a thread that waits in `join` knows the pointer only.

* `ReuseSystem`: the threads, and which thread of an address is there, was asked for, ended or was joined;
* `step`, `run`;
* `Unconfused`: no join got another thread, nobody waits for a thread that was freed;
* `Meets`: when a thread that waits goes on, there is no other thread that can be joined in that place;
* **`run_unconfused_iff`**: a run is without confusion exactly if that is so in each step.
-/

namespace Miosix

open Lib PriorityScheduler

/-- The thread that was created as the `nth` in its place ended. -/
structure Ending (T V : Type) where
  thread : T
  nth : ℕ
  result : Option V

/-- The join of the thread `asked` of a place is complete, with the thread `found` there. -/
structure Completion (T V : Type) where
  joiner : T
  thread : T
  asked : ℕ
  found : ℕ
  result : Option (Option V)

/-- The threads, how many were created in each place, which of them each thread asked to join last, and what
happened to them. -/
structure ReuseSystem (T V : Type) where
  base : JoinSystem T V
  nth : T → ℕ
  asked : T → ℕ
  endings : List (Ending T V)
  completions : List (Completion T V)

/-- The thread that is waited for or was joined. -/
def JoinPoint.target {T V : Type} : JoinPoint T V → Option T
  | .waiting this _ | .joined this _ => some this
  | .fresh | .running | .ended => none

namespace ReuseSystem

variable {T V : Type}

def initial (idle : T) : ReuseSystem T V := ⟨.initial idle, fun _ => 0, fun _ => 0, [], []⟩

/-- Record the join of `cur`, if it is complete. -/
def complete (s : ReuseSystem T V) (cur : T) : ReuseSystem T V :=
  match s.base.point cur with
  | .joined this result =>
    { s with completions := ⟨cur, this, s.asked cur, s.nth this, result⟩ :: s.completions }
  | _ => s

variable [DecidableEq T]

/-- `Thread::create`, in a place where there is no thread. -/
def create (s : ReuseSystem T V) (thread : T) (priority : ℕ) (joinable : Bool) :
    Except Fault (ReuseSystem T V) := do
  let flags := if joinable then 0 else ThreadFlags.detached
  let sched ← (s.base.sched.create thread flags).pkAddThread thread priority
  let base := ({ s.base with sched := sched, created := thread :: s.base.created }.setJoinData thread
    (.waitingForJoin none)).goto thread .running
  pure { s with
    base := base.note (.created thread joinable)
    nth := Function.update s.nth thread (s.nth thread + 1) }

variable (fuel priorityMax : ℕ)

/-- A step of the system. A thread is created in any place where there is none. -/
def step (s : ReuseSystem T V) (e : JoinEvent T V) : Except Fault (ReuseSystem T V) :=
  match e with
  | .create thread priority joinable =>
    if (s.base.sched.mem thread).isSome ∨ thread = s.base.sched.idle ∨ priorityMax ≤ priority then pure s
    else s.create thread priority joinable
  | .join cur this wanted =>
    match s.base.sched.ready cur, s.base.point cur with
    | true, .running => do
      let base ← s.base.join fuel priorityMax cur this wanted
      pure ({ s with base := base, asked := Function.update s.asked cur (s.nth this) }.complete cur)
    | _, _ => pure s
  | .resume cur =>
    match s.base.sched.ready cur, s.base.point cur with
    | true, .waiting this wanted => do
      let base ← s.base.resumeJoin fuel priorityMax cur this wanted
      pure ({ s with base := base }.complete cur)
    | _, _ => pure s
  | .terminate cur result =>
    match s.base.sched.ready cur, s.base.point cur with
    | true, .running => do
      let base ← s.base.threadLauncher cur result
      pure { s with base := base, endings := ⟨cur, s.nth cur, result⟩ :: s.endings }
    | _, _ => pure s
  | e => do
    let base ← s.base.step fuel priorityMax e
    pure { s with base := base }

def run (s : ReuseSystem T V) : List (JoinEvent T V) → Except Fault (ReuseSystem T V)
  | [] => pure s
  | e :: es => do
    let s ← s.step fuel priorityMax e
    s.run es

/-- No section fails, and each state along the run has the property. -/
def EachState (P : ReuseSystem T V → Prop) (s : ReuseSystem T V) : List (JoinEvent T V) → Prop
  | [] => P s
  | e :: es => P s ∧ ∃ s', s.step fuel priorityMax e = .ok s' ∧ EachState P s' es

/-- Each event has the property in the state in which it takes place. -/
def EachEvent (P : ReuseSystem T V → JoinEvent T V → Prop) (s : ReuseSystem T V) :
    List (JoinEvent T V) → Prop
  | [] => True
  | e :: es => P s e ∧ ∀ s', s.step fuel priorityMax e = .ok s' → EachEvent P s' es

/-- Each join that is complete joined the thread that was asked for, with the value that it returned, and each
thread in the `WAIT_JOIN` state waits for a thread that was not freed. -/
structure Unconfused (s : ReuseSystem T V) : Prop where
  completions : ∀ c ∈ s.completions, c.found = c.asked ∧
    ∃ value, ⟨c.thread, c.asked, value⟩ ∈ s.endings ∧ ∀ v, c.result = some v → v = value
  waiting : ∀ j, s.base.waitingJoin j = true → ∃ t wanted, s.base.point j = .waiting t wanted ∧
    s.nth t = s.asked j ∧ (s.base.sched.mem t).isSome = true

/-- A thread that waits goes on while the thread it asked for is in its place, or there is none that can be
joined. -/
def Meets (s : ReuseSystem T V) : JoinEvent T V → Prop
  | .resume cur =>
    match s.base.sched.ready cur, s.base.point cur with
    | true, .waiting this _ =>
      s.nth this = s.asked cur ∨ (s.base.sched.flagsOf this).all ThreadFlags.isDetached = true
    | _, _ => True
  | _ => True

instance decidableMeets (s : ReuseSystem T V) : (e : JoinEvent T V) → Decidable (s.Meets e)
  | .resume cur => by
    dsimp only [Meets]
    exact match s.base.sched.ready cur, s.base.point cur with
      | true, .waiting _ _ => instDecidableOr
      | false, _ => instDecidableTrue
      | true, .fresh => instDecidableTrue
      | true, .running => instDecidableTrue
      | true, .joined _ _ => instDecidableTrue
      | true, .ended => instDecidableTrue
  | .create _ _ _ | .setPriority _ _ | .find | .join _ _ _ | .removeDead _ | .detach _ _ | .terminate _ _ | .idle =>
    instDecidableTrue

instance decidableEachEvent : (s : ReuseSystem T V) → (es : List (JoinEvent T V)) →
    Decidable (EachEvent fuel priorityMax Meets s es)
  | _, [] => instDecidableTrue
  | s, e :: es =>
    have : Decidable (∀ s', s.step fuel priorityMax e = .ok s' → EachEvent fuel priorityMax Meets s' es) :=
      match h : s.step fuel priorityMax e with
      | .error _ => .isTrue fun s' h' => by cases h'
      | .ok s₁ => @decidable_of_iff _ (EachEvent fuel priorityMax Meets s₁ es)
          ⟨fun hP s' h' => Except.ok.inj h' ▸ hP, fun hP => hP s₁ rfl⟩ (decidableEachEvent s₁ es)
    instDecidableAnd

end ReuseSystem

/-! ## The same section in two states -/

namespace JoinSystem

variable {T V : Type} [DecidableEq T] {a b a' b' : JoinSystem T V} {cur t : T} {this : Option T}
  {l : List (Happening T V)}

/-- A section that took `a` to `a'` and `b` to `b'`: the scheduler and the unions are the same, and `cur` moves,
if at all, to the same place in its code, where it is concerned with `this` at most. -/
structure Alike (cur : T) (this : Option T) (l : List (Happening T V)) (a b a' b' : JoinSystem T V) : Prop where
  sched : b'.sched = a'.sched
  joinData : b'.joinData = a'.joinData
  created : a'.created = a.created ∧ b'.created = b.created
  existDeleted : a.existDeleted = true → a'.existDeleted = true
  history : a'.history = l ++ a.history
  point : a'.point = a.point ∧ b'.point = b.point ∨ ∃ p : JoinPoint T V, (∀ t ∈ p.target, t ∈ this) ∧
    a'.point = Function.update a.point cur p ∧ b'.point = Function.update b.point cur p

theorem completeJoin_alike {this : T} (hs : b.sched = a.sched) (hj : b.joinData = a.joinData) {wanted : Bool}
    (h : a.completeJoin cur this wanted = .ok a') : ∃ b' v, b.completeJoin cur this wanted = .ok b' ∧
      Alike cur (some this) [.joined cur this v] a b a' b' ∧ b'.point cur = .joined this v := by
  cases wanted with
  | false =>
    cases h
    refine ⟨_, none, rfl, ⟨?_, hj, ⟨rfl, rfl⟩, id, rfl, .inr ⟨.joined this none, ?_, rfl, rfl⟩⟩,
      Function.update_self _ _ _⟩
    · simp [note, goto, modifyFlags, hs]
    · simp [JoinPoint.target]
  | true =>
    cases hd : a.joinData this with
    | waitingForJoin w =>
      simp only [completeJoin, readResult, joinData_modifyFlags, hd] at h
      cases h
    | result value =>
      simp only [completeJoin, readResult, joinData_modifyFlags, hd] at h
      cases h
      have hrun : b.completeJoin cur this true = .ok ((((b.modifyFlags this (· ||| ThreadFlags.detached)).readUnion
          .join this .result true).goto cur (.joined this (some value))).note (.joined cur this (some value))) := by
        simp only [completeJoin, readResult, joinData_modifyFlags, hj, hd]
        rfl
      refine ⟨_, some value, hrun, ⟨?_, hj, ⟨rfl, rfl⟩, id, rfl, .inr ⟨.joined this (some value), ?_, rfl, rfl⟩⟩,
        Function.update_self _ _ _⟩
      · simp [note, goto, modifyFlags, readUnion, hs]
      · simp [JoinPoint.target]

theorem irqJoinWait_alike {this : T} (hs : b.sched = a.sched) (hj : b.joinData = a.joinData) (wanted : Bool) :
    Alike cur (some this) [] a b (a.irqJoinWait cur this wanted) (b.irqJoinWait cur this wanted) := by
  refine ⟨?_, hj, ⟨rfl, rfl⟩, id, rfl, .inr ⟨.waiting this wanted, ?_, rfl, rfl⟩⟩
  · simp [irqJoinWait, goto, modifyFlags, hs]
  · simp [JoinPoint.target]

variable {fuel priorityMax : ℕ} {wanted : Bool}

theorem Alike.refl (hs : b.sched = a.sched) (hj : b.joinData = a.joinData) : Alike cur this [] a b a b :=
  ⟨hs, hj, ⟨rfl, rfl⟩, id, rfl, .inl ⟨rfl, rfl⟩⟩

/-- What the section does first is not seen by the comparison. -/
theorem Alike.of_first {a₁ b₁ : JoinSystem T V} (h : Alike cur this l a₁ b₁ a' b')
    (ha : a₁.existDeleted = a.existDeleted ∧ a₁.history = a.history ∧ a₁.point = a.point ∧ a₁.created = a.created)
    (hb : b₁.created = b.created ∧ b₁.point = b.point) : Alike cur this l a b a' b' where
  sched := h.sched
  joinData := h.joinData
  created := ⟨h.created.1.trans ha.2.2.2, h.created.2.trans hb.1⟩
  existDeleted := ha.1 ▸ h.existDeleted
  history := ha.2.1 ▸ h.history
  point := by
    rw [← ha.2.2.1, ← hb.2]
    exact h.point

/-- A section that is run in both states, which ends no thread but those in `l`. -/
def RunsAlike (cur : T) (this : Option T) (ends : T → Option V → Prop) (a b : JoinSystem T V)
    (x y : Except Fault (JoinSystem T V)) : Prop :=
  ∀ a', x = .ok a' → ∃ b' l, y = .ok b' ∧ Alike cur this l a b a' b' ∧ ∀ t v, .terminated t v ∈ l → ends t v

theorem runsAlike_stay (hs : b.sched = a.sched) (hj : b.joinData = a.joinData) (ends : T → Option V → Prop) :
    RunsAlike cur this ends a b (pure a) (pure b) := by
  rintro _ ⟨⟩
  exact ⟨b, [], rfl, .refl hs hj, by simp⟩

theorem runsAlike_bind {α : Type} {ends : T → Option V → Prop} {x : Except Fault α}
    {f g : α → Except Fault (JoinSystem T V)} (h : ∀ v, x = .ok v → RunsAlike cur this ends a b (f v) (g v)) :
    RunsAlike cur this ends a b (x >>= f) (x >>= g) := by
  cases x with
  | error e => rintro _ ⟨⟩
  | ok v => exact h v rfl

theorem runsAlike_completeJoin {this : T} (hs : b.sched = a.sched) (hj : b.joinData = a.joinData) :
    RunsAlike cur (some this) (fun _ _ => False) a b (a.completeJoin cur this wanted)
      (b.completeJoin cur this wanted) := by
  intro a' h
  obtain ⟨b', v, hrun, hal, -⟩ := completeJoin_alike hs hj h
  exact ⟨b', _, hrun, hal, by simp⟩

theorem runsAlike_join {this : T} (hs : b.sched = a.sched) (hj : b.joinData = a.joinData) :
    RunsAlike cur (some this) (fun _ _ => False) a b (a.join fuel priorityMax cur this wanted)
      (b.join fuel priorityMax cur this wanted) := by
  have hstay : RunsAlike cur (some this) (fun _ _ => False) a b (pure a) (pure b) := runsAlike_stay hs hj _
  unfold join
  split
  · exact hstay
  · rw [hs]
    refine runsAlike_bind fun found _ => ?_
    cases found with
    | false => exact hstay
    | true =>
      refine runsAlike_bind fun o _ => ?_
      dsimp only
      split
      · exact hstay
      · split
        · exact runsAlike_completeJoin hs hj
        · have hread : (b.readUnion .join this .waitingForJoin false).joinData =
              (a.readUnion .join this .waitingForJoin false).joinData := hj
          rw [hread]
          split
          · rintro _ ⟨⟩
            have hal : Alike cur (some this) [] (a.readUnion .join this .waitingForJoin false)
              (b.readUnion .join this .waitingForJoin false) _ _ := .refl hs hj
            exact ⟨_, [], rfl, hal.of_first ⟨rfl, rfl, rfl, rfl⟩ ⟨rfl, rfl⟩, by simp⟩
          · rintro _ ⟨⟩
            set a₁ := (a.readUnion .join this .waitingForJoin false).setJoinData this (.waitingForJoin (some cur))
            set b₁ := (b.readUnion .join this .waitingForJoin false).setJoinData this (.waitingForJoin (some cur))
            have hset : b₁.joinData = a₁.joinData := by simp only [a₁, b₁, setJoinData, hread]
            have hal : Alike cur (some this) [] a₁ b₁ _ _ := irqJoinWait_alike (show b₁.sched = a₁.sched from hs) hset wanted
            exact ⟨_, [], rfl, hal.of_first ⟨rfl, rfl, rfl, rfl⟩ ⟨rfl, rfl⟩, by simp⟩

theorem runsAlike_resumeJoin {this : T} (hs : b.sched = a.sched) (hj : b.joinData = a.joinData) :
    RunsAlike cur (some this) (fun _ _ => False) a b (a.resumeJoin fuel priorityMax cur this wanted)
      (b.resumeJoin fuel priorityMax cur this wanted) := by
  have hback : RunsAlike cur (some this) (fun _ _ => False) a b (pure (a.goto cur .running))
      (pure (b.goto cur .running)) := by
    rintro _ ⟨⟩
    exact ⟨_, [], rfl, ⟨hs, hj, ⟨rfl, rfl⟩, id, rfl, .inr ⟨.running, by simp [JoinPoint.target], rfl, rfl⟩⟩, by simp⟩
  unfold resumeJoin
  rw [hs]
  refine runsAlike_bind fun found _ => ?_
  cases found with
  | false => exact hback
  | true =>
    refine runsAlike_bind fun o _ => ?_
    dsimp only
    split
    · exact hback
    · split
      · exact runsAlike_completeJoin hs hj
      · rintro _ ⟨⟩
        exact ⟨_, [], rfl, irqJoinWait_alike hs hj wanted, by simp⟩

/-- Waking the joiner and going on. -/
theorem runsAlike_wakeJoiner {u : T} {operation : JoinOperation} {ends : T → Option V → Prop}
    {f g : JoinSystem T V → Except Fault (JoinSystem T V)} {a₁ b₁ : JoinSystem T V}
    (hj : b₁.joinData = a₁.joinData) (h : ∀ j, RunsAlike cur this ends a b
      (f ((a₁.readUnion operation u .waitingForJoin true).modifyFlags j
        (ThreadFlags.clear · ThreadFlags.waitJoin)))
      (g ((b₁.readUnion operation u .waitingForJoin true).modifyFlags j
        (ThreadFlags.clear · ThreadFlags.waitJoin)))) :
    RunsAlike cur this ends a b (a₁.wakeJoiner operation u >>= f) (b₁.wakeJoiner operation u >>= g) := by
  unfold wakeJoiner
  rw [hj]
  split
  · rename_i joiner _
    exact h joiner
  · rintro _ ⟨⟩

theorem runsAlike_detach {u : T} (hs : b.sched = a.sched) (hj : b.joinData = a.joinData) :
    RunsAlike cur none (fun _ _ => False) a b (a.detach u) (b.detach u) := by
  have hsched : (b.modifyFlags u (· ||| ThreadFlags.detached)).sched =
      (a.modifyFlags u (· ||| ThreadFlags.detached)).sched := by
    simp only [modifyFlags, hs]
  unfold detach
  dsimp only
  rw [hsched]
  refine runsAlike_bind fun o _ => ?_
  have hread : ∀ s : JoinSystem T V, (s.readUnion .detach u .waitingForJoin false).joinData = s.joinData :=
    fun _ => rfl
  simp only [hread, joinData_modifyFlags, hj]
  split
  · split
    · refine runsAlike_wakeJoiner rfl fun j => ?_
      rintro _ ⟨⟩
      refine ⟨_, [.detached u], rfl, ⟨rfl, rfl, ⟨rfl, rfl⟩, fun he => ?_, rfl, .inl ⟨rfl, rfl⟩⟩, by simp⟩
      simp [note, readUnion, he]
    · rintro _ ⟨⟩
      refine ⟨_, [.detached u], rfl, ⟨rfl, rfl, ⟨rfl, rfl⟩, fun he => ?_, rfl, .inl ⟨rfl, rfl⟩⟩, by simp⟩
      simp [note, readUnion, he]
  · rintro _ ⟨⟩
    refine ⟨_, [.detached u], rfl, ⟨rfl, rfl, ⟨rfl, rfl⟩, fun he => ?_, rfl, .inl ⟨rfl, rfl⟩⟩, by simp⟩
    simp [note, readUnion, he]

theorem runsAlike_threadLauncher {result : Option V} (hs : b.sched = a.sched) (hj : b.joinData = a.joinData) :
    RunsAlike cur none (fun t v => t = cur ∧ v = result) a b (a.threadLauncher cur result)
      (b.threadLauncher cur result) := by
  have hsched : (b.modifyFlags cur (· ||| ThreadFlags.deleted)).sched =
      (a.modifyFlags cur (· ||| ThreadFlags.deleted)).sched := by
    simp only [modifyFlags, hs]
  have hset : ∀ d, Function.update b.joinData cur d = Function.update a.joinData cur d := fun d => by rw [hj]
  have hterm : ∀ t v, Happening.terminated t v ∈ [Happening.terminated cur result] → t = cur ∧ v = result := by
    intro t v h
    rw [List.mem_singleton] at h
    cases h
    exact ⟨rfl, rfl⟩
  have htarget : ∀ t ∈ (JoinPoint.ended : JoinPoint T V).target, t ∈ (none : Option T) := by simp [JoinPoint.target]
  unfold threadLauncher
  dsimp only
  rw [hsched]
  refine runsAlike_bind fun o _ => ?_
  have hread : ∀ s : JoinSystem T V, (((s.modifyFlags cur (· ||| ThreadFlags.deleted)).goto cur .ended).note
    (.terminated cur result) |>.readUnion .threadLauncher cur .waitingForJoin false).joinData = s.joinData :=
    fun _ => rfl
  simp only [hread, hj]
  split
  · split
    · refine runsAlike_wakeJoiner (by exact hj) fun j => ?_
      rintro _ ⟨⟩
      refine ⟨_, [.terminated cur result], rfl,
        ⟨?_, hset _, ⟨rfl, rfl⟩, id, rfl, .inr ⟨.ended, htarget, rfl, rfl⟩⟩, hterm⟩
      simp [note, goto, modifyFlags, readUnion, setJoinData, hs]
    · rintro _ ⟨⟩
      exact ⟨_, [.terminated cur result], rfl,
        ⟨hsched, hset _, ⟨rfl, rfl⟩, id, rfl, .inr ⟨.ended, htarget, rfl, rfl⟩⟩, hterm⟩
  · rintro _ ⟨⟩
    exact ⟨_, [.terminated cur result], rfl,
      ⟨hsched, hj, ⟨rfl, rfl⟩, fun _ => rfl, rfl, .inr ⟨.ended, htarget, rfl, rfl⟩⟩, hterm⟩

/-- The dead threads are removed. -/
theorem purge_alike (cur : T) (hs : b.sched = a.sched) (hj : b.joinData = a.joinData)
    (h : a.purge fuel priorityMax = .ok a') : ∃ b' l, b.purge fuel priorityMax = .ok b' ∧
      Alike cur none l a b a' b' ∧ (∀ t v, .terminated t v ∉ l) ∧ b'.point = b.point := by
  obtain ⟨sched, hrun, hok⟩ := bind_eq_ok h
  cases hok
  have hb : b.purge fuel priorityMax = .ok { b with
      sched := sched
      history := (b.created.filter fun t => (a.sched.mem t).isSome && (sched.mem t).isNone).map .freed ++ b.history } := by
    rw [purge, hs, hrun]
    rfl
  exact ⟨_, _, hb, ⟨rfl, hj, ⟨rfl, rfl⟩, id, rfl, .inl ⟨rfl, rfl⟩⟩, by simp, rfl⟩

theorem runsAlike_setPriority (hs : b.sched = a.sched) (hj : b.joinData = a.joinData) (t : T) (newPriority : ℕ) :
    RunsAlike cur this (fun _ _ => False) a b (a.step fuel priorityMax (.setPriority t newPriority))
      (b.step fuel priorityMax (.setPriority t newPriority)) := by
  simp only [step, hs]
  split
  · exact runsAlike_stay hs hj _
  · refine runsAlike_bind fun sched _ => ?_
    rintro _ ⟨⟩
    exact ⟨_, [], rfl, ⟨rfl, hj, ⟨rfl, rfl⟩, id, rfl, .inl ⟨rfl, rfl⟩⟩, by simp⟩

theorem runsAlike_find (hs : b.sched = a.sched) (hj : b.joinData = a.joinData) :
    RunsAlike cur this (fun _ _ => False) a b (a.step fuel priorityMax .find) (b.step fuel priorityMax .find) := by
  simp only [step, hs]
  refine runsAlike_bind fun sched _ => ?_
  rintro _ ⟨⟩
  exact ⟨_, [], rfl, ⟨rfl, hj, ⟨rfl, rfl⟩, id, rfl, .inl ⟨rfl, rfl⟩⟩, by simp⟩

/-! ## Forgetting a freed thread -/

/-- What happened to a freed thread is forgotten, and who was concerned with it is back in its own code. -/
def forget (s : JoinSystem T V) (t : T) : JoinSystem T V :=
  { s with
    point := fun j => if j = t then .fresh else if t ∈ (s.point j).target then .running else s.point j
    created := s.created.filter (· ≠ t)
    history := s.history.filter (·.thread ≠ t) }

theorem mem_history_forget {s : JoinSystem T V} {x : Happening T V} :
    x ∈ (s.forget t).history ↔ x ∈ s.history ∧ x.thread ≠ t := by simp [forget]

/-- What happened to the other threads stays lawful. -/
theorem lawful_forget {s : JoinSystem T V} (h : Lawful Happening.Allowed s.history) :
    Lawful Happening.Allowed (s.forget t).history := by
  refine h.filter _ fun older x hx hne => ?_
  have hmem : ∀ y : Happening T V, y ∈ older.filter (·.thread ≠ t) ↔ y ∈ older ∧ y.thread ≠ t := by simp
  rw [decide_eq_true_iff] at hne
  cases x with
  | created u joinable => exact fun y hy => hx y ((hmem y).mp hy).1
  | detached u => trivial
  | terminated u value => exact fun v hv => hx v ((hmem _).mp hv).1
  | joined j u v =>
    obtain ⟨⟨value, hv, heq⟩, hd, hj⟩ := hx
    exact ⟨⟨value, (hmem _).mpr ⟨hv, hne⟩, heq⟩, fun hcon => hd ((hmem _).mp hcon).1,
      fun j' v' hcon => hj j' v' ((hmem _).mp hcon).1⟩
  | returned j u v =>
    exact ⟨(hmem _).mpr ⟨hx.1, hne⟩, fun j' v' hcon => hx.2 j' v' ((hmem _).mp hcon).1⟩
  | freed u =>
    obtain ⟨⟨value, hv⟩, hrel, hf⟩ := hx
    refine ⟨⟨value, (hmem _).mpr ⟨hv, hne⟩⟩, ?_, fun hcon => hf ((hmem _).mp hcon).1⟩
    rcases hrel with hd | hc | ⟨j, v, hj⟩
    · exact .inl ((hmem _).mpr ⟨hd, hne⟩)
    · exact .inr (.inl ((hmem _).mpr ⟨hc, hne⟩))
    · exact .inr (.inr ⟨j, v, (hmem _).mpr ⟨hj, hne⟩⟩)

theorem point_forget_of_target {s : JoinSystem T V} {j u : T} (h : u ∈ ((s.forget t).point j).target) :
    u ≠ t ∧ (s.forget t).point j = s.point j := by
  by_cases hj : j = t
  · simp [forget, hj, JoinPoint.target] at h
  · by_cases ht : t ∈ (s.point j).target
    · simp only [forget, if_neg hj, if_pos ht] at h
      cases h
    · have hpt : (s.forget t).point j = s.point j := by simp only [forget, if_neg hj, if_neg ht]
      rw [hpt] at h
      refine ⟨?_, hpt⟩
      rintro rfl
      exact ht h

theorem Inv.forget {s : JoinSystem T V} (h : s.Inv) (hfree : s.sched.flagsOf t = none)
    (he : s.existDeleted = true) : (s.forget t).Inv where
  nodup := h.nodup.filter _
  thread_mem x hx := by
    rw [mem_history_forget] at hx
    exact List.mem_filter.mpr ⟨h.thread_mem x hx.1, by simpa using hx.2⟩
  lawful := lawful_forget h.lawful
  thread u := by
    have hnone : (s.forget t).sched.flagsOf t = none := hfree
    by_cases hu : u = t
    · subst hu
      have hfresh : (s.forget u).point u = .fresh := by simp [JoinSystem.forget]
      refine ⟨?_, ?_, ?_, ?_, ?_, ?_, ?_, ?_⟩
      · simp [JoinSystem.forget]
      · simp [JoinSystem.forget, Happening.thread]
      rotate_left
      · simp [hfresh, mem_history_forget, Happening.thread]
      all_goals
        rw [hnone]
        intro f hf
        cases hf
    · refine (h.thread u).congr_of_iff (by simp [JoinSystem.forget, hu]) rfl ?_ ?_ rfl fun x hx => ?_
      · simp only [JoinSystem.forget, if_neg hu]
        cases s.point u <;> simp [JoinPoint.target] <;> split <;> simp
      · simp only [JoinSystem.forget, if_neg hu]
        cases s.point u <;> simp [JoinPoint.target] <;> split <;> simp
      · rw [mem_history_forget, hx, and_iff_left hu]
  waiting_mem j u wanted hj := by
    obtain ⟨hu, hpt⟩ := point_forget_of_target (show u ∈ ((s.forget t).point j).target by simp [hj, JoinPoint.target])
    exact List.mem_filter.mpr ⟨h.waiting_mem j u wanted (hpt ▸ hj), by simpa using hu⟩
  registered j u wanted hj hu := by
    obtain ⟨-, hpt⟩ := point_forget_of_target (show u ∈ ((s.forget t).point j).target by simp [hj, JoinPoint.target])
    exact h.registered j u wanted (hpt ▸ hj) hu
  asleep j hj := by
    obtain ⟨u, wanted, hp, hu⟩ := h.asleep j hj
    have hlive : ∀ v, (∃ f, s.sched.flagsOf v = some f) → v ≠ t := by
      rintro _ ⟨f, hf⟩ rfl
      rw [hfree] at hf
      cases hf
    have hjt := hlive j (hj.imp fun _ => And.left)
    have hut := hlive u (hu.imp fun _ => And.left)
    refine ⟨u, wanted, ?_, hu⟩
    simp [JoinSystem.forget, hjt, hp, JoinPoint.target, hut]
  completed j u v hj := by
    obtain ⟨hu, hpt⟩ := point_forget_of_target (show u ∈ ((s.forget t).point j).target by simp [hj, JoinPoint.target])
    obtain ⟨hjoined, hret⟩ := h.completed j u v (hpt ▸ hj)
    exact ⟨mem_history_forget.mpr ⟨hjoined, hu⟩, fun j' v' hcon => hret j' v' (mem_history_forget.mp hcon).1⟩
  reads := h.reads
  purged _ _ := .inl he

omit [DecidableEq T] in
theorem Inv.exist {s : JoinSystem T V} (h : s.Inv) : { s with existDeleted := true }.Inv :=
  { h with
    thread := fun t => (h.thread t).congr Iff.rfl rfl rfl rfl fun _ _ => Iff.rfl
    purged := fun _ _ => .inl rfl }

end JoinSystem

/-! ## The system without the threads that were freed -/

namespace ReuseSystem

open JoinSystem

variable {T V : Type} {s : ReuseSystem T V} {a a' : JoinSystem T V} {priorityMax : ℕ}

/-- The system `a` is the one in which the threads that were freed and whose memory was used again are
forgotten. -/
structure Shadow (priorityMax : ℕ) (s : ReuseSystem T V) (a : JoinSystem T V) : Prop where
  ok : a.Ok priorityMax
  sched : s.base.sched = a.sched
  joinData : s.base.joinData = a.joinData
  existDeleted : a.existDeleted = true
  created : a.created.length ≤ s.base.created.length
  here : ∀ j, (∀ t ∈ (s.base.point j).target, s.nth t = s.asked j) → a.point j = s.base.point j
  gone : ∀ j, ∀ t ∈ (s.base.point j).target, s.nth t ≠ s.asked j → a.point j = .running
  asked_le : ∀ j, ∀ t ∈ (s.base.point j).target, s.asked j ≤ s.nth t
  endings : ∀ t value, .terminated t value ∈ a.history → ⟨t, s.nth t, value⟩ ∈ s.endings
  completions : ∀ c ∈ s.completions, c.found = c.asked ∧
    ∃ value, ⟨c.thread, c.asked, value⟩ ∈ s.endings ∧ ∀ v, c.result = some v → v = value

theorem shadow_initial (priorityMax : ℕ) (idle : T) :
    Shadow priorityMax (initial idle : ReuseSystem T V) { JoinSystem.initial idle with existDeleted := true } where
  ok := ⟨(ok_initial (V := V) priorityMax idle).rep, (inv_initial idle).exist⟩
  sched := rfl
  joinData := rfl
  existDeleted := rfl
  created := le_rfl
  here _ _ := rfl
  gone _ _ ht := by cases ht
  asked_le _ _ ht := by cases ht
  endings _ _ h := by cases h
  completions _ hc := by cases hc

/-- In the shadow, a thread that is asleep waits for the thread that it asked for. -/
theorem Shadow.unconfused (h : Shadow priorityMax s a) : s.Unconfused where
  completions := h.completions
  waiting j hj := by
    have hasleep : a.Asleep j := by
      rw [waitingJoin, h.sched, Option.any_eq_true] at hj
      exact hj
    obtain ⟨t, wanted, hp, f, hf, -⟩ := h.ok.inv.asleep j hasleep
    have hlive : (s.base.sched.mem t).isSome = true := by
      rw [h.sched, Option.isSome_iff_ne_none, Ne, ← flagsOf_eq_none, hf]
      simp
    by_cases hhere : ∀ u ∈ (s.base.point j).target, s.nth u = s.asked j
    · rw [h.here j hhere] at hp
      exact ⟨t, wanted, hp, hhere t (by rw [hp]; rfl), hlive⟩
    · push Not at hhere
      obtain ⟨u, hu, hne⟩ := hhere
      rw [h.gone j u hu hne] at hp
      cases hp

variable [DecidableEq T] {b' : JoinSystem T V} {cur : T} {this : Option T} {l : List (Happening T V)}

/-- The same section in both systems. -/
theorem Shadow.alike (h : Shadow priorityMax s a) (hok : a'.Ok priorityMax) (hal : Alike cur this l a s.base a' b')
    {asked : T → ℕ} (hne : ∀ j, j ≠ cur → asked j = s.asked j) (hcur : ∀ t ∈ this, s.nth t = asked cur)
    (hstay : ∀ t ∈ (s.base.point cur).target, asked cur = s.asked cur) {endings : List (Ending T V)}
    (hsub : s.endings ⊆ endings) (hl : ∀ t v, .terminated t v ∈ l → ⟨t, s.nth t, v⟩ ∈ endings) :
    Shadow priorityMax { s with base := b', asked := asked, endings := endings } a' := by
  -- the threads but `cur`, and `cur` if it does not move
  have hother : ∀ j, a'.point j = a.point j ∧ b'.point j = s.base.point j ∧
      (∀ t ∈ (s.base.point j).target, asked j = s.asked j) ∨
      a'.point j = b'.point j ∧ ∀ t ∈ (b'.point j).target, s.nth t = asked j := by
    intro j
    rcases hal.point with ⟨ha, hb⟩ | ⟨p, hp, ha, hb⟩
    · refine .inl ⟨congrFun ha j, congrFun hb j, fun t ht => ?_⟩
      by_cases hj : j = cur
      · subst hj
        exact hstay t ht
      · exact hne j hj
    · by_cases hj : j = cur
      · subst hj
        rw [ha, hb, Function.update_self, Function.update_self]
        exact .inr ⟨rfl, fun t ht => hcur t (hp t ht)⟩
      · rw [ha, hb, Function.update_of_ne hj, Function.update_of_ne hj]
        exact .inl ⟨rfl, rfl, fun _ _ => hne j hj⟩
  refine ⟨hok, hal.sched, hal.joinData, hal.existDeleted h.existDeleted, ?_, fun j hj => ?_, fun j t ht hn => ?_,
    fun j t ht => ?_, fun t value hv => ?_, fun c hc => ?_⟩
  · rw [hal.created.1, hal.created.2]
    exact h.created
  · rcases hother j with ⟨ha, hb, hasked⟩ | ⟨ha, -⟩
    · dsimp only at hj ⊢
      rw [ha, hb]
      rw [hb] at hj
      exact h.here j fun t ht => (hj t ht).trans (hasked t ht)
    · exact ha
  · rcases hother j with ⟨ha, hb, hasked⟩ | ⟨-, hp⟩
    · dsimp only at ht hn
      rw [hb] at ht
      rw [hasked t ht] at hn
      rw [ha]
      exact h.gone j t ht hn
    · exact absurd (hp t ht) hn
  · rcases hother j with ⟨-, hb, hasked⟩ | ⟨-, hp⟩
    · dsimp only at ht ⊢
      rw [hb] at ht
      rw [hasked t ht]
      exact h.asked_le j t ht
    · exact (hp t ht).ge
  · rw [hal.history] at hv
    rcases List.mem_append.mp hv with hv | hv
    · exact hl t value hv
    · exact hsub (h.endings t value hv)
  · obtain ⟨heq, value, hv, hres⟩ := h.completions c hc
    exact ⟨heq, value, hsub hv, hres⟩

omit [DecidableEq T] in
/-- Recording a complete join, whose thread is the one that was asked for. -/
theorem Shadow.complete (h : Shadow priorityMax s a) (hp : ∀ t ∈ (s.base.point cur).target, s.nth t = s.asked cur) :
    Shadow priorityMax (s.complete cur) a := by
  unfold ReuseSystem.complete
  split
  · rename_i this result hpoint
    have hnth : s.nth this = s.asked cur := hp this (by rw [hpoint]; rfl)
    obtain ⟨hjoined, -⟩ := h.ok.inv.completed cur this result ((h.here cur hp).trans hpoint)
    obtain ⟨older, ⟨⟨value, hv, hres⟩, -⟩, hsub⟩ := h.ok.inv.lawful.exists_older hjoined
    refine { h with completions := fun c hc => ?_ }
    rcases List.mem_cons.mp hc with rfl | hc
    · exact ⟨hnth, value, hnth ▸ h.endings this value (hsub hv), hres⟩
    · exact h.completions c hc
  · exact h

variable {fuel : ℕ}

theorem Shadow.runs (h : Shadow priorityMax s a) {x y : Except Fault (JoinSystem T V)}
    {ends : T → Option V → Prop} (hx : ∃ a', x = .ok a' ∧ a'.Ok priorityMax)
    (hr : RunsAlike cur this ends a s.base x y) {asked : T → ℕ} (hne : ∀ j, j ≠ cur → asked j = s.asked j)
    (hcur : ∀ t ∈ this, s.nth t = asked cur) (hstay : ∀ t ∈ (s.base.point cur).target, asked cur = s.asked cur)
    {endings : List (Ending T V)} (hsub : s.endings ⊆ endings)
    (hl : ∀ t v, ends t v → ⟨t, s.nth t, v⟩ ∈ endings) :
    ∃ b', y = .ok b' ∧ b'.created = s.base.created ∧
      (∀ t ∈ (b'.point cur).target, t ∈ (s.base.point cur).target ∨ s.nth t = asked cur) ∧
      ∃ a', Shadow priorityMax { s with base := b', asked := asked, endings := endings } a' := by
  obtain ⟨a', hxa, hok⟩ := hx
  obtain ⟨b', l, hyb, hal, hends⟩ := hr a' hxa
  refine ⟨b', hyb, hal.created.2, fun t ht => ?_, a', h.alike hok hal hne hcur hstay hsub
    fun t v hv => hl t v (hends t v hv)⟩
  rcases hal.point with ⟨-, hb⟩ | ⟨p, hp, -, hb⟩
  · rw [hb] at ht
    exact .inl ht
  · rw [hb, Function.update_self] at ht
    exact .inr (hcur t (hp t ht))

/-- Who waited for a thread that was freed goes back to its own code. -/
theorem Shadow.leave (h : Shadow priorityMax s a) {t : T} (ht : t ∈ (s.base.point cur).target)
    (hne : s.nth t ≠ s.asked cur) (hs : b'.sched = s.base.sched) (hj : b'.joinData = s.base.joinData)
    (hc : b'.created = s.base.created) (hp : b'.point = Function.update s.base.point cur .running) :
    Shadow priorityMax { s with base := b' } a := by
  have hpt : ∀ j, j ≠ cur → b'.point j = s.base.point j := fun j hjc => by rw [hp, Function.update_of_ne hjc]
  have hcur : b'.point cur = .running := by rw [hp, Function.update_self]
  refine { h with
    sched := hs.trans h.sched
    joinData := hj.trans h.joinData
    created := hc ▸ h.created
    here := fun j hall => ?_
    gone := fun j u hu hn => ?_
    asked_le := fun j u hu => ?_ }
  · by_cases hjc : j = cur
    · subst hjc
      rw [h.gone j t ht hne]
      exact hcur.symm
    · dsimp only at hall ⊢
      rw [hpt j hjc] at hall ⊢
      exact h.here j hall
  · by_cases hjc : j = cur
    · subst hjc
      rw [hcur] at hu
      cases hu
    · exact h.gone j u (hpt j hjc ▸ hu) hn
  · by_cases hjc : j = cur
    · subst hjc
      rw [hcur] at hu
      cases hu
    · exact h.asked_le j u (hpt j hjc ▸ hu)

/-- A thread is created in a place where there is none. -/
theorem Shadow.create (h : Shadow priorityMax s a) {t : T} {priority : ℕ} (joinable : Bool)
    (hmem : s.base.sched.mem t = none) (hidle : t ≠ s.base.sched.idle) (hp : priority < priorityMax) :
    ∃ s', s.create t priority joinable = .ok s' ∧ s'.base.created.length = s.base.created.length + 1 ∧
      ∃ a', Shadow priorityMax s' a' := by
  obtain ⟨q, hrep⟩ := h.ok.rep
  rw [h.sched] at hmem hidle
  obtain ⟨sched, hrun, hrep', -, hflags, -⟩ := pkAddThread_spec hrep hmem hidle hp
    (if joinable then 0 else ThreadFlags.detached)
  set a' := ((({ a.forget t with sched := sched, created := t :: (a.forget t).created }.setJoinData t
    (.waitingForJoin none)).goto t .running).note (.created t joinable)) with ha'
  set b' := ((({ s.base with sched := sched, created := t :: s.base.created }.setJoinData t
    (.waitingForJoin none)).goto t .running).note (.created t joinable)) with hb'
  have hinv : a'.Inv := (h.ok.inv.forget (flagsOf_eq_none.mpr hmem) h.existDeleted).create
    (by simp [JoinSystem.forget]) joinable hflags
  have hpta : ∀ j, a'.point j =
      if j = t then .running else if t ∈ (a.point j).target then .running else a.point j := fun j => by
    by_cases hj : j = t <;> simp [ha', note, goto, JoinSystem.setJoinData, JoinSystem.forget, hj]
  have hptb : ∀ j, b'.point j = if j = t then .running else s.base.point j := fun j => by
    simp [hb', note, goto, JoinSystem.setJoinData, Function.update_apply]
  have hnth : ∀ u, u ≠ t → Function.update s.nth t (s.nth t + 1) u = s.nth u :=
    fun u hu => Function.update_of_ne hu _ _
  refine ⟨{ s with base := b', nth := Function.update s.nth t (s.nth t + 1) }, ?_, rfl, a', ?_⟩
  · rw [ReuseSystem.create, h.sched, hrun, ok_bind]
    rfl
  refine ⟨⟨⟨_, hrep'⟩, hinv⟩, rfl, ?_, h.existDeleted, ?_, fun j hall => ?_, fun j u hu hn => ?_, fun j u hu => ?_,
    fun u value hv => ?_, h.completions⟩
  · simp only [ha', hb', note, goto, JoinSystem.setJoinData, JoinSystem.forget, h.joinData]
  · exact Nat.succ_le_succ ((List.length_filter_le _ _).trans h.created)
  · dsimp only at hall ⊢
    rw [hptb] at hall
    rw [hpta, hptb]
    split
    · rfl
    · rename_i hj
      rw [if_neg hj] at hall
      -- `t` was asked for before it was freed, and now there is another one
      have hne : ∀ u ∈ (s.base.point j).target, u ≠ t := by
        rintro _ hu rfl
        have := h.asked_le j _ hu
        have := hall _ hu
        rw [Function.update_self] at this
        omega
      have hpt := h.here j fun u hu => hnth u (hne u hu) ▸ hall u hu
      rw [hpt, if_neg fun hcon => hne t hcon rfl]
  · dsimp only at hu hn
    rw [hptb] at hu
    rw [hpta]
    split
    · rfl
    · rename_i hj
      rw [if_neg hj] at hu
      split
      · rfl
      · rename_i ht
        refine h.gone j u hu fun heq => ht ?_
        have hut : u = t := by
          by_contra hcon
          exact hn ((hnth u hcon).trans heq)
        subst hut
        rw [h.here j fun v hv => Option.mem_unique hu hv ▸ heq]
        exact hu
  · dsimp only at hu ⊢
    rw [hptb] at hu
    split at hu
    · cases hu
    · refine (h.asked_le j u hu).trans ?_
      by_cases hut : u = t
      · subst hut
        rw [Function.update_self]
        omega
      · rw [hnth u hut]
  · have hv' : Happening.terminated u value ∈ (a.forget t).history := by
      rcases List.mem_cons.mp hv with heq | hv
      · cases heq
      · exact hv
    rw [mem_history_forget] at hv'
    have := h.endings u value hv'.1
    rw [← hnth u hv'.2] at this
    exact this

omit [DecidableEq T] in
theorem Shadow.lt (h : Shadow priorityMax s a) (hf : s.base.created.length < fuel) : a.created.length < fuel :=
  h.created.trans_lt hf

omit [DecidableEq T] in
theorem Shadow.awake (h : Shadow priorityMax s a) {j : T} (hj : s.base.sched.ready j = true) : ¬a.Asleep j :=
  not_asleep_of_ready (h.sched ▸ hj)

omit [DecidableEq T] in
theorem Shadow.point_of_running (h : Shadow priorityMax s a) {j : T} (hj : s.base.point j = .running) :
    a.point j = .running := by
  rw [h.here j (by rw [hj]; rintro t ⟨⟩), hj]

theorem Shadow.join (h : Shadow priorityMax s a) (hf : s.base.created.length < fuel) (this : T) (wanted : Bool)
    (hready : s.base.sched.ready cur = true) (hcur : s.base.point cur = .running) :
    ∃ b', s.base.join fuel priorityMax cur this wanted = .ok b' ∧ b'.created = s.base.created ∧
      ∃ a', Shadow priorityMax
        ({ s with base := b', asked := Function.update s.asked cur (s.nth this) }.complete cur) a' := by
  have hno : ∀ t, t ∉ (s.base.point cur).target := by
    rw [hcur]
    rintro t ⟨⟩
  obtain ⟨a', hrun, hok, -⟩ := h.ok.join (h.lt hf) (h.point_of_running hcur) (h.awake hready)
  have hasked : ∀ t ∈ some this, s.nth t = Function.update s.asked cur (s.nth this) cur := by
    rintro t ⟨⟩
    rw [Function.update_self]
  obtain ⟨b', hb, hc, ht, a', h'⟩ := h.runs ⟨a', hrun, hok⟩ (runsAlike_join h.sched h.joinData)
    (fun j hj => Function.update_of_ne hj _ _) hasked (fun t ht => absurd ht (hno t)) (List.Subset.refl _)
    fun _ _ => False.elim
  exact ⟨b', hb, hc, a', h'.complete fun t htt => (ht t htt).resolve_left (hno t)⟩

/-- A thread goes on while the one that it asked for is still there. -/
theorem Shadow.resume (h : Shadow priorityMax s a) (hf : s.base.created.length < fuel) {this : T} {wanted : Bool}
    (hready : s.base.sched.ready cur = true) (hcur : s.base.point cur = .waiting this wanted)
    (hnth : s.nth this = s.asked cur) :
    ∃ b', s.base.resumeJoin fuel priorityMax cur this wanted = .ok b' ∧ b'.created = s.base.created ∧
      ∃ a', Shadow priorityMax ({ s with base := b' }.complete cur) a' := by
  have hasked : ∀ t ∈ some this, s.nth t = s.asked cur := by
    rintro t ⟨⟩
    exact hnth
  have htarget : ∀ t ∈ (s.base.point cur).target, s.nth t = s.asked cur := by
    rw [hcur]
    exact hasked
  obtain ⟨a', hrun, hok, -⟩ := h.ok.resumeJoin (h.lt hf) ((h.here cur htarget).trans hcur) (h.awake hready)
  obtain ⟨b', hb, hc, ht, a', h'⟩ := h.runs ⟨a', hrun, hok⟩ (runsAlike_resumeJoin h.sched h.joinData)
    (fun _ _ => rfl) hasked (fun _ _ => rfl) (List.Subset.refl _) fun _ _ => False.elim
  exact ⟨b', hb, hc, a', h'.complete fun t htt => (ht t htt).elim (htarget t) id⟩

omit [DecidableEq T] in
theorem complete_base (s : ReuseSystem T V) (cur : T) : (s.complete cur).base = s.base := by
  unfold ReuseSystem.complete
  split <;> rfl

/-- A thread goes on when nothing that can be joined is where the thread it asked for was. -/
theorem Shadow.resume_gone (h : Shadow priorityMax s a) (hf : s.base.created.length < fuel) {this : T}
    {wanted : Bool} (hcur : s.base.point cur = .waiting this wanted) (hnth : s.nth this ≠ s.asked cur)
    (hgone : (s.base.sched.flagsOf this).all ThreadFlags.isDetached = true) :
    ∃ b', s.base.resumeJoin fuel priorityMax cur this wanted = .ok b' ∧ b'.created = s.base.created ∧
      ∃ a', Shadow priorityMax ({ s with base := b' }.complete cur) a' := by
  have hleave : Shadow priorityMax { s with base := s.base.goto cur .running } a :=
    h.leave (t := this) (by rw [hcur]; rfl) hnth rfl rfl rfl rfl
  refine ⟨s.base.goto cur .running, ?_, rfl, a, hleave.complete fun t ht => ?_⟩
  rotate_left
  · simp [goto, JoinPoint.target] at ht
  rw [JoinSystem.resumeJoin, h.sched, h.ok.pkExists_eq (h.lt hf), ok_bind]
  cases hm : a.sched.mem this with
  | none => rfl
  | some o =>
    cases hd : a.sched.deleted this with
    | true => rfl
    | false =>
      have hdet : ThreadFlags.isDetached o.flags = true := by
        rw [h.sched, flagsOf, hm] at hgone
        exact hgone
      simp [load_eq hm, hdet]

/-- The thread whose join is complete removes the dead threads. -/
theorem Shadow.removeDead (h : Shadow priorityMax s a) (hf : s.base.created.length < fuel) {u : T}
    {result : Option (Option V)} (hready : s.base.sched.ready cur = true) (hcur : s.base.point cur = .joined u result) :
    ∃ b', s.base.purge fuel priorityMax = .ok b' ∧ b'.created = s.base.created ∧
      ∃ a', Shadow priorityMax { s with base := (b'.goto cur .running).note (.returned cur u result) } a' := by
  obtain ⟨a₁, hrun, hok, hdead, -, hpt, hasleep, -⟩ := h.ok.purge (h.lt hf) a.existDeleted
  obtain ⟨b₁, l, hb, hal, hl, hptb⟩ := purge_alike cur h.sched h.joinData hrun
  have h₁ := h.alike hok hal (fun _ _ => rfl) (by simp) (fun _ _ => rfl) (List.Subset.refl _)
    fun t v hv => absurd hv (hl t v)
  refine ⟨b₁, hb, hal.created.2, ?_⟩
  by_cases hnth : s.nth u = s.asked cur
  · have hpta : a₁.point cur = .joined u result := by
      rw [hpt, h.here cur, hcur]
      rw [hcur]
      rintro t ⟨⟩
      exact hnth
    set a₂ := (a₁.goto cur .running).note (.returned cur u result)
    have hok₂ : a₂.Ok priorityMax :=
      ⟨hok.rep, hok.inv.returned hpta (fun hcon => h.awake hready (hasleep cur hcon)) hdead⟩
    have hal₂ : Alike cur none [.returned cur u result] a₁ b₁ a₂
        ((b₁.goto cur .running).note (.returned cur u result)) :=
      ⟨h₁.sched, h₁.joinData, ⟨rfl, rfl⟩, id, rfl, .inr ⟨.running, by simp [JoinPoint.target], rfl, rfl⟩⟩
    exact ⟨_, h₁.alike hok₂ hal₂ (fun _ _ => rfl) (by simp) (fun _ _ => rfl) (List.Subset.refl _) (by simp)⟩
  · exact ⟨a₁, h₁.leave (t := u) (by rw [hptb, hcur]; rfl) hnth rfl rfl rfl rfl⟩

/-- **One step.** -/
theorem Shadow.step (h : Shadow priorityMax s a) (hf : s.base.created.length < fuel) {e : JoinEvent T V}
    (hm : s.Meets e) : ∃ s', s.step fuel priorityMax e = .ok s' ∧
      s'.base.created.length ≤ s.base.created.length + 1 ∧ ∃ a', Shadow priorityMax s' a' := by
  have hkeep : ∀ x : Except Fault (ReuseSystem T V), (∃ s', x = .ok s' ∧ s'.base.created = s.base.created ∧
      ∃ a', Shadow priorityMax s' a') → ∃ s', x = .ok s' ∧
        s'.base.created.length ≤ s.base.created.length + 1 ∧ ∃ a', Shadow priorityMax s' a' := by
    rintro x ⟨s', hx, hc, h'⟩
    exact ⟨s', hx, by rw [hc]; exact Nat.le_succ _, h'⟩
  have hstay : ∃ s', (pure s : Except Fault (ReuseSystem T V)) = .ok s' ∧ s'.base.created = s.base.created ∧
      ∃ a', Shadow priorityMax s' a' := ⟨s, rfl, rfl, a, h⟩
  -- the steps that concern no join
  have hother : ∀ (cur : T) {x y : Except Fault (JoinSystem T V)}, (∃ a', x = .ok a' ∧ a'.Ok priorityMax) →
      RunsAlike cur none (fun _ _ => False) a s.base x y →
      ∃ s', (do let base ← y; pure { s with base := base } : Except Fault (ReuseSystem T V)) = .ok s' ∧
        s'.base.created = s.base.created ∧ ∃ a', Shadow priorityMax s' a' := by
    intro cur x y hx hr
    obtain ⟨b', hy, hc, -, h'⟩ := h.runs hx hr (fun _ _ => rfl) (by simp) (fun _ _ => rfl) (List.Subset.refl _)
      fun _ _ => False.elim
    exact ⟨_, by rw [hy]; rfl, hc, h'⟩
  have hok : ∀ e, ∃ a', a.step fuel priorityMax e = .ok a' ∧ a'.Ok priorityMax := fun e => by
    obtain ⟨a', ha, hok, -⟩ := h.ok.step (h.lt hf) e
    exact ⟨a', ha, hok⟩
  cases e with
  | create t priority joinable =>
    simp only [ReuseSystem.step]
    split
    · exact hkeep _ hstay
    · rename_i hcan
      simp only [not_or, not_le, Option.isSome_iff_ne_none, ne_eq, not_not] at hcan
      obtain ⟨s', hs, hc, h'⟩ := h.create joinable hcan.1 hcan.2.1 hcan.2.2
      exact ⟨s', hs, hc.le, h'⟩
  | setPriority t newPriority =>
    exact hkeep _ (hother t (hok _) (runsAlike_setPriority h.sched h.joinData t newPriority))
  | find => exact hkeep _ (hother s.base.sched.idle (hok _) (runsAlike_find h.sched h.joinData))
  | join cur this wanted =>
    refine hkeep _ ?_
    simp only [ReuseSystem.step]
    split
    · rename_i hready hcur
      obtain ⟨b', hb, hc, h'⟩ := h.join hf this wanted hready hcur
      exact ⟨_, by rw [hb]; rfl, by rw [complete_base]; exact hc, h'⟩
    · exact hstay
  | resume cur =>
    refine hkeep _ ?_
    simp only [ReuseSystem.step]
    split
    · rename_i this wanted hready hcur
      simp only [Meets, hready, hcur] at hm
      have hgoes : ∃ b', s.base.resumeJoin fuel priorityMax cur this wanted = .ok b' ∧
          b'.created = s.base.created ∧ ∃ a', Shadow priorityMax ({ s with base := b' }.complete cur) a' := by
        by_cases hnth : s.nth this = s.asked cur
        · exact h.resume hf hready hcur hnth
        · exact h.resume_gone hf hcur hnth (hm.resolve_left hnth)
      obtain ⟨b', hb, hc, h'⟩ := hgoes
      exact ⟨_, by rw [hb]; rfl, by rw [complete_base]; exact hc, h'⟩
    · exact hstay
  | removeDead cur =>
    refine hkeep _ ?_
    simp only [ReuseSystem.step, JoinSystem.step]
    split
    · rename_i u result hready hcur
      obtain ⟨b', hb, hc, h'⟩ := h.removeDead hf hready hcur
      exact ⟨_, by rw [hb]; rfl, hc, h'⟩
    · exact hstay
  | detach cur u =>
    refine hkeep _ ?_
    simp only [ReuseSystem.step, JoinSystem.step]
    split
    · rename_i hready hcur
      split
      · exact hstay
      · rename_i hlive
        rw [h.sched, Option.isNone_iff_eq_none, ← flagsOf_eq_none] at hlive
        obtain ⟨g, hg⟩ := Option.ne_none_iff_exists'.mp hlive
        obtain ⟨a', ha, hok', -⟩ := h.ok.detach hg
        exact hother cur ⟨a', ha, hok'⟩ (runsAlike_detach h.sched h.joinData)
    · exact hstay
  | terminate cur result =>
    refine hkeep _ ?_
    simp only [ReuseSystem.step]
    split
    · rename_i hready hcur
      have hpoint := h.point_of_running hcur
      obtain ⟨g, hg⟩ := h.ok.inv.exists_flags (t := cur) (by simp [hpoint]) (by simp [hpoint])
      obtain ⟨a', ha, hok', -⟩ := h.ok.threadLauncher (r := result) hg hpoint (h.awake hready)
      obtain ⟨b', hb, hc, -, h'⟩ := h.runs ⟨a', ha, hok'⟩ (runsAlike_threadLauncher h.sched h.joinData)
        (fun _ _ => rfl) (by simp) (fun _ _ => rfl) (List.subset_cons_self ⟨cur, s.nth cur, result⟩ s.endings)
        fun t v hv => by rw [hv.1, hv.2]; exact List.mem_cons_self
      exact ⟨_, by rw [hb]; rfl, hc, h'⟩
    · exact hstay
  | idle =>
    refine hkeep _ ?_
    simp only [ReuseSystem.step, JoinSystem.step]
    split
    · obtain ⟨a', ha, hok', -⟩ := h.ok.purge (h.lt hf) a.existDeleted
      refine hother s.base.sched.idle ⟨a', ha, hok'⟩ fun a₁ ha₁ => ?_
      obtain ⟨b', l, hb, hal, hl, -⟩ := purge_alike s.base.sched.idle
        (b := { s.base with existDeleted := false }) h.sched h.joinData ha₁
      exact ⟨b', l, hb, hal.of_first ⟨rfl, rfl, rfl, rfl⟩ ⟨rfl, rfl⟩, fun t v hv => hl t v hv⟩
    · exact hstay

theorem resumeJoin_of_live (h : Shadow priorityMax s a) (hf : s.base.created.length < fuel) {this : T} {g : ℕ}
    (hg : s.base.sched.flagsOf this = some g) (hatt : ThreadFlags.isDetached g = false) (wanted : Bool) :
    s.base.resumeJoin fuel priorityMax cur this wanted =
      if ThreadFlags.isDeletedJoin g then s.base.completeJoin cur this wanted
      else pure (s.base.irqJoinWait cur this wanted) := by
  obtain ⟨o, hm, rfl⟩ := Option.map_eq_some_iff.mp hg
  have hdead : a.sched.deleted this = false := by
    rw [Bool.eq_false_iff, Ne, deleted_iff_dead]
    rintro ⟨f, hfl, -, hdt⟩
    rw [← h.sched, hg, Option.some_inj] at hfl
    rw [hfl, hdt] at hatt
    cases hatt
  have hm' : a.sched.mem this = some o := h.sched ▸ hm
  rw [JoinSystem.resumeJoin, h.sched, h.ok.pkExists_eq (h.lt hf), ok_bind, hm', hdead, load_eq hm']
  simp only [Option.isSome_some, Bool.not_false, Bool.and_self, Bool.not_true, Bool.false_eq_true, if_false, ok_bind,
    hatt]

/-- **The converse.** A thread that goes on although another thread that can be joined has taken the place of the
one it asked for joins that one, or waits for it although its union does not name it. -/
theorem Shadow.confused (h : Shadow priorityMax s a) (hf : s.base.created.length < fuel) {e : JoinEvent T V}
    (hm : ¬s.Meets e) : ∃ s', s.step fuel priorityMax e = .ok s' ∧ ¬s'.Unconfused := by
  cases e with
  | resume cur =>
    simp only [Meets] at hm
    split at hm
    · rename_i this wanted hready hcur
      obtain ⟨hnth, hall⟩ := not_or.mp hm
      have hstep : s.step fuel priorityMax (.resume cur) =
          (s.base.resumeJoin fuel priorityMax cur this wanted >>= fun base =>
            pure ({ s with base := base }.complete cur)) := by
        simp only [ReuseSystem.step, hready, hcur]
      cases hg : s.base.sched.flagsOf this with
      | none =>
        rw [hg] at hall
        exact absurd rfl hall
      | some g =>
        rw [hg, Option.all_some, Bool.not_eq_true] at hall
        rw [hstep, resumeJoin_of_live h hf hg hall]
        cases hend : ThreadFlags.isDeletedJoin g with
        | true =>
          have hpoint := h.gone cur this (by rw [hcur]; rfl) hnth
          obtain ⟨a', ha⟩ : ∃ a', a.completeJoin cur this wanted = .ok a' := by
            obtain ⟨a', ha, -⟩ := h.ok.completeJoin (h.sched ▸ hg) hend hall (.inl hpoint) (h.awake hready)
            exact ⟨a', ha⟩
          obtain ⟨b', v, hb, -, hp⟩ := completeJoin_alike h.sched h.joinData ha
          refine ⟨_, by rw [if_pos rfl, hb]; rfl, fun hcon => hnth ?_⟩
          have hc := hcon.completions ⟨cur, this, s.asked cur, s.nth this, v⟩ (by simp [ReuseSystem.complete, hp])
          exact hc.1
        | false =>
          have hp : (s.base.irqJoinWait cur this wanted).point cur = .waiting this wanted := Function.update_self _ _ _
          refine ⟨_, rfl, fun hcon => ?_⟩
          obtain ⟨f, hf⟩ : ∃ f, s.base.sched.flagsOf cur = some f := by
            rw [← Option.ne_none_iff_exists']
            intro hnone
            rw [ready_eq_flagsOf, hnone] at hready
            cases hready
          have hwait : (s.base.irqJoinWait cur this wanted).waitingJoin cur = true := by
            simp [waitingJoin, JoinSystem.irqJoinWait, goto, hf]
          obtain ⟨t, w, hpt, heq, -⟩ := hcon.waiting cur (by rw [complete_base]; exact hwait)
          rw [complete_base] at hpt
          cases hp.symm.trans hpt
          refine hnth ?_
          simpa [ReuseSystem.complete, hp] using heq
    · exact absurd trivial hm
  | _ => exact absurd trivial hm

/-! ## Runs -/

theorem Shadow.run_iff (h : Shadow priorityMax s a) (es : List (JoinEvent T V))
    (hf : s.base.created.length + es.length < fuel) :
    EachState fuel priorityMax Unconfused s es ↔ EachEvent fuel priorityMax Meets s es := by
  induction es generalizing s a with
  | nil => exact iff_of_true h.unconfused trivial
  | cons e es ih =>
    rw [List.length_cons] at hf
    have hf' : s.base.created.length < fuel := by omega
    by_cases hm : s.Meets e
    · obtain ⟨s', hstep, hlen, a', h'⟩ := h.step hf' hm
      have hiff := ih h' (by omega)
      constructor
      · rintro ⟨-, s₁, hstep₁, hall⟩
        cases hstep.symm.trans hstep₁
        refine ⟨hm, fun s₂ hstep₂ => ?_⟩
        cases hstep.symm.trans hstep₂
        exact hiff.mp hall
      · rintro ⟨-, hall⟩
        exact ⟨h.unconfused, s', hstep, hiff.mpr (hall s' hstep)⟩
    · refine iff_of_false ?_ fun hcon => hm hcon.1
      rintro ⟨-, s₁, hstep₁, hall⟩
      obtain ⟨s', hstep, hbad⟩ := h.confused hf' hm
      cases hstep.symm.trans hstep₁
      refine hbad ?_
      cases es with
      | nil => exact hall
      | cons e' es => exact hall.1

/-- **Runs and reused memory.** No section fails, and in each state of a run each complete join joined the
thread that was asked for and each thread in the `WAIT_JOIN` state waits for a thread that was not freed, exactly
if no thread goes on while another one that can be joined is in the place of the thread it asked for. -/
theorem run_unconfused_iff (fuel priorityMax : ℕ) (idle : T) (es : List (JoinEvent T V)) (hf : es.length < fuel) :
    EachState fuel priorityMax Unconfused (initial idle) es ↔
      EachEvent fuel priorityMax Meets (initial idle) es :=
  (shadow_initial priorityMax idle).run_iff es (by simpa [initial, JoinSystem.initial] using hf)

/-- Thread 2 waits for thread 1, which ends; thread 3, whose priority is higher, joins thread 1 before thread 2
goes on. -/
def joinedFirst : List (JoinEvent ℕ ℕ) :=
  [.create 1 0 true, .create 2 0 true, .join 2 1 true, .setPriority 1 1, .create 3 1 true, .terminate 1 (some 7),
    .join 3 1 false, .removeDead 3]

/-- Thread 2 goes on before the memory of thread 1 is used again. -/
theorem run_unconfused_iff_joinedFirst :
    EachState 16 2 Unconfused (initial 0) (joinedFirst ++ [.resume 2, .create 1 1 true]) :=
  (run_unconfused_iff 16 2 0 (joinedFirst ++ [.resume 2, .create 1 1 true]) (by decide)).mpr (by decide +kernel)

/-- A thread is created in the place of thread 1 before thread 2 goes on. When the new thread ends first, the join
of thread 2 is complete with its value, and when it does not, thread 2 waits for it, and goes on waiting when it
ends. -/
theorem run_confused :
    (∃ s, (initial 0).run 16 2 (joinedFirst ++ [.create 1 1 true, .terminate 3 none, .terminate 1 (some 9),
        .resume 2]) = .ok s ∧ ⟨2, 1, 1, 2, some (some 9)⟩ ∈ s.completions ∧ ¬s.Unconfused) ∧
    ∃ s, (initial 0).run 16 2 (joinedFirst ++ [.create 1 0 true, .terminate 3 none, .resume 2,
        .terminate 1 (some 9)]) = .ok s ∧ s.base.waitingJoin 2 = true ∧ s.base.point 2 = .waiting 1 true ∧
      s.nth 1 ≠ s.asked 2 ∧ ¬s.Unconfused := by
  have hjoins : ∀ s : ReuseSystem ℕ ℕ, ⟨2, 1, 1, 2, some (some 9)⟩ ∈ s.completions → ¬s.Unconfused := by
    intro s hs hcon
    exact absurd (hcon.completions _ hs).1 (by decide)
  have hwaits : ∀ s : ReuseSystem ℕ ℕ, s.base.waitingJoin 2 = true → s.base.point 2 = .waiting 1 true →
      s.nth 1 ≠ s.asked 2 → ¬s.Unconfused := by
    intro s hs hp hne hcon
    obtain ⟨t, wanted, hpt, heq, -⟩ := hcon.waiting 2 hs
    cases hp.symm.trans hpt
    exact hne heq
  refine ⟨⟨_, rfl, List.mem_cons_self, hjoins _ List.mem_cons_self⟩, ?_⟩
  refine ⟨_, rfl, rfl, rfl, by decide, hwaits _ rfl rfl (by decide)⟩

end ReuseSystem

end Miosix
