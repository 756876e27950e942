import MiosixKernel.Process.TableRun

/-!
# The creation of a process

`Process::create` gives the process its place in the table in one section, and creates its thread after
it. If that fails, another section takes the process back. The other threads see the process in between.

* `Processes`: the table, and which threads are creating a process;
* `createFailed`: the section that takes a process back;
* `step`, `run`: every interleaving of the sections;
* `Inv.created_undone`: taking back a process that nobody waits for keeps the invariant of the table;
* `Processes.Inv`: the processes that have no thread yet.
-/

namespace Miosix

open Lib

/-- The table, and the process that a thread is creating: its thread is not there yet. -/
structure Processes (K P : Type) where
  table : ProcessTable K P
  creating : Tid K P → Option P

/-- What `Thread::createUserspace` answers to a thread that is creating a process is an event. -/
inductive ProcessesEvent (K P : Type) where
  | create (thread : Tid K P) (process : P) (fuel : ℕ)
  | threadCreated (thread : Tid K P)
  | threadFailed (thread : Tid K P)
  | waitpid (thread : Tid K P) (pid : ℤ) (exit nohang : Bool)
  | resume (thread : Tid K P)
  | exit (process : P) (exitCode : ℤ)

/-- The section of `Process::create` for a process without a thread. The exception that it ends with
deletes the process. -/
def ProcessTable.createFailed {K P : Type} [DecidableEq P] (s : ProcessTable K P) (t : Tid K P) (proc : P) :
    Except Fault (ProcessTable K P) := do
  let parent := s.owner t
  s.check proc
  s.check parent
  pure { s with
    live := Function.update s.live proc false
    childs := Function.update s.childs parent ((s.childs parent).filter (· ≠ proc))
    processes := Function.update s.processes (s.pid proc) none
    created := s.created.filter (· ≠ proc) }

namespace Processes

variable {K P : Type} [DecidableEq K] [DecidableEq P]

def initial (K : Type) (kernel : P) : Processes K P where
  table := .initial K kernel
  creating _ := none

/-- A thread that runs outside of `create` and `waitpid`. -/
def Free (s : Processes K P) (t : Tid K P) : Prop := s.table.point t = .running ∧ s.creating t = none

instance (s : Processes K P) (t : Tid K P) : Decidable (s.Free t) :=
  inferInstanceAs (Decidable (_ ∧ _))

/-- The first section of `Process::create`. -/
def create (s : Processes K P) (t : Tid K P) (proc : P) (fuel : ℕ) :
    Except Fault (Processes K P) :=
  match getNewPid s.table.processes fuel s.table.pidCounter with
  | none => pure s
  | some _ => do
    let table ← s.table.create t proc fuel
    pure { s with
      table := table.goto (.process proc) .absent
      creating := Function.update s.creating t (some proc) }

/-- The thread of the process starts, and `create` returns. -/
def threadCreated (s : Processes K P) (t : Tid K P) : Processes K P :=
  match s.creating t with
  | none => s
  | some proc =>
    { s with
      table := s.table.goto (.process proc) .running
      creating := Function.update s.creating t none }

/-- There is no thread for the process, and `create` throws. -/
def threadFailed (s : Processes K P) (t : Tid K P) : Except Fault (Processes K P) :=
  match s.creating t with
  | none => pure s
  | some proc => do
    let table ← s.table.createFailed t proc
    pure { s with
      table := table
      creating := Function.update s.creating t none }

/-- Run a section of the table. -/
def lift (s : Processes K P) (table : Except Fault (ProcessTable K P)) :
    Except Fault (Processes K P) := do
  let table ← table
  pure { s with table := table }

/-- A step of the system. An event of a thread that is elsewhere does nothing. -/
def step (s : Processes K P) : ProcessesEvent K P → Except Fault (Processes K P)
  | .create t proc fuel =>
    if s.Free t ∧ proc ∉ s.table.created then s.create t proc fuel else pure s
  | .threadCreated t => pure (s.threadCreated t)
  | .threadFailed t => s.threadFailed t
  | .waitpid t pid exit nohang =>
    if s.Free t then s.lift (s.table.waitpid t pid exit nohang) else pure s
  | .resume t => s.lift (s.table.resume t)
  | .exit proc exitCode =>
    if s.Free (.process proc) then s.lift (s.table.exit proc exitCode) else pure s

def run (s : Processes K P) : List (ProcessesEvent K P) → Except Fault (Processes K P)
  | [] => pure s
  | e :: es => do
    let s ← s.step e
    s.run es

end Processes

/-! ## Taking a process back -/

namespace ProcessTable

variable {K P : Type} {s : ProcessTable K P} {t u : Tid K P} {proc p q c : P}

/-- A process that a thread is creating. -/
structure New (s : ProcessTable K P) (t : Tid K P) (proc : P) : Prop where
  running : s.point t = .running
  isChild : s.IsChild (s.owner t) proc
  zombie : s.zombie proc = false
  absent : s.point (.process proc) = .absent
  childless : ∀ c, ¬s.IsChild proc c

theorem New.active (h : s.New t proc) : s.Active t := by simp [Active, h.running]

/-- The table without a process. -/
def withdrawn [DecidableEq P] (s : ProcessTable K P) (parent proc : P) : ProcessTable K P :=
  { s with
    live := Function.update s.live proc false
    childs := Function.update s.childs parent ((s.childs parent).filter (· ≠ proc))
    processes := Function.update s.processes (s.pid proc) none
    created := s.created.filter (· ≠ proc) }

variable [DecidableEq P]

theorem New.createFailed_eq (hn : s.New t proc) (h : s.Inv) :
    s.createFailed t proc = .ok (s.withdrawn (s.owner t) proc) := by
  rw [createFailed, check_eq hn.isChild.1, ok_bind, check_eq (h.owner_live hn.active), ok_bind]
  rfl

theorem withdrawn_live_iff (s : ProcessTable K P) {parent : P} :
    (s.withdrawn parent proc).live p = true ↔ p ≠ proc ∧ s.live p = true := by
  by_cases hp : p = proc <;> simp [withdrawn, hp]

theorem withdrawn_isChild (s : ProcessTable K P) {parent : P} :
    (s.withdrawn parent proc).IsChild q c ↔ c ≠ proc ∧ s.IsChild q c := by
  simp only [IsChild, withdrawn_live_iff]
  exact and_assoc

theorem mem_withdrawn_childs (h : s.Inv) (hn : s.New t proc) (hq : s.live q = true) :
    c ∈ (s.withdrawn (s.owner t) proc).childs q ↔ c ≠ proc ∧ c ∈ s.childs q := by
  by_cases hqo : q = s.owner t
  · subst hqo
    simp [withdrawn, and_comm]
  · have hno : c ∈ s.childs q → c ≠ proc := by
      rintro hc rfl
      have hcq := ((h.mem_childs q c hq).mp hc).1
      exact hqo (h.eq_of_pid_eq hq (h.owner_live hn.active) (hcq.2.2.symm.trans hn.isChild.2.2))
    simpa [withdrawn, hqo] using hno

/-- **Taking back a process** that nobody waits for. -/
theorem Inv.withdrawn (h : s.Inv) (hn : s.New t proc) (hw : ∀ u, ¬s.Waits u proc) :
    (s.withdrawn (s.owner t) proc).Inv := by
  set s' := s.withdrawn (s.owner t) proc with hs'
  obtain ⟨hlive, hker, hppid⟩ := hn.isChild
  have hlive' : ∀ p, s'.live p = true ↔ p ≠ proc ∧ s.live p = true := fun p => withdrawn_live_iff s
  have hchild : ∀ q c, s'.IsChild q c ↔ c ≠ proc ∧ s.IsChild q c := fun q c => withdrawn_isChild s
  have hcreated : ∀ p, p ∈ s'.created ↔ p ∈ s.created ∧ p ≠ proc := fun p => by simp [hs', ProcessTable.withdrawn]
  have howner : ∀ u, s'.owner u = s.owner u := fun u => by cases u <;> rfl
  have hnever : ∀ code, .exited proc code ∉ s.history := fun code hcon => by
    have := (h.exited_iff proc hlive).mp ⟨code, hcon⟩
    rw [hn.zombie] at this
    cases this
  refine { h with
    kernel_live := (hlive' _).mpr ⟨Ne.symm hker, h.kernel_live⟩
    processes_iff := fun k p => ?_
    pid_pos := fun p hp => h.pid_pos p ((hlive' p).mp hp).2
    ppid_ne := fun p hp => h.ppid_ne p ((hlive' p).mp hp).2
    parent := fun p hp => ?_
    childs_nodup := fun q hq => ?_
    mem_childs := fun q c hq => ?_
    zombies_nodup := fun q hq => h.zombies_nodup q ((hlive' q).mp hq).2
    mem_zombies := fun q c hq => ?_
    waiters := fun p hp => h.waiters p ((hlive' p).mp hp).2
    specific := fun u p e w hu => ?_
    owner := fun u hu hu' => ?_
    live_mem := fun p hp => (hcreated p).mpr ⟨h.live_mem p ((hlive' p).mp hp).2, ((hlive' p).mp hp).1⟩
    absent := fun p hp => ?_
    exited_mem := fun p code hp => (hcreated p).mpr ⟨h.exited_mem p code hp, ?_⟩
    exited_iff := fun p hp => h.exited_iff p ((hlive' p).mp hp).2
    exitCode := fun p hp => h.exitCode p ((hlive' p).mp hp).2
    deleted_iff := fun p => ?_
    returned := h.returned }
  · have hproc : s'.processes = Function.update s.processes (s.pid proc) none := rfl
    rw [hproc, hlive']
    by_cases hk : k = s.pid proc
    · rw [hk, Function.update_self]
      refine iff_of_false (by simp) ?_
      rintro ⟨⟨hne, hp⟩, hpid⟩
      exact hne (h.eq_of_pid_eq hp hlive hpid)
    · rw [Function.update_of_ne hk, h.processes_iff, and_assoc]
      refine ⟨fun hp => ⟨?_, hp⟩, fun hp => hp.2⟩
      rintro rfl
      exact hk hp.2.symm
  · obtain ⟨hpp, hpl⟩ := (hlive' p).mp hp
    obtain ⟨q, hq, hqz, hpid⟩ := h.parent p hpl
    refine ⟨q, (hlive' q).mpr ⟨?_, hq⟩, hqz, hpid⟩
    rintro rfl
    by_cases hpk : p = s.kernel
    · have := h.pid_pos q hlive hker
      rw [hpid, hpk, h.kernel_ppid] at this
      omega
    · exact hn.childless p ⟨hpl, hpk, hpid.symm⟩
  · have hnd := h.childs_nodup q ((hlive' q).mp hq).2
    by_cases hqo : q = s.owner t
    · subst hqo
      simpa [hs', ProcessTable.withdrawn] using hnd.filter _
    · simpa [hs', ProcessTable.withdrawn, hqo] using hnd
  · have hql := ((hlive' q).mp hq).2
    rw [mem_withdrawn_childs h hn hql, hchild, h.mem_childs q c hql, and_assoc]
    rfl
  · rw [hchild]
    refine (h.mem_zombies q c ((hlive' q).mp hq).2).trans ⟨?_, ?_⟩
    · rintro ⟨hc, hz, hwc⟩
      refine ⟨⟨?_, hc⟩, hz, hwc⟩
      rintro rfl
      rw [hn.zombie] at hz
      cases hz
    · rintro ⟨⟨-, hc⟩, hz, hwc⟩
      exact ⟨hc, hz, hwc⟩
  · obtain ⟨hc, hcz⟩ := h.specific u p e w hu
    rw [howner, hchild]
    refine ⟨⟨?_, hc⟩, hcz⟩
    rintro rfl
    exact hw u ⟨e, w, hu⟩
  · obtain ⟨hol, hoz⟩ := h.owner u hu hu'
    rw [howner, hlive']
    refine ⟨⟨?_, hol⟩, hoz⟩
    intro heq
    cases u with
    | kernel k => exact hker heq.symm
    | process x =>
      obtain rfl : x = proc := heq
      exact hu hn.absent
  · by_cases hpp : p = proc
    · rw [hpp]
      exact hn.absent
    · exact h.absent p fun hcon => hp ((hcreated p).mpr ⟨hcon, hpp⟩)
  · rintro rfl
    exact hnever code hp
  · have hlf : s'.live p = false ↔ p = proc ∨ s.live p = false := by
      rw [← Bool.not_eq_true, hlive', not_and_or, not_not, Bool.not_eq_true]
    have hhist : s'.history = s.history := rfl
    rw [hhist, h.deleted_iff, hcreated, hlf]
    by_cases hpp : p = proc
    · subst hpp
      simp [hlive]
    · simp [hpp]

/-! ## What a section of `waitpid` does -/

/-- A thread moves or reaps a zombie, and it only sleeps in wait of any child if there is one and no
zombie. -/
inductive Waited [DecidableEq K] (s : ProcessTable K P) (t : Tid K P) : ProcessTable K P → Prop
  | stay : Waited s t s
  | goto (waitCount : P → ℤ) (x : WaitPoint P)
      (hx : ∀ e, x = .generic e false → s.zombies (s.owner t) = [] ∧ s.childs (s.owner t) ≠ []) :
      Waited s t ({ s with waitCount := waitCount }.goto t x)
  | reap (waitCount : P → ℤ) (zombies : P → List P) (joined : P) (e : Bool) (hz : s.zombie joined = true)
      (hsub : ∀ q, zombies q ⊆ s.zombies q) :
      Waited s t ({ s with waitCount := waitCount, zombies := zombies }.reap t joined e)

variable [DecidableEq K] {s' : ProcessTable K P} {joined : P} {e nohang : Bool} {pid : ℤ}

theorem Inv.waitGeneric_waited (h : s.Inv) (hok : s.waitGeneric t e = .ok s') : s.Waited t s' := by
  obtain ⟨_, hown, hok⟩ := bind_eq_ok hok
  have hlive : s.live (s.owner t) = true := by
    by_contra hcon
    simp [check, hcon] at hown
  dsimp only at hok
  cases hz : s.zombies (s.owner t) with
  | nil =>
    rw [hz] at hok
    dsimp only at hok
    by_cases hc : s.childs (s.owner t) = []
    · rw [if_pos hc] at hok
      cases hok
      exact .goto s.waitCount .running (by simp)
    · rw [if_neg hc] at hok
      cases hok
      exact .goto s.waitCount _ fun _ _ => ⟨hz, hc⟩
  | cons joined rest =>
    rw [hz] at hok
    obtain ⟨-, -, hok⟩ := bind_eq_ok hok
    have hmem : joined ∈ s.zombies (s.owner t) := by simp [hz]
    have hzj := ((h.mem_zombies _ joined hlive).mp hmem).2.1
    split at hok
    · cases hok
    · cases hok
      refine .reap s.waitCount _ joined e hzj fun q => ?_
      by_cases hq : q = s.owner t
      · subst hq
        simp [hz]
      · simp [hq]

theorem finishWait_waited (waitCount : P → ℤ) (hz : s.zombie joined = true)
    (hok : { s with waitCount := waitCount }.finishWait t joined e = .ok s') : s.Waited t s' := by
  obtain ⟨-, -, hok⟩ := bind_eq_ok hok
  split at hok
  · obtain ⟨-, -, hok⟩ := bind_eq_ok hok
    cases hok
    refine .reap waitCount _ joined e hz fun q => ?_
    have howner : ({ s with waitCount := waitCount } : ProcessTable K P).owner t = s.owner t := by cases t <;> rfl
    rw [howner]
    by_cases hq : q = s.owner t
    · subst hq
      simp
    · simp [hq]
  · cases hok
    exact .goto waitCount .running (by simp)

theorem Inv.waitpid_waited (h : s.Inv) (hok : s.waitpid t pid e nohang = .ok s') : s.Waited t s' := by
  obtain ⟨-, -, hok⟩ := bind_eq_ok hok
  split at hok
  · split at hok
    · cases hok
      exact .stay
    · exact h.waitGeneric_waited hok
  · split at hok
    · cases hok
      exact .stay
    · rename_i joined hp
      obtain ⟨-, -, hok⟩ := bind_eq_ok hok
      split at hok
      · cases hok
        exact .stay
      · split at hok
        · rename_i hz
          exact finishWait_waited s.waitCount hz hok
        · split at hok
          · cases hok
            exact .stay
          · cases hok
            exact .goto _ _ (by simp)

theorem Inv.resume_waited (h : s.Inv) (hok : s.resume t = .ok s') : s.Waited t s' := by
  unfold resume at hok
  split at hok
  · exact h.waitGeneric_waited hok
  · obtain ⟨-, -, hok⟩ := bind_eq_ok hok
    dsimp only at hok
    split at hok
    · cases hok
    · rename_i hgood
      rw [not_or, Bool.not_eq_false] at hgood
      exact finishWait_waited _ hgood.2 hok
  · cases hok
    exact .stay

theorem Inv.create_eq (h : s.Inv) (hact : s.Active t) {fuel : ℕ} {pid : ℤ × ℤ}
    (hpid : getNewPid s.processes fuel s.pidCounter = some pid) :
    s.create t proc fuel = .ok (s.added t proc pid.1 pid.2) := by
  simp only [create, hpid, check_eq (h.owner_live hact), ok_bind]
  rfl

/-- A thread that is not in `waitpid` does not go on there. -/
theorem resume_idle (hpt : s.point t = .running ∨ s.point t = .absent) : s.resume t = .ok s := by
  unfold resume
  rcases hpt with hpt | hpt <;> simp [hpt]

/-- The thread of a new process starts. -/
theorem Inv.start (h : s.Inv) (hn : s.New t proc) : (s.goto (.process proc) .running).Inv := by
  have hspec : ∀ u p e w,
      (s.goto (.process proc) .running).point u = .specific p e w ↔ s.point u = .specific p e w := by
    intro u p e w
    by_cases hu : u = .process proc
    · subst hu
      simp [ProcessTable.goto, hn.absent]
    · simp [ProcessTable.goto, hu]
  have howner : ∀ u, (s.goto (.process proc) .running).owner u = s.owner u := fun u => by cases u <;> rfl
  refine { h with
    kernel_absent := ?_
    waiters := fun p hp => ?_
    specific := fun u p e w hu => h.specific u p e w ((hspec u p e w).mp hu)
    owner := fun u hu hu' => ?_
    absent := fun p hp => ?_ }
  · have hk : (.process s.kernel : Tid K P) ≠ .process proc := by simpa using hn.isChild.2.1.symm
    exact (Function.update_of_ne hk _ _).trans h.kernel_absent
  · obtain ⟨l, hnd, hmem, hlen⟩ := h.waiters p hp
    exact ⟨l, hnd, fun u => by simp only [hmem, Waits, hspec], hlen⟩
  · rw [howner]
    by_cases hup : u = .process proc
    · subst hup
      exact ⟨hn.isChild.1, hn.zombie⟩
    · simp only [ProcessTable.goto, Function.update_of_ne hup] at hu hu'
      exact h.owner u hu hu'
  · have hpp : p ≠ proc := by
      rintro rfl
      exact hp (h.live_mem p hn.isChild.1)
    exact (Function.update_of_ne (by simpa using hpp) _ _).trans (h.absent p hp)

/-! ## A process that is being created, through the other sections -/

theorem New.waited (hn : s.New u proc) (hut : u ≠ t) (hp : Tid.process proc ≠ t) (hw : s.Waited t s') :
    s'.New u proc := by
  cases hw with
  | stay => exact hn
  | goto waitCount x hx =>
    exact {
      running := (Function.update_of_ne hut _ _).trans hn.running
      isChild := by cases u <;> exact hn.isChild
      zombie := hn.zombie
      absent := (Function.update_of_ne hp _ _).trans hn.absent
      childless := hn.childless }
  | reap waitCount zombies joined e hz hsub =>
    have hne : proc ≠ joined := by
      rintro rfl
      rw [hn.zombie] at hz
      cases hz
    have hlive : ∀ c, Function.update s.live joined false c = true → s.live c = true := by
      intro c hc
      by_cases hcj : c = joined
      · simp [hcj] at hc
      · rwa [Function.update_of_ne hcj] at hc
    refine {
      running := (Function.update_of_ne hut _ _).trans hn.running
      isChild := ⟨?_, hn.isChild.2.1, ?_⟩
      zombie := hn.zombie
      absent := (Function.update_of_ne hp _ _).trans hn.absent
      childless := fun c hc => hn.childless c ⟨hlive c hc.1, hc.2⟩ }
    · exact (Function.update_of_ne hne _ _).trans hn.isChild.1
    · cases u <;> exact hn.isChild.2.2

theorem New.ended {parent : P} {exitCode : ℤ} (hn : s.New u p) (h : s.Ending proc parent)
    (hu : u ≠ .process proc) : (s.ended proc parent exitCode).New u p := by
  have hne : p ≠ proc := by
    rintro rfl
    cases h.running.symm.trans hn.absent
  have hun := h.inv.owner_live hn.active
  have howner : s.owner u ≠ proc := by
    intro heq
    cases u with
    | kernel k => exact h.ne_kernel heq.symm
    | process x => exact hu (congrArg Tid.process heq)
  refine {
    running := ?_
    isChild := ?_
    zombie := (Function.update_of_ne hne _ _).trans hn.zombie
    absent := (Ending.point_idle s (.inl rfl) (by simpa using hne)).mpr hn.absent
    childless := fun c hc => ?_ }
  · simp only [ProcessTable.ended, Function.update_of_ne hu, hn.running]
    split <;> rfl
  · have heq : (s.ended proc parent exitCode).owner u = s.owner u := by cases u <;> rfl
    rw [heq, h.isChild_iff hun]
    exact ⟨howner, .inl hn.isChild⟩
  · rcases ((h.isChild_iff hn.isChild.1).mp hc).2 with hc | ⟨hk, -⟩
    · exact hn.childless c hc
    · exact hn.isChild.2.1 hk

theorem New.added {pidCounter : ℤ} (hn : s.New u p) (h : s.Inv) (hact : s.Active t) (hnew : proc ∉ s.created) :
    (s.added t proc pid pidCounter).New u p := by
  have hne : p ≠ proc := h.ne_of_live hnew hn.isChild.1
  have hup : u ≠ .process proc := by
    rintro rfl
    exact hn.active.1 (h.absent proc hnew)
  have hpt : p ≠ s.owner t := by
    rintro rfl
    cases t with
    | kernel k => exact hn.isChild.2.1 rfl
    | process x => exact hact.1 hn.absent
  refine {
    running := (Function.update_of_ne hup _ _).trans hn.running
    isChild := ?_
    zombie := (Function.update_of_ne hne _ _).trans hn.zombie
    absent := (Function.update_of_ne (by simpa using hne) _ _).trans hn.absent
    childless := fun c hc => ?_ }
  · have heq : (s.added t proc pid pidCounter).owner u = s.owner u := by cases u <;> rfl
    rw [heq, h.added_isChild hact hnew (h.owner_live hn.active)]
    exact .inl hn.isChild
  · rcases (h.added_isChild hact hnew hn.isChild.1).mp hc with hc | ⟨-, hpo⟩
    · exact hn.childless c hc
    · exact hpt hpo

omit [DecidableEq K] in
theorem New.withdrawn {parent : P} (hn : s.New u p) (hne : p ≠ proc) : (s.withdrawn parent proc).New u p := by
  refine { hn with
    isChild := ?_
    childless := fun c hc => hn.childless c ((withdrawn_isChild s).mp hc).2 }
  have heq : (s.withdrawn parent proc).owner u = s.owner u := by cases u <;> rfl
  rw [heq, withdrawn_isChild]
  exact ⟨hne, hn.isChild⟩

/-- The process that is new in the table. -/
theorem New.of_added {pidCounter : ℤ} (h : s.Inv) (hrun : s.point t = .running) (hnew : proc ∉ s.created)
    (hfree : s.processes pid = none) :
    ((s.added t proc pid pidCounter).goto (.process proc) .absent).New t proc := by
  have hact : s.Active t := by simp [Active, hrun]
  have hown := h.owner_live hact
  have htp : t ≠ .process proc := by
    rintro rfl
    exact hact.1 (h.absent proc hnew)
  have hchild : (s.added t proc pid pidCounter).IsChild (s.owner t) proc :=
    (h.added_isChild hact hnew hown).mpr (.inr ⟨rfl, rfl⟩)
  refine {
    running := (Function.update_of_ne htp _ _).trans ((Function.update_of_ne htp _ _).trans hrun)
    isChild := by cases t <;> exact hchild
    zombie := Function.update_self _ _ _
    absent := Function.update_self _ _ _
    childless := fun c hc => ?_ }
  have hno : ¬(s.added t proc pid pidCounter).IsChild proc c := h.added_childless hact hfree
  exact hno hc

end ProcessTable

/-! ## The invariant of the system -/

namespace Processes

variable {K P : Type} {s s' : Processes K P} {t u : Tid K P} {proc : P}

/-- The table is well formed, and each process that is being created is new and has one creator. -/
structure Inv (s : Processes K P) : Prop where
  table : s.table.Inv
  creating : ∀ t p, s.creating t = some p → s.table.New t p
  unique : ∀ t u p, s.creating t = some p → s.creating u = some p → t = u

variable [DecidableEq K] [DecidableEq P]

/-- One thread ends its creation, and the processes of the others are still new. -/
theorem Inv.stop (h : s.Inv) {table : ProcessTable K P} (htable : table.Inv)
    (hnew : ∀ u p, u ≠ t → s.creating u = some p → table.New u p) :
    Inv { s with table := table, creating := Function.update s.creating t none } := by
  have hold : ∀ u p, Function.update s.creating t none u = some p → u ≠ t ∧ s.creating u = some p := by
    intro u p hu
    by_cases hut : u = t
    · simp [hut] at hu
    · rw [Function.update_of_ne hut] at hu
      exact ⟨hut, hu⟩
  exact ⟨htable, fun u p hu => hnew u p (hold u p hu).1 (hold u p hu).2,
    fun u v p hu hv => h.unique u v p (hold u p hu).2 (hold v p hv).2⟩

theorem Inv.create_ok (h : s.Inv) (hfree : s.Free t) (hnew : proc ∉ s.table.created) (fuel : ℕ) :
    ∃ s', s.create t proc fuel = .ok s' ∧ s'.Inv := by
  have hact : s.table.Active t := by simp [ProcessTable.Active, hfree.1]
  unfold create
  split
  · exact ⟨s, rfl, h⟩
  · rename_i pid hpid
    obtain ⟨hpos, hnone⟩ := getNewPid_spec hpid
    have hadded := h.table.added pid.2 hact hnew hpos hnone
    rw [h.table.create_eq hact hpid, ok_bind]
    have hpoint : (s.table.added t proc pid.1 pid.2).point (.process proc) = .running := Function.update_self _ _ _
    have hother : ∀ u p, s.creating u = some p → u ≠ t ∧ p ≠ proc := by
      intro u p hu
      refine ⟨?_, h.table.ne_of_live hnew (h.creating u p hu).isChild.1⟩
      rintro rfl
      rw [hfree.2] at hu
      cases hu
    refine ⟨_, rfl, ?_, fun u p hu => ?_, fun u v p hu hv => ?_⟩
    · exact hadded.goto (by simp [ProcessTable.Active, hpoint]) (by simp [ProcessTable.Waits, hpoint]) (by simp)
    · by_cases hut : u = t
      · subst hut
        obtain rfl : proc = p := by simpa using hu
        exact .of_added h.table hfree.1 hnew hnone
      · simp only [Function.update_of_ne hut] at hu
        obtain ⟨-, hpp⟩ := hother u p hu
        have hn := h.creating u p hu
        have hup : u ≠ .process proc := by
          rintro rfl
          exact hn.active.1 (h.table.absent proc hnew)
        exact (hn.added h.table hact hnew).waited hup (by simpa using hpp) (.goto _ _ (by simp))
    · by_cases hut : u = t
      · by_cases hvt : v = t
        · rw [hut, hvt]
        · simp only [hut, Function.update_self, Function.update_of_ne hvt] at hu hv
          exact absurd (Option.some.inj hu).symm (hother v p hv).2
      · simp only [Function.update_of_ne hut] at hu
        by_cases hvt : v = t
        · simp only [hvt, Function.update_self] at hv
          exact absurd (Option.some.inj hv).symm (hother u p hu).2
        · simp only [Function.update_of_ne hvt] at hv
          exact h.unique u v p hu hv

theorem Inv.threadCreated (h : s.Inv) (t : Tid K P) : (s.threadCreated t).Inv := by
  unfold Processes.threadCreated
  split
  · exact h
  · rename_i proc ht
    have hn := h.creating t proc ht
    refine h.stop (h.table.start hn) fun u p hut hu => (h.creating u p hu).waited ?_ ?_ (.goto _ _ (by simp))
    · rintro rfl
      cases hn.absent.symm.trans (h.creating _ p hu).running
    · rintro heq
      cases heq
      exact hut (h.unique u t _ hu ht)

theorem Inv.threadFailed_ok (h : s.Inv) (hw : ∀ proc, s.creating t = some proc → ∀ u, ¬s.table.Waits u proc) :
    ∃ s', s.threadFailed t = .ok s' ∧ s'.Inv := by
  unfold threadFailed
  split
  · exact ⟨s, rfl, h⟩
  · rename_i proc ht
    have hn := h.creating t proc ht
    rw [hn.createFailed_eq h.table, ok_bind]
    refine ⟨_, rfl, h.stop (h.table.withdrawn hn (hw proc ht)) fun u p hut hu => ?_⟩
    refine (h.creating u p hu).withdrawn ?_
    rintro rfl
    exact hut (h.unique u t p hu ht)

/-- A section of `waitpid`. -/
theorem Inv.lift_waited (h : s.Inv) (ht : s.creating t = none) (hp : ∀ u p, s.creating u = some p → .process p ≠ t)
    {table : ProcessTable K P} (htable : table.Inv) (hw : s.table.Waited t table) :
    Inv { s with table := table } := by
  refine ⟨htable, fun u p hu => ?_, h.unique⟩
  refine (h.creating u p hu).waited ?_ (hp u p hu) hw
  rintro rfl
  rw [ht] at hu
  cases hu

theorem Inv.exit_ok (h : s.Inv) (hfree : s.Free (.process proc)) (exitCode : ℤ) :
    ∃ parent, s.table.Ending proc parent ∧
      s.lift (s.table.exit proc exitCode) = .ok { s with table := s.table.ended proc parent exitCode } ∧
      Inv { s with table := s.table.ended proc parent exitCode } := by
  obtain ⟨parent, hend⟩ := h.table.exists_ending hfree.1
  refine ⟨parent, hend, ?_, hend.inv_ended exitCode, fun u p hu => (h.creating u p hu).ended hend ?_, h.unique⟩
  · rw [lift, h.table.exit_eq hend.live hend.ne_kernel hend.parent_live hend.parent_pid]
    rfl
  · rintro rfl
    rw [hfree.2] at hu
    cases hu

/-- Nobody waits for the processes that get no thread. -/
def Unwatched (s : Processes K P) : ProcessesEvent K P → Prop
  | .threadFailed t => ∀ proc, s.creating t = some proc → ∀ u, ¬s.table.Waits u proc
  | _ => True

/-- **One step.** Every event returns and keeps the invariant, unless a thread waits for a process that is
taken back. -/
theorem Inv.step_ok (h : s.Inv) (ev : ProcessesEvent K P) (hev : s.Unwatched ev) :
    ∃ s', s.step ev = .ok s' ∧ s'.Inv := by
  have hpoint : ∀ {t}, s.table.point t ≠ .absent → ∀ u p, s.creating u = some p → .process p ≠ t := by
    rintro t ht u p hu rfl
    exact ht (h.creating u p hu).absent
  cases ev with
  | create t proc fuel =>
    simp only [step]
    split
    · rename_i hcan
      exact h.create_ok hcan.1 hcan.2 fuel
    · exact ⟨s, rfl, h⟩
  | threadCreated t => exact ⟨_, rfl, h.threadCreated t⟩
  | threadFailed t => exact h.threadFailed_ok hev
  | waitpid t pid e nohang =>
    simp only [step]
    split
    · rename_i hfree
      obtain ⟨table, htable, hinv⟩ := h.table.waitpid_ok hfree.1 pid e nohang
      rw [lift, htable, ok_bind]
      exact ⟨_, rfl, h.lift_waited hfree.2 (hpoint (by simp [hfree.1])) hinv (h.table.waitpid_waited htable)⟩
    · exact ⟨s, rfl, h⟩
  | resume t =>
    obtain ⟨table, htable, hinv⟩ := h.table.resume_ok t
    have hw := h.table.resume_waited htable
    simp only [step, lift, htable, ok_bind]
    refine ⟨_, rfl, ?_⟩
    have hidle : s.table.point t = .running ∨ s.table.point t = .absent → Inv { s with table := table } := by
      intro hpt
      rw [ProcessTable.resume_idle hpt] at htable
      cases htable
      exact h
    cases hcr : s.creating t with
    | some p => exact hidle (.inl (h.creating t p hcr).running)
    | none =>
      by_cases habs : s.table.point t = .absent
      · exact hidle (.inr habs)
      · exact h.lift_waited hcr (hpoint habs) hinv hw
  | exit proc exitCode =>
    simp only [step]
    split
    · rename_i hfree
      obtain ⟨parent, -, hexit, hinv⟩ := h.exit_ok hfree exitCode
      exact ⟨_, hexit, hinv⟩
    · exact ⟨s, rfl, h⟩

end Processes

end Miosix
