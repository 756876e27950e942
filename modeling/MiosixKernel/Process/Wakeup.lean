import MiosixKernel.Process.Creation

/-!
# Wakeups of `waitpid`

A thread that waits for any child is woken by the end of a process that nobody waits for by its pid. The end
of another one, and a creation that fails, can leave it asleep with no child, or with a zombie.

* `NoMissedWakeup`: no thread sleeps while there is something for it to do;
* `Heeded`: the steps that leave no thread asleep, and `Inv.step_noMissedWakeup_iff`, that there are no others;
* **`run_noMissedWakeup`**: every run of such steps.
-/

namespace Miosix

open Lib

namespace ProcessTable

variable {K P : Type} {s s' : ProcessTable K P} {t u : Tid K P} {proc parent p q c : P} {exitCode : ℤ}

/-- A thread that sleeps in wait of any child has one, and no zombie. -/
def GenericWaits (s : ProcessTable K P) : Prop :=
  ∀ t e, s.point t = .generic e false → s.zombies (s.owner t) = [] ∧ s.childs (s.owner t) ≠ []

/-- No thread sleeps in `waitpid` that would not be there if it had called it now. -/
structure NoMissedWakeup (s : ProcessTable K P) : Prop where
  generic : s.GenericWaits
  specific : ∀ t p e, s.point t = .specific p e false →
    ∀ q, s.processes (s.pid p) = some q → s.zombie q = false

/-- Threads that wait for one process are always woken. -/
theorem Inv.noMissedWakeup (h : s.Inv) (hg : s.GenericWaits) : s.NoMissedWakeup := by
  refine ⟨hg, fun t p e ht q hq => ?_⟩
  obtain ⟨hc, hz⟩ := h.specific t p e false ht
  obtain ⟨hlive, hpid⟩ := (h.processes_iff _ q).mp hq
  rw [h.eq_of_pid_eq hlive hc.1 hpid]
  simpa using hz

/-- The children that a process is left with when `proc` ends. -/
def Remains (s : ProcessTable K P) (proc q c : P) : Prop :=
  c ≠ proc ∧ (c ∈ s.childs q ∨ q = s.kernel ∧ c ∈ s.childs proc)

/-- If somebody waits for the process that ends by its pid, no thread that waits for any child gets a zombie
from it, or loses its last child with it. -/
def Heard (s : ProcessTable K P) (proc : P) : Prop :=
  0 < s.waitCount proc → ∀ t e, s.point t = .generic e false →
    (s.owner t = s.kernel → s.zombies proc = []) ∧
      (s.pid (s.owner t) = s.ppid proc → ∃ c, s.Remains proc (s.owner t) c)

/-- No thread that waits for any child loses its last child when `proc` is taken back. -/
def Spared (s : ProcessTable K P) (parent proc : P) : Prop :=
  ∀ t e, s.point t = .generic e false → s.owner t = parent → ∃ c ∈ s.childs parent, c ≠ proc

variable [DecidableEq K] [DecidableEq P]

/-! ## The sections -/

/-- A thread that goes somewhere else. -/
theorem GenericWaits.goto (hg : s.GenericWaits) {x : WaitPoint P} (hx : ∀ e, x ≠ .generic e false) :
    (s.goto t x).GenericWaits := by
  intro u e hu
  by_cases hut : u = t
  · subst hut
    simp only [ProcessTable.goto, Function.update_self] at hu
    exact absurd hu (hx e)
  · simp only [ProcessTable.goto, Function.update_of_ne hut] at hu
    have howner : (s.goto t x).owner u = s.owner u := by cases u <;> rfl
    rw [howner]
    exact hg u e hu

/-- A section of `waitpid`. -/
theorem GenericWaits.waited (hg : s.GenericWaits) (hw : s.Waited t s') : s'.GenericWaits := by
  intro u e hu
  cases hw with
  | stay => exact hg u e hu
  | goto waitCount x hx =>
    have howner : ({ s with waitCount := waitCount }.goto t x).owner u = s.owner u := by cases u <;> rfl
    rw [howner]
    by_cases hut : u = t
    · subst hut
      simp only [ProcessTable.goto, Function.update_self] at hu
      exact hx e hu
    · simp only [ProcessTable.goto, Function.update_of_ne hut] at hu
      exact hg u e hu
  | reap waitCount zombies joined e' hz hsub =>
    have howner : ({ s with waitCount := waitCount, zombies := zombies }.reap t joined e').owner u = s.owner u := by
      cases u <;> rfl
    rw [howner]
    by_cases hut : u = t
    · subst hut
      simp [ProcessTable.reap] at hu
    · simp only [ProcessTable.reap, Function.update_of_ne hut] at hu
      obtain ⟨hzombies, hchilds⟩ := hg u e hu
      refine ⟨List.eq_nil_of_subset_nil ?_, hchilds⟩
      have := hsub (s.owner u)
      rwa [hzombies] at this

/-- A new process. -/
theorem GenericWaits.added (hg : s.GenericWaits) (h : s.Inv) {pid pidCounter : ℤ} (hnew : proc ∉ s.created) :
    (s.added t proc pid pidCounter).GenericWaits := by
  intro u e hu
  have howner : (s.added t proc pid pidCounter).owner u = s.owner u := by cases u <;> rfl
  rw [howner]
  by_cases hup : u = .process proc
  · subst hup
    simp [ProcessTable.added] at hu
  · have hpt : s.point u = .generic e false := (Function.update_of_ne hup _ _).symm.trans hu
    have hne : s.owner u ≠ proc := h.ne_of_live hnew (h.owner u (by simp [hpt]) (by simp [hpt])).1
    obtain ⟨hzombies, hchilds⟩ := hg u e hpt
    refine ⟨(Function.update_of_ne hne _ _).trans hzombies, ?_⟩
    by_cases hut : s.owner u = s.owner t
    · simp [ProcessTable.added, hut]
    · simpa [ProcessTable.added, hut, hne] using hchilds

omit [DecidableEq K] in
/-- A process is taken back. -/
theorem GenericWaits.withdrawn_iff (hg : s.GenericWaits) (h : s.Inv) (hn : s.New t proc) :
    (s.withdrawn (s.owner t) proc).GenericWaits ↔ s.Spared (s.owner t) proc := by
  have hchilds : ∀ q, s.live q = true →
      ((s.withdrawn (s.owner t) proc).childs q ≠ [] ↔ ∃ c ∈ s.childs q, c ≠ proc) := by
    intro q hq
    rw [ne_eq, List.eq_nil_iff_forall_not_mem, not_forall]
    simp only [not_not, mem_withdrawn_childs h hn hq]
    exact exists_congr fun c => and_comm
  have howner : ∀ u, (s.withdrawn (s.owner t) proc).owner u = s.owner u := fun u => by cases u <;> rfl
  have hlive : ∀ u e, s.point u = .generic e false → s.live (s.owner u) = true :=
    fun u e hu => (h.owner u (by simp [hu]) (by simp [hu])).1
  constructor
  · intro hg' u e hu heq
    obtain ⟨-, hne⟩ := hg' u e hu
    rw [howner, hchilds _ (hlive u e hu), heq] at hne
    exact hne
  · intro hsp u e hu
    rw [howner, hchilds _ (hlive u e hu)]
    obtain ⟨hzombies, hne⟩ := hg u e hu
    refine ⟨hzombies, ?_⟩
    by_cases heq : s.owner u = s.owner t
    · rw [heq]
      exact hsp u e hu heq
    · obtain ⟨c, hc⟩ := List.exists_mem_of_ne_nil _ hne
      refine ⟨c, hc, ?_⟩
      rintro rfl
      have hcu := ((h.mem_childs _ c (hlive u e hu)).mp hc).1
      exact heq (h.eq_of_pid_eq (hlive u e hu) (h.owner_live hn.active) (hcu.2.2.symm.trans hn.isChild.2.2))

/-- The end of a process that somebody waits for by its pid wakes none of the others. -/
theorem Ending.point_generic_iff (h : s.Ending proc parent) {e : Bool} :
    (s.ended proc parent exitCode).point u = .generic e false ↔
      0 < s.waitCount proc ∧ s.point u = .generic e false := by
  by_cases hu : u = .process proc
  · subst hu
    rw [Ending.point_proc, h.running]
    simp
  · simp only [ended, Function.update_of_ne hu]
    by_cases hw : s.waitCount proc > 0
    · rw [if_pos hw]
      cases s.point u <;> simp [wakeSpecific, hw]
    · rw [if_neg hw]
      cases s.point u <;> simp [wakeGeneric, hw]

/-- A process ends. -/
theorem GenericWaits.ended_iff (hg : s.GenericWaits) (h : s.Ending proc parent) :
    (s.ended proc parent exitCode).GenericWaits ↔ s.Heard proc := by
  have howner : ∀ u, (s.ended proc parent exitCode).owner u = s.owner u := fun u => by cases u <;> rfl
  -- what a thread that sleeps finds
  have hmain : ∀ u e, 0 < s.waitCount proc → s.point u = .generic e false →
      ((s.ended proc parent exitCode).zombies (s.owner u) = [] ↔ (s.owner u = s.kernel → s.zombies proc = [])) ∧
      ((s.ended proc parent exitCode).childs (s.owner u) ≠ [] ↔
        (s.pid (s.owner u) = s.ppid proc → ∃ c, s.Remains proc (s.owner u) c)) := by
    intro u e hw hu
    have hlive : s.live (s.owner u) = true := (h.inv.owner u (by simp [hu]) (by simp [hu])).1
    have hne : s.owner u ≠ proc := by
      intro heq
      cases u with
      | kernel k => exact h.ne_kernel heq.symm
      | process x =>
        obtain rfl : x = proc := heq
        cases h.running.symm.trans hu
    obtain ⟨hzombies, hchilds⟩ := hg u e hu
    constructor
    · rw [List.eq_nil_iff_forall_not_mem, List.eq_nil_iff_forall_not_mem]
      have hw' : s.waitCount proc ≠ 0 := by omega
      simp only [h.mem_zombies_iff, hne, hzombies, hw', ne_eq, not_false_eq_true, true_and,
        List.not_mem_nil, and_false, or_false, false_or, not_and]
      exact forall_comm
    · have hmem : (s.ended proc parent exitCode).childs (s.owner u) ≠ [] ↔ ∃ c, s.Remains proc (s.owner u) c := by
        rw [ne_eq, List.eq_nil_iff_forall_not_mem, not_forall]
        simp only [not_not, h.mem_childs_iff hlive, Remains, hne, ne_eq, not_false_eq_true, true_and]
      rw [hmem]
      refine ⟨fun hr _ => hr, fun hr => ?_⟩
      by_cases hpid : s.pid (s.owner u) = s.ppid proc
      · exact hr hpid
      · obtain ⟨c, hc⟩ := List.exists_mem_of_ne_nil _ hchilds
        refine ⟨c, ?_, .inl hc⟩
        rintro rfl
        exact hpid ((h.inv.mem_childs _ c hlive).mp hc).1.2.2.symm
  constructor
  · intro hg' hw u e hu
    obtain ⟨hz, hc⟩ := hg' u e (h.point_generic_iff.mpr ⟨hw, hu⟩)
    rw [howner] at hz hc
    exact ⟨(hmain u e hw hu).1.mp hz, (hmain u e hw hu).2.mp hc⟩
  · intro hh u e hu
    obtain ⟨hw, hu⟩ := h.point_generic_iff.mp hu
    obtain ⟨hz, hc⟩ := hh hw u e hu
    rw [howner]
    exact ⟨(hmain u e hw hu).1.mpr hz, (hmain u e hw hu).2.mpr hc⟩

end ProcessTable

/-! ## Runs -/

namespace Processes

variable {K P : Type} [DecidableEq K] [DecidableEq P] {s s' : Processes K P}

/-- The steps that leave no thread asleep. A process that ends and that somebody waits for by its pid is heard
by the threads that wait for any child. Nobody waits for a process that is taken back by its pid, and no thread
that waits for any child loses its last child with it. -/
def Heeded (s : Processes K P) : ProcessesEvent K P → Prop
  | .threadFailed t => ∀ proc, s.creating t = some proc →
      (∀ u, ¬s.table.Waits u proc) ∧ s.table.Spared (s.table.owner t) proc
  | .exit proc _ => s.Free (.process proc) → s.table.Heard proc
  | _ => True

/-- The steps of a run, each in the state that it starts in. -/
def HeededRun (s : Processes K P) : List (ProcessesEvent K P) → Prop
  | [] => True
  | ev :: es => s.Heeded ev ∧ ∀ s', s.step ev = .ok s' → s'.HeededRun es

/-- **One step** leaves no thread asleep if and only if it is one of those, when nobody waits for a process that
is taken back. -/
theorem Inv.step_genericWaits_iff (h : s.Inv) (hg : s.table.GenericWaits) {ev : ProcessesEvent K P}
    (hev : s.Unwatched ev) (hstep : s.step ev = .ok s') : s'.table.GenericWaits ↔ s.Heeded ev := by
  cases ev with
  | create t proc fuel =>
    refine iff_of_true ?_ trivial
    simp only [step] at hstep
    split at hstep
    · rename_i hcan
      have hact : s.table.Active t := by simp [ProcessTable.Active, hcan.1.1]
      unfold create at hstep
      split at hstep
      · cases hstep
        exact hg
      · rename_i pid hpid
        rw [h.table.create_eq hact hpid] at hstep
        cases hstep
        exact (hg.added h.table hcan.2).goto (by simp)
    · cases hstep
      exact hg
  | threadCreated t =>
    refine iff_of_true ?_ trivial
    cases hstep
    unfold Processes.threadCreated
    split
    · exact hg
    · exact hg.goto (by simp)
  | threadFailed t =>
    simp only [step, threadFailed] at hstep
    cases ht : s.creating t with
    | none =>
      rw [ht] at hstep
      cases hstep
      exact iff_of_true hg fun proc hcon => by cases ht.symm.trans hcon
    | some proc =>
      have hn := h.creating t proc ht
      rw [ht] at hstep
      dsimp only at hstep
      rw [hn.createFailed_eq h.table] at hstep
      cases hstep
      refine (hg.withdrawn_iff h.table hn).trans ⟨fun hsp p hp => ?_, fun hh => (hh proc ht).2⟩
      obtain rfl := Option.some.inj (ht.symm.trans hp)
      exact ⟨hev proc ht, hsp⟩
  | waitpid t pid e nohang =>
    refine iff_of_true ?_ trivial
    simp only [step] at hstep
    split at hstep
    · obtain ⟨table, htable, hstep⟩ := bind_eq_ok hstep
      cases hstep
      exact hg.waited (h.table.waitpid_waited htable)
    · cases hstep
      exact hg
  | resume t =>
    obtain ⟨table, htable, hstep⟩ := bind_eq_ok hstep
    cases hstep
    exact iff_of_true (hg.waited (h.table.resume_waited htable)) trivial
  | exit proc exitCode =>
    simp only [step] at hstep
    split at hstep
    · rename_i hfree
      obtain ⟨parent, hend, hexit, -⟩ := h.exit_ok hfree exitCode
      obtain rfl := Except.ok.inj (hstep.symm.trans hexit)
      exact (hg.ended_iff hend).trans ⟨fun hh _ => hh, fun hh => hh hfree⟩
    · rename_i hfree
      cases hstep
      exact iff_of_true hg fun hcon => absurd hcon hfree

omit [DecidableEq K] [DecidableEq P] in
theorem Heeded.unwatched {ev : ProcessesEvent K P} (h : s.Heeded ev) : s.Unwatched ev := by
  cases ev with
  | threadFailed t => exact fun proc ht => (h proc ht).1
  | _ => exact trivial

theorem heededRun_cons {ev : ProcessesEvent K P} {es : List (ProcessesEvent K P)} (hstep : s.step ev = .ok s') :
    s.HeededRun (ev :: es) ↔ s.Heeded ev ∧ s'.HeededRun es := by
  refine and_congr_right fun _ => ⟨fun h => h s' hstep, fun h s'' hs'' => ?_⟩
  obtain rfl := Except.ok.inj (hstep.symm.trans hs'')
  exact h

omit [DecidableEq K] in
theorem inv_initial (kernel : P) : (initial K kernel).Inv where
  table := ProcessTable.inv_initial kernel
  creating t p h := by cases h
  unique t u p h := by cases h

theorem Inv.run_ok (h : s.Inv) (hg : s.table.GenericWaits) (es : List (ProcessesEvent K P)) (hes : s.HeededRun es) :
    ∃ s', s.run es = .ok s' ∧ s'.Inv ∧ s'.table.GenericWaits := by
  induction es generalizing s with
  | nil => exact ⟨s, rfl, h, hg⟩
  | cons ev es ih =>
    obtain ⟨hev, hes⟩ := hes
    obtain ⟨s₁, hstep, h₁⟩ := h.step_ok ev hev.unwatched
    obtain ⟨s', hrun, h'⟩ := ih h₁ ((h.step_genericWaits_iff hg hev.unwatched hstep).mpr hev) (hes s₁ hstep)
    exact ⟨s', by rw [run, hstep, ok_bind, hrun], h'⟩

/-- **No missed wakeup**, in every state that heeded steps lead to. -/
theorem run_noMissedWakeup (kernel : P) (es : List (ProcessesEvent K P)) (hes : (initial K kernel).HeededRun es) :
    ∃ s, (initial K kernel).run es = .ok s ∧ s.table.NoMissedWakeup := by
  have hg : (initial K kernel).table.GenericWaits := by
    intro t e ht
    cases t <;> cases ht
  obtain ⟨s, hrun, h, hg⟩ := (inv_initial (K := K) kernel).run_ok hg es hes
  exact ⟨s, hrun, h.table.noMissedWakeup hg⟩

/-- A process ends while a thread waits for any child. -/
theorem run_noMissedWakeup_generic : ∃ s, (initial ℕ 0).run [.create (.kernel 0) 1 5, .threadCreated (.kernel 0),
      .waitpid (.kernel 0) 0 true false, .exit 1 7] = .ok s ∧ s.table.NoMissedWakeup := by
  refine run_noMissedWakeup 0 _ ?_
  refine (heededRun_cons rfl).mpr ⟨trivial, (heededRun_cons rfl).mpr ⟨trivial, (heededRun_cons rfl).mpr ⟨trivial, ?_⟩⟩⟩
  refine (heededRun_cons rfl).mpr ⟨fun _ hw => absurd hw (by decide), trivial⟩

/-- One thread waits for any child, another one for the only child there is by its pid. -/
theorem exit_missed : ∃ s, (initial ℕ 0).run [.create (.kernel 0) 1 5, .threadCreated (.kernel 0),
      .waitpid (.kernel 0) 0 true false, .waitpid (.kernel 1) 1 true false, .exit 1 7] = .ok s ∧
    s.table.point (.kernel 0) = .generic true false ∧ s.table.childs (s.table.owner (.kernel 0)) = [] ∧
    ¬s.table.NoMissedWakeup := by
  refine ⟨_, rfl, by decide, by decide, fun h => ?_⟩
  exact (h.generic (.kernel 0) true (by decide)).2 (by decide)

end Processes

end Miosix
