import MiosixKernel.Process.Table

/-!
# The process table: the invariant

* `ProcessHappening.Allowed`: what must have happened to a process before it is returned or deleted;
* `Inv`: the lists, the table and the wait counters agree;
* `Inv.goto`, `Inv.create`, `Inv.startWait`, `Inv.leave`, `Inv.reap`, `Inv.exit`: the parts of the
  sections keep it.
-/

namespace Miosix

open Lib

/-- What must have happened before. A process exits once; one `waitpid` returns its exit code, and it is
deleted once. -/
def ProcessHappening.Allowed {K P : Type} (older : List (ProcessHappening K P)) :
    ProcessHappening K P → Prop
  | exited p _ => ∀ exitCode, .exited p exitCode ∉ older
  | returned _ p exitCode =>
    (∃ code, .exited p code ∈ older ∧ ∀ c, exitCode = some c → c = code) ∧
      ∀ t exitCode, .returned t p exitCode ∉ older
  | deleted p => .deleted p ∉ older ∧ ∃ t exitCode, .returned t p exitCode ∈ older

/-- A new pid is positive and not in use. -/
theorem getNewPid_spec {P : Type} {processes : ℤ → Option P} {fuel : ℕ} {pidCounter pid next : ℤ}
    (h : getNewPid processes fuel pidCounter = some (pid, next)) : 0 < pid ∧ processes pid = none := by
  induction fuel generalizing pidCounter with
  | zero => cases h
  | succ fuel ih =>
    rw [getNewPid] at h
    have hnonneg : 0 ≤ (if pidCounter < 0 then 1 else pidCounter) := by
      split <;> omega
    revert h hnonneg
    generalize (if pidCounter < 0 then 1 else pidCounter) = n
    intro h hnonneg
    by_cases hzero : n = 0
    · rw [if_pos hzero] at h
      exact ih h
    · rw [if_neg hzero] at h
      by_cases hused : (processes n).isSome = true
      · rw [if_pos hused] at h
        exact ih h
      · rw [if_neg hused] at h
        cases h
        exact ⟨by omega, by simpa using hused⟩

namespace ProcessTable

variable {K P : Type} {s : ProcessTable K P} {t u : Tid K P} {p q c joined : P} {e w : Bool}

/-- `c` is a process whose parent is `q`. -/
def IsChild (s : ProcessTable K P) (q c : P) : Prop :=
  s.live c = true ∧ c ≠ s.kernel ∧ s.ppid c = s.pid q

def Waits (s : ProcessTable K P) (t : Tid K P) (p : P) : Prop :=
  ∃ e w, s.point t = .specific p e w

/-- The invariant of the table. -/
structure Inv (s : ProcessTable K P) : Prop where
  kernel_live : s.live s.kernel = true
  kernel_pid : s.pid s.kernel = 0
  kernel_ppid : s.ppid s.kernel = 0
  kernel_zombie : s.zombie s.kernel = false
  kernel_absent : s.point (.process s.kernel) = .absent
  processes_iff : ∀ n p, s.processes n = some p ↔ s.live p = true ∧ s.pid p = n
  pid_pos : ∀ p, s.live p = true → p ≠ s.kernel → 0 < s.pid p
  ppid_ne : ∀ p, s.live p = true → p ≠ s.kernel → s.ppid p ≠ s.pid p
  parent : ∀ p, s.live p = true → ∃ q, s.live q = true ∧ s.zombie q = false ∧ s.pid q = s.ppid p
  childs_nodup : ∀ q, s.live q = true → (s.childs q).Nodup
  mem_childs : ∀ q c, s.live q = true → (c ∈ s.childs q ↔ s.IsChild q c ∧ s.zombie c = false)
  zombies_nodup : ∀ q, s.live q = true → (s.zombies q).Nodup
  mem_zombies : ∀ q c, s.live q = true →
    (c ∈ s.zombies q ↔ s.IsChild q c ∧ s.zombie c = true ∧ s.waitCount c = 0)
  waiters : ∀ p, s.live p = true →
    ∃ l : List (Tid K P), l.Nodup ∧ (∀ t, t ∈ l ↔ s.Waits t p) ∧ s.waitCount p = l.length
  specific : ∀ t p e w, s.point t = .specific p e w →
    s.IsChild (s.owner t) p ∧ (w = true ↔ s.zombie p = true)
  owner : ∀ t, s.point t ≠ .absent → s.point t ≠ .ended →
    s.live (s.owner t) = true ∧ s.zombie (s.owner t) = false
  live_mem : ∀ p, s.live p = true → p ∈ s.created
  absent : ∀ p, p ∉ s.created → s.point (.process p) = .absent
  lawful : Lawful ProcessHappening.Allowed s.history
  exited_mem : ∀ p code, .exited p code ∈ s.history → p ∈ s.created
  exited_iff : ∀ p, s.live p = true →
    ((∃ code, .exited p code ∈ s.history) ↔ s.zombie p = true)
  exitCode : ∀ p, s.live p = true → s.zombie p = true → .exited p (s.exitCode p) ∈ s.history
  deleted_iff : ∀ p, .deleted p ∈ s.history ↔ p ∈ s.created ∧ s.live p = false
  returned : ∀ t p code, .returned t p code ∈ s.history → .deleted p ∈ s.history

namespace Inv

theorem eq_of_pid_eq (h : s.Inv) (hp : s.live p = true) (hq : s.live q = true)
    (heq : s.pid p = s.pid q) : p = q := by
  have h₁ := (h.processes_iff _ p).mpr ⟨hp, heq⟩
  have h₂ := (h.processes_iff _ q).mpr ⟨hq, rfl⟩
  exact Option.some_inj.mp (h₁.symm.trans h₂)

theorem waitCount_nonneg (h : s.Inv) (hp : s.live p = true) : 0 ≤ s.waitCount p := by
  obtain ⟨l, -, -, hl⟩ := h.waiters p hp
  omega

/-- Somebody waits when the counter says so. -/
theorem waitCount_eq_zero (h : s.Inv) (hp : s.live p = true) :
    s.waitCount p = 0 ↔ ∀ t, ¬s.Waits t p := by
  obtain ⟨l, -, hmem, hl⟩ := h.waiters p hp
  rw [hl, Int.natCast_eq_zero, List.length_eq_zero_iff, List.eq_nil_iff_forall_not_mem]
  simp only [hmem]

end Inv

/-! ## The parts of the sections -/

section Points

variable [DecidableEq K] [DecidableEq P] {x : WaitPoint P}

/-- A thread that is at work. -/
def Active (s : ProcessTable K P) (t : Tid K P) : Prop :=
  s.point t ≠ .absent ∧ s.point t ≠ .ended

theorem Inv.kernel_absent_update (h : s.Inv) (ht : s.Active t) (x : WaitPoint P) :
    Function.update s.point t x (.process s.kernel) = .absent := by
  rw [Function.update_of_ne]
  · exact h.kernel_absent
  · rintro rfl
    exact ht.1 h.kernel_absent

theorem Inv.absent_update (h : s.Inv) (ht : s.Active t) (x : WaitPoint P) (hp : p ∉ s.created) :
    Function.update s.point t x (.process p) = .absent := by
  rw [Function.update_of_ne]
  · exact h.absent p hp
  · rintro rfl
    exact ht.1 (h.absent p hp)

/-- The owners of the threads at work, when one that is at work moves. -/
theorem Inv.owner_update (h : s.Inv) (ht : s.Active t) (hu : Function.update s.point t x u ≠ .absent)
    (hu' : Function.update s.point t x u ≠ .ended) :
    s.live (s.owner u) = true ∧ s.zombie (s.owner u) = false := by
  by_cases hut : u = t
  · subst hut
    exact h.owner u ht.1 ht.2
  · rw [Function.update_of_ne hut] at hu hu'
    exact h.owner u hu hu'

/-- A thread that does not wait for a child moves on, and still does not. -/
theorem Inv.goto (h : s.Inv) (ht : s.Active t) (hno : ∀ p, ¬s.Waits t p)
    (hx : ∀ p e w, x ≠ .specific p e w) : (s.goto t x).Inv := by
  have hspec : ∀ u p e w, (s.goto t x).point u = .specific p e w ↔ s.point u = .specific p e w := by
    intro u p e w
    by_cases hu : u = t
    · subst hu
      refine iff_of_false ?_ fun hcon => hno p ⟨e, w, hcon⟩
      simp only [ProcessTable.goto, Function.update_self]
      exact hx p e w
    · simp only [ProcessTable.goto, Function.update_of_ne hu]
  refine { h with
    kernel_absent := h.kernel_absent_update ht x
    waiters := fun p hp => ?_
    specific := fun u p e w hu => h.specific u p e w ((hspec u p e w).mp hu)
    owner := fun u hu hu' => h.owner_update ht hu hu'
    absent := fun p hp => h.absent_update ht x hp }
  obtain ⟨l, hnd, hmem, hlen⟩ := h.waiters p hp
  refine ⟨l, hnd, fun u => ?_, hlen⟩
  simp only [hmem, Waits, hspec]

/-- A thread starts to wait for a child that is not a zombie. -/
theorem Inv.startWait (h : s.Inv) (ht : s.point t = .running) (hc : s.IsChild (s.owner t) joined)
    (hz : s.zombie joined = false) (e : Bool) :
    ({ s with waitCount := Function.update s.waitCount joined (s.waitCount joined + 1) }.goto t
      (.specific joined e false)).Inv := by
  have hact : s.Active t := by simp [Active, ht]
  have hwc : ∀ p, p ≠ joined →
      Function.update s.waitCount joined (s.waitCount joined + 1) p = s.waitCount p :=
    fun p hp => Function.update_of_ne hp _ _
  refine { h with
    kernel_absent := h.kernel_absent_update hact _
    mem_zombies := fun q c hq => ?_
    waiters := fun p hp => ?_
    specific := fun u p e w hu => ?_
    owner := fun u hu hu' => h.owner_update hact hu hu'
    absent := fun p hp => h.absent_update hact _ hp }
  · have := h.mem_zombies q c hq
    by_cases hcj : c = joined
    · subst hcj
      simp only [hz, Bool.false_eq_true, false_and, and_false, iff_false] at this
      refine iff_of_false this ?_
      rintro ⟨-, hcon, -⟩
      rw [show s.zombie c = true from hcon] at hz
      cases hz
    · simp only [ProcessTable.goto, hwc c hcj]
      exact this
  · obtain ⟨l, hnd, hmem, hlen⟩ := h.waiters p hp
    by_cases hpj : p = joined
    · subst hpj
      refine ⟨t :: l, List.nodup_cons.mpr ⟨?_, hnd⟩, fun u => ?_, ?_⟩
      · rw [hmem]
        rintro ⟨e, w, hcon⟩
        rw [ht] at hcon
        cases hcon
      · by_cases hut : u = t
        · subst hut
          simp [Waits, ProcessTable.goto]
        · simp [Waits, ProcessTable.goto, hut, hmem]
      · simp [ProcessTable.goto, hlen]
    · refine ⟨l, hnd, fun u => ?_, by simp [ProcessTable.goto, hwc p hpj, hlen]⟩
      by_cases hut : u = t
      · subst hut
        simp [hmem, Waits, ProcessTable.goto, ht, Ne.symm hpj]
      · simp [hmem, Waits, ProcessTable.goto, hut]
  · by_cases hut : u = t
    · subst hut
      simp only [ProcessTable.goto, Function.update_self, WaitPoint.specific.injEq] at hu
      obtain ⟨rfl, -, rfl⟩ := hu
      exact ⟨hc, by simp [ProcessTable.goto, hz]⟩
    · simp only [ProcessTable.goto, Function.update_of_ne hut] at hu
      exact h.specific u p e w hu

/-- A thread stops waiting for a child, and is not the last one. -/
theorem Inv.leave (h : s.Inv) (ht : s.point t = .specific joined e w)
    (hmore : s.waitCount joined - 1 ≠ 0) :
    ({ s with waitCount := Function.update s.waitCount joined (s.waitCount joined - 1) }.goto t
      .running).Inv := by
  have hact : s.Active t := by simp [Active, ht]
  have hlive : s.live joined = true := (h.specific t joined e w ht).1.1
  have hwc : ∀ p, p ≠ joined →
      Function.update s.waitCount joined (s.waitCount joined - 1) p = s.waitCount p :=
    fun p hp => Function.update_of_ne hp _ _
  refine { h with
    kernel_absent := h.kernel_absent_update hact _
    mem_zombies := fun q c hq => ?_
    waiters := fun p hp => ?_
    specific := fun u p e w hu => ?_
    owner := fun u hu hu' => h.owner_update hact hu hu'
    absent := fun p hp => h.absent_update hact _ hp }
  · have := h.mem_zombies q c hq
    by_cases hcj : c = joined
    · subst hcj
      have hpos : s.waitCount c ≠ 0 := fun hcon =>
        (h.waitCount_eq_zero hlive).mp hcon t ⟨e, w, ht⟩
      refine iff_of_false (fun hcon => hpos (this.mp hcon).2.2) ?_
      rintro ⟨-, -, hcon⟩
      simp only [ProcessTable.goto, Function.update_self] at hcon
      exact hmore hcon
    · simp only [ProcessTable.goto, hwc c hcj]
      exact this
  · obtain ⟨l, hnd, hmem, hlen⟩ := h.waiters p hp
    by_cases hpj : p = joined
    · subst hpj
      have htl : t ∈ l := (hmem t).mpr ⟨e, w, ht⟩
      refine ⟨l.erase t, hnd.erase t, fun u => ?_, ?_⟩
      · rw [hnd.mem_erase_iff, hmem]
        by_cases hut : u = t
        · subst hut
          simp [Waits, ProcessTable.goto]
        · simp [Waits, ProcessTable.goto, hut]
      · have := List.length_pos_of_mem htl
        simp only [ProcessTable.goto, Function.update_self, List.length_erase_of_mem htl, hlen]
        omega
    · refine ⟨l, hnd, fun u => ?_, by simp [ProcessTable.goto, hwc p hpj, hlen]⟩
      by_cases hut : u = t
      · subst hut
        simp [hmem, Waits, ProcessTable.goto, ht, Ne.symm hpj]
      · simp [hmem, Waits, ProcessTable.goto, hut]
  · by_cases hut : u = t
    · subst hut
      simp [ProcessTable.goto] at hu
    · simp only [ProcessTable.goto, Function.update_of_ne hut] at hu
      exact h.specific u p e w hu

/-- Reaping a zombie that no other thread waits for. -/
theorem Inv.reap (h : s.Inv) (hact : s.Active t) (hc : s.IsChild (s.owner t) joined)
    (hz : s.zombie joined = true) (hwait : ∀ u, s.Waits u joined → u = t)
    (hself : ∀ p, s.Waits t p → p = joined) (n : ℤ) (e : Bool) :
    ({ s with
        waitCount := Function.update s.waitCount joined n
        zombies := Function.update s.zombies (s.owner t)
          ((s.zombies (s.owner t)).filter (· ≠ joined)) }.reap t joined e).Inv := by
  obtain ⟨hlive, hker, hppid⟩ := hc
  have hown := h.owner t hact.1 hact.2
  set s' := { s with
    waitCount := Function.update s.waitCount joined n
    zombies := Function.update s.zombies (s.owner t)
      ((s.zombies (s.owner t)).filter (· ≠ joined)) }.reap t joined e with hs'
  have hlive' : ∀ p, s'.live p = true ↔ p ≠ joined ∧ s.live p = true := fun p => by
    by_cases hp : p = joined <;> simp [hs', ProcessTable.reap, hp]
  have hpoint : s'.point = Function.update s.point t .running := rfl
  have howner : ∀ u, s'.owner u = s.owner u := fun u => by cases u <;> rfl
  have hchild : ∀ q c, s'.IsChild q c ↔ c ≠ joined ∧ s.IsChild q c := fun q c => by
    simp only [IsChild, hlive']
    exact and_assoc
  have hspec : ∀ u p e w, s'.point u = .specific p e w → p ≠ joined ∧ s.point u = .specific p e w := by
    intro u p e w hu
    rw [hpoint] at hu
    by_cases hut : u = t
    · rw [hut, Function.update_self] at hu
      cases hu
    · rw [Function.update_of_ne hut] at hu
      refine ⟨?_, hu⟩
      rintro rfl
      exact hut (hwait u ⟨e, w, hu⟩)
  have hwaits : ∀ u p, p ≠ joined → (s'.Waits u p ↔ s.Waits u p) := by
    intro u p hp
    constructor
    · rintro ⟨e, w, hu⟩
      exact ⟨e, w, (hspec u p e w hu).2⟩
    · rintro ⟨e, w, hu⟩
      refine ⟨e, w, ?_⟩
      rw [hpoint, Function.update_of_ne]
      · exact hu
      · rintro rfl
        exact hp (hself p ⟨e, w, hu⟩)
  have hexited : ∀ p code, .exited p code ∈ s'.history ↔ .exited p code ∈ s.history := fun p code => by
    simp [hs', ProcessTable.reap]
  have hdeleted : ∀ p, .deleted p ∈ s'.history ↔ p = joined ∨ .deleted p ∈ s.history := fun p => by
    simp [hs', ProcessTable.reap]
  have hnot : .deleted joined ∉ s.history := by
    rw [h.deleted_iff, hlive]
    simp
  refine {
    kernel_live := (hlive' _).mpr ⟨Ne.symm hker, h.kernel_live⟩
    kernel_pid := h.kernel_pid
    kernel_ppid := h.kernel_ppid
    kernel_zombie := h.kernel_zombie
    kernel_absent := h.kernel_absent_update hact _
    processes_iff := fun k p => ?_
    pid_pos := fun p hp => h.pid_pos p ((hlive' p).mp hp).2
    ppid_ne := fun p hp => h.ppid_ne p ((hlive' p).mp hp).2
    parent := fun p hp => ?_
    childs_nodup := fun q hq => h.childs_nodup q ((hlive' q).mp hq).2
    mem_childs := fun q c hq => ?_
    zombies_nodup := fun q hq => ?_
    mem_zombies := fun q c hq => ?_
    waiters := fun p hp => ?_
    specific := fun u p e w hu => ?_
    owner := fun u hu hu' => ?_
    live_mem := fun p hp => h.live_mem p ((hlive' p).mp hp).2
    absent := fun p hp => h.absent_update hact _ hp
    lawful := ⟨⟨?_, t, _, List.mem_cons_self⟩, ⟨⟨_, h.exitCode joined hlive hz, ?_⟩, ?_⟩, h.lawful⟩
    exited_mem := fun p code hp => h.exited_mem p code ((hexited p code).mp hp)
    exited_iff := fun p hp => ?_
    exitCode := fun p hp hzp => (hexited _ _).mpr (h.exitCode p ((hlive' p).mp hp).2 hzp)
    deleted_iff := fun p => ?_
    returned := fun u p code hp => ?_ }
  · have hproc : s'.processes = Function.update s.processes (s.pid joined) none := rfl
    rw [hproc, hlive']
    by_cases hk : k = s.pid joined
    · rw [hk, Function.update_self]
      refine iff_of_false (by simp) ?_
      rintro ⟨⟨hne, hp⟩, hpid⟩
      exact hne (h.eq_of_pid_eq hp hlive hpid)
    · rw [Function.update_of_ne hk, h.processes_iff]
      constructor
      · rintro ⟨hp, hpid⟩
        refine ⟨⟨?_, hp⟩, hpid⟩
        rintro rfl
        exact hk hpid.symm
      · rintro ⟨⟨-, hp⟩, hpid⟩
        exact ⟨hp, hpid⟩
  · obtain ⟨q, hq, hqz, hpid⟩ := h.parent p ((hlive' p).mp hp).2
    refine ⟨q, (hlive' q).mpr ⟨?_, hq⟩, hqz, hpid⟩
    rintro rfl
    rw [hz] at hqz
    cases hqz
  · rw [hchild]
    refine (h.mem_childs q c ((hlive' q).mp hq).2).trans ⟨?_, ?_⟩
    · rintro ⟨hcc, hcz⟩
      refine ⟨⟨?_, hcc⟩, hcz⟩
      rintro rfl
      rw [hz] at hcz
      cases hcz
    · rintro ⟨⟨-, hcc⟩, hcz⟩
      exact ⟨hcc, hcz⟩
  · have hnd := h.zombies_nodup q ((hlive' q).mp hq).2
    by_cases hqo : q = s.owner t
    · subst hqo
      simpa [hs', ProcessTable.reap] using hnd.filter _
    · simpa [hs', ProcessTable.reap, hqo] using hnd
  · have hmem := h.mem_zombies q c ((hlive' q).mp hq).2
    have hwc : c ≠ joined → s'.waitCount c = s.waitCount c := fun hcj => Function.update_of_ne hcj _ _
    have hzq : c ∈ s'.zombies q ↔ c ≠ joined ∧ c ∈ s.zombies q := by
      by_cases hqo : q = s.owner t
      · subst hqo
        simp [hs', ProcessTable.reap, and_comm]
      · have hno : c ∈ s.zombies q → c ≠ joined := by
          rintro hcq rfl
          have hcc := (hmem.mp hcq).1
          exact hqo (h.eq_of_pid_eq ((hlive' q).mp hq).2 hown.1 (hcc.2.2.symm.trans hppid))
        simpa [hs', ProcessTable.reap, hqo] using hno
    rw [hzq, hchild, hmem]
    constructor
    · rintro ⟨hcj, hcc, hcz, hcw⟩
      exact ⟨⟨hcj, hcc⟩, hcz, (hwc hcj).trans hcw⟩
    · rintro ⟨⟨hcj, hcc⟩, hcz, hcw⟩
      exact ⟨hcj, hcc, hcz, (hwc hcj).symm.trans hcw⟩
  · obtain ⟨hpj, hpl⟩ := (hlive' p).mp hp
    obtain ⟨l, hnd, hmem, hlen⟩ := h.waiters p hpl
    refine ⟨l, hnd, fun u => ?_, ?_⟩
    · rw [hmem, hwaits u p hpj]
    · exact (Function.update_of_ne hpj _ _).trans hlen
  · obtain ⟨hpj, hu⟩ := hspec u p e w hu
    obtain ⟨hcc, hcz⟩ := h.specific u p e w hu
    rw [howner]
    exact ⟨(hchild _ _).mpr ⟨hpj, hcc⟩, hcz⟩
  · obtain ⟨hol, hoz⟩ := h.owner_update hact hu hu'
    rw [howner]
    refine ⟨(hlive' _).mpr ⟨?_, hol⟩, hoz⟩
    intro hcon
    rw [hcon, hz] at hoz
    cases hoz
  · simpa using hnot
  · intro c hcode
    revert hcode
    cases e <;> simp [eq_comm]
  · exact fun u code hcon => hnot (h.returned u joined code hcon)
  · simp only [hexited]
    exact h.exited_iff p ((hlive' p).mp hp).2
  · rw [hdeleted, h.deleted_iff]
    have hlf : s'.live p = false ↔ p = joined ∨ s.live p = false := by
      rw [← Bool.not_eq_true, hlive', not_and_or, not_not, Bool.not_eq_true]
    have hcr : s'.created = s.created := rfl
    rw [hlf, hcr]
    constructor
    · rintro (rfl | ⟨hp, hf⟩)
      · exact ⟨h.live_mem p hlive, .inl rfl⟩
      · exact ⟨hp, .inr hf⟩
    · rintro ⟨hp, rfl | hf⟩
      · exact .inl rfl
      · exact .inr ⟨hp, hf⟩
  · rw [hdeleted]
    have hcases : p = joined ∨ .returned u p code ∈ s.history := by
      simp only [hs', ProcessTable.reap, List.mem_cons, reduceCtorEq, false_or,
        ProcessHappening.returned.injEq] at hp
      rcases hp with ⟨-, rfl, -⟩ | hp
      · exact .inl rfl
      · exact .inr hp
    exact hcases.imp_right (h.returned u p code)

/-- The table with a new process. -/
def added (s : ProcessTable K P) (t : Tid K P) (proc : P) (pid pidCounter : ℤ) : ProcessTable K P :=
  { s with
    live := Function.update s.live proc true
    pid := Function.update s.pid proc pid
    ppid := Function.update s.ppid proc (s.pid (s.owner t))
    childs := Function.update (Function.update s.childs proc []) (s.owner t)
      (s.childs (s.owner t) ++ [proc])
    zombies := Function.update s.zombies proc []
    waitCount := Function.update s.waitCount proc 0
    zombie := Function.update s.zombie proc false
    exitCode := Function.update s.exitCode proc 0
    processes := Function.update s.processes pid (some proc)
    pidCounter := pidCounter
    point := Function.update s.point (.process proc) .running
    created := proc :: s.created }

theorem added_live_iff (s : ProcessTable K P) {proc : P} {pid pidCounter : ℤ} :
    (s.added t proc pid pidCounter).live p = true ↔ p = proc ∨ s.live p = true := by
  by_cases hp : p = proc <;> simp [ProcessTable.added, hp]

omit [DecidableEq K] [DecidableEq P] in
theorem Inv.ne_of_live (h : s.Inv) {proc : P} (hnew : proc ∉ s.created) (hp : s.live p = true) : p ≠ proc := by
  rintro rfl
  exact hnew (h.live_mem p hp)

/-- The children of the processes there were. -/
theorem Inv.added_isChild (h : s.Inv) {proc : P} {pid pidCounter : ℤ} (hact : s.Active t)
    (hnew : proc ∉ s.created) (hq : s.live q = true) :
    (s.added t proc pid pidCounter).IsChild q c ↔ s.IsChild q c ∨ c = proc ∧ q = s.owner t := by
  have hown := h.owner t hact.1 hact.2
  have hpid : (s.added t proc pid pidCounter).pid q = s.pid q :=
    Function.update_of_ne (h.ne_of_live hnew hq) _ _
  have hkernel : (s.added t proc pid pidCounter).kernel = s.kernel := rfl
  simp only [IsChild, added_live_iff, hkernel, hpid]
  by_cases hc : c = proc
  · subst hc
    have hppid : (s.added t c pid pidCounter).ppid c = s.pid (s.owner t) := Function.update_self _ _ _
    rw [hppid]
    constructor
    · rintro ⟨-, -, heq⟩
      exact .inr ⟨rfl, h.eq_of_pid_eq hq hown.1 heq.symm⟩
    · rintro (⟨hcl, -⟩ | ⟨-, rfl⟩)
      · exact absurd rfl (h.ne_of_live hnew hcl)
      · exact ⟨.inl rfl, (h.ne_of_live hnew h.kernel_live).symm, rfl⟩
  · have hppid : (s.added t proc pid pidCounter).ppid c = s.ppid c := Function.update_of_ne hc _ _
    rw [hppid]
    simp [hc]

/-- A new process has no child. -/
theorem Inv.added_childless (h : s.Inv) {proc : P} {pid pidCounter : ℤ} (hact : s.Active t)
    (hfree : s.processes pid = none) : ¬(s.added t proc pid pidCounter).IsChild proc c := by
  have hpid : ∀ p, s.live p = true → s.pid p ≠ pid := by
    intro p hp heq
    rw [(h.processes_iff pid p).mpr ⟨hp, heq⟩] at hfree
    cases hfree
  rintro ⟨hcl, -, hcp⟩
  have hnewpid : (s.added t proc pid pidCounter).pid proc = pid := Function.update_self _ _ _
  rw [hnewpid] at hcp
  by_cases hc : c = proc
  · have hppid : (s.added t proc pid pidCounter).ppid c = s.pid (s.owner t) := by
      simp [ProcessTable.added, hc]
    exact hpid _ (h.owner t hact.1 hact.2).1 (hppid.symm.trans hcp)
  · have hppid : (s.added t proc pid pidCounter).ppid c = s.ppid c := Function.update_of_ne hc _ _
    obtain ⟨q, hq, -, hqp⟩ := h.parent c (((added_live_iff s).mp hcl).resolve_left hc)
    exact hpid q hq (hqp.trans (hppid.symm.trans hcp))

/-- Creating a process with a pid that is not in use. -/
theorem Inv.added (h : s.Inv) {proc : P} {pid : ℤ} (pidCounter : ℤ) (hact : s.Active t)
    (hnew : proc ∉ s.created) (hpos : 0 < pid) (hfree : s.processes pid = none) :
    (s.added t proc pid pidCounter).Inv := by
  set s' := s.added t proc pid pidCounter with hs'
  have hnl : ∀ p, s.live p = true → p ≠ proc := fun p hp => h.ne_of_live hnew hp
  have hown := h.owner t hact.1 hact.2
  have hpar : s.owner t ≠ proc := hnl _ hown.1
  have hker : s.kernel ≠ proc := hnl _ h.kernel_live
  have hpid : ∀ p, s.live p = true → s.pid p ≠ pid := by
    intro p hp heq
    rw [(h.processes_iff pid p).mpr ⟨hp, heq⟩] at hfree
    cases hfree
  have hlive' : ∀ p, s'.live p = true ↔ p = proc ∨ s.live p = true := fun p => added_live_iff s
  have hpt : ∀ u, u ≠ .process proc → s'.point u = s.point u := fun u hu => Function.update_of_ne hu _ _
  have hptn : s'.point (.process proc) = .running := Function.update_self _ _ _
  have hold : ∀ p, p ≠ proc → s'.pid p = s.pid p ∧ s'.ppid p = s.ppid p ∧ s'.zombies p = s.zombies p ∧
      s'.waitCount p = s.waitCount p ∧ s'.zombie p = s.zombie p ∧ s'.exitCode p = s.exitCode p := by
    intro p hp
    simp [hs', ProcessTable.added, hp]
  have hnewf : s'.pid proc = pid ∧ s'.ppid proc = s.pid (s.owner t) ∧ s'.zombies proc = [] ∧
      s'.waitCount proc = 0 ∧ s'.zombie proc = false := by
    simp [hs', ProcessTable.added]
  have hchp : s'.childs proc = [] := by simp [hs', ProcessTable.added, hpar.symm]
  have hcho : s'.childs (s.owner t) = s.childs (s.owner t) ++ [proc] := Function.update_self _ _ _
  have hchq : ∀ q, q ≠ proc → q ≠ s.owner t → s'.childs q = s.childs q := fun q hq hqo => by
    simp [hs', ProcessTable.added, hq, hqo]
  have howner : ∀ u, s'.owner u = s.owner u := fun u => by cases u <;> rfl
  have hkernel : s'.kernel = s.kernel := rfl
  have hspec : ∀ u p e w, s'.point u = .specific p e w ↔ s.point u = .specific p e w := by
    intro u p e w
    by_cases hu : u = .process proc
    · rw [hu, hptn, h.absent proc hnew]
      simp
    · rw [hpt u hu]
  have hwaits : ∀ u p, s'.Waits u p ↔ s.Waits u p := fun u p => by simp only [Waits, hspec]
  have hchild : ∀ q c, s.live q = true → (s'.IsChild q c ↔ s.IsChild q c ∨ c = proc ∧ q = s.owner t) :=
    fun q c hq => h.added_isChild hact hnew hq
  have hnochild : ∀ c, ¬s'.IsChild proc c := fun c => h.added_childless hact hfree
  refine {
    kernel_live := (hlive' _).mpr (.inr h.kernel_live)
    kernel_pid := (hold _ hker).1.trans h.kernel_pid
    kernel_ppid := (hold _ hker).2.1.trans h.kernel_ppid
    kernel_zombie := (hold _ hker).2.2.2.2.1.trans h.kernel_zombie
    kernel_absent := (hpt _ (by simpa [hkernel] using hker)).trans h.kernel_absent
    processes_iff := fun k p => ?_
    pid_pos := fun p hp hpk => ?_
    ppid_ne := fun p hp hpk => ?_
    parent := fun p hp => ?_
    childs_nodup := fun q hq => ?_
    mem_childs := fun q c hq => ?_
    zombies_nodup := fun q hq => ?_
    mem_zombies := fun q c hq => ?_
    waiters := fun p hp => ?_
    specific := fun u p e w hu => ?_
    owner := fun u hu hu' => ?_
    live_mem := fun p hp => ?_
    absent := fun p hp => ?_
    lawful := h.lawful
    exited_mem := fun p code hp => List.mem_cons_of_mem _ (h.exited_mem p code hp)
    exited_iff := fun p hp => ?_
    exitCode := fun p hp hz => ?_
    deleted_iff := fun p => ?_
    returned := h.returned }
  · have hproc : s'.processes = Function.update s.processes pid (some proc) := rfl
    rw [hproc, hlive']
    by_cases hk : k = pid
    · subst hk
      rw [Function.update_self, Option.some_inj]
      constructor
      · rintro rfl
        exact ⟨.inl rfl, hnewf.1⟩
      · rintro ⟨rfl | hp, hpe⟩
        · rfl
        · rw [(hold p (hnl p hp)).1] at hpe
          exact absurd hpe (hpid p hp)
    · rw [Function.update_of_ne hk, h.processes_iff]
      by_cases hp : p = proc
      · subst hp
        rw [hnewf.1]
        exact iff_of_false (fun hcon => hnl p hcon.1 rfl) fun hcon => hk hcon.2.symm
      · rw [(hold p hp).1]
        simp [hp]
  · rcases (hlive' p).mp hp with rfl | hp
    · rw [hnewf.1]
      exact hpos
    · rw [(hold p (hnl p hp)).1]
      exact h.pid_pos p hp hpk
  · rcases (hlive' p).mp hp with rfl | hp
    · rw [hnewf.1, hnewf.2.1]
      exact hpid _ hown.1
    · rw [(hold p (hnl p hp)).1, (hold p (hnl p hp)).2.1]
      exact h.ppid_ne p hp hpk
  · have hlift : ∀ q, s.live q = true → s.zombie q = false →
        s'.live q = true ∧ s'.zombie q = false ∧ s'.pid q = s.pid q := fun q hq hqz =>
      ⟨(hlive' q).mpr (.inr hq), (hold q (hnl q hq)).2.2.2.2.1.trans hqz, (hold q (hnl q hq)).1⟩
    rcases (hlive' p).mp hp with rfl | hp
    · obtain ⟨h1, h2, h3⟩ := hlift _ hown.1 hown.2
      exact ⟨_, h1, h2, h3.trans hnewf.2.1.symm⟩
    · obtain ⟨q, hq, hqz, hqp⟩ := h.parent p hp
      obtain ⟨h1, h2, h3⟩ := hlift q hq hqz
      exact ⟨q, h1, h2, by rw [h3, hqp, (hold p (hnl p hp)).2.1]⟩
  · rcases (hlive' q).mp hq with rfl | hq
    · rw [hchp]
      exact List.nodup_nil
    · by_cases hqo : q = s.owner t
      · rw [hqo, hcho, List.nodup_append_comm]
        refine List.nodup_cons.mpr ⟨fun hcon => ?_, h.childs_nodup _ hown.1⟩
        exact hnl proc ((h.mem_childs _ _ hown.1).mp hcon).1.1 rfl
      · rw [hchq q (hnl q hq) hqo]
        exact h.childs_nodup q hq
  · rcases (hlive' q).mp hq with rfl | hq
    · simp [hchp, hnochild]
    · have hmem := h.mem_childs q c hq
      have hzc : s.IsChild q c → s'.zombie c = s.zombie c := fun hcc => (hold c (hnl c hcc.1)).2.2.2.2.1
      rw [hchild q c hq]
      by_cases hqo : q = s.owner t
      · subst hqo
        rw [hcho, List.mem_append, List.mem_singleton, hmem]
        constructor
        · rintro (⟨hcc, hcz⟩ | rfl)
          · exact ⟨.inl hcc, (hzc hcc).trans hcz⟩
          · exact ⟨.inr ⟨rfl, rfl⟩, hnewf.2.2.2.2⟩
        · rintro ⟨hcc | ⟨rfl, -⟩, hcz⟩
          · exact .inl ⟨hcc, (hzc hcc).symm.trans hcz⟩
          · exact .inr rfl
      · rw [hchq q (hnl q hq) hqo, hmem]
        simp only [hqo, and_false, or_false]
        exact and_congr_right fun hcc => by rw [hzc hcc]
  · rcases (hlive' q).mp hq with rfl | hq
    · rw [hnewf.2.2.1]
      exact List.nodup_nil
    · rw [(hold q (hnl q hq)).2.2.1]
      exact h.zombies_nodup q hq
  · rcases (hlive' q).mp hq with rfl | hq
    · simp [hnewf.2.2.1, hnochild]
    · rw [(hold q (hnl q hq)).2.2.1, hchild q c hq, h.mem_zombies q c hq]
      by_cases hc : c = proc
      · subst hc
        rw [hnewf.2.2.2.2]
        exact iff_of_false (fun hcon => hnl c hcon.1.1 rfl) (by simp)
      · rw [(hold c hc).2.2.2.1, (hold c hc).2.2.2.2.1]
        simp [hc]
  · rcases (hlive' p).mp hp with rfl | hp
    · refine ⟨[], List.nodup_nil, fun u => ?_, by simp [hnewf.2.2.2.1]⟩
      rw [hwaits]
      refine iff_of_false (by simp) ?_
      rintro ⟨e, w, hu⟩
      exact hnl p (h.specific u p e w hu).1.1 rfl
    · obtain ⟨l, hnd, hmem, hlen⟩ := h.waiters p hp
      exact ⟨l, hnd, fun u => by rw [hmem, hwaits], (hold p (hnl p hp)).2.2.2.1.trans hlen⟩
  · have hu := (hspec u p e w).mp hu
    obtain ⟨hcc, hcz⟩ := h.specific u p e w hu
    have hol := h.owner u (by simp [hu]) (by simp [hu])
    rw [howner, (hold p (hnl p hcc.1)).2.2.2.2.1]
    exact ⟨(hchild _ p hol.1).mpr (.inl hcc), hcz⟩
  · rw [howner]
    by_cases hup : u = .process proc
    · subst hup
      exact ⟨(hlive' _).mpr (.inl rfl), hnewf.2.2.2.2⟩
    · rw [hpt u hup] at hu hu'
      obtain ⟨hol, hoz⟩ := h.owner u hu hu'
      exact ⟨(hlive' _).mpr (.inr hol), (hold _ (hnl _ hol)).2.2.2.2.1.trans hoz⟩
  · rcases (hlive' p).mp hp with rfl | hp
    · exact List.mem_cons_self
    · exact List.mem_cons_of_mem _ (h.live_mem p hp)
  · have hpn : p ≠ proc ∧ p ∉ s.created := by simpa [hs', ProcessTable.added] using hp
    rw [hpt _ (by simpa using hpn.1)]
    exact h.absent p hpn.2
  · have hhist : s'.history = s.history := rfl
    rw [hhist]
    rcases (hlive' p).mp hp with rfl | hp
    · rw [hnewf.2.2.2.2]
      refine iff_of_false ?_ (by simp)
      rintro ⟨code, hcode⟩
      exact hnew (h.exited_mem p code hcode)
    · rw [(hold p (hnl p hp)).2.2.2.2.1]
      exact h.exited_iff p hp
  · rcases (hlive' p).mp hp with rfl | hp
    · rw [hnewf.2.2.2.2] at hz
      cases hz
    · rw [(hold p (hnl p hp)).2.2.2.2.1] at hz
      rw [(hold p (hnl p hp)).2.2.2.2.2]
      exact h.exitCode p hp hz
  · have hhist : s'.history = s.history := rfl
    have hlf : s'.live p = false ↔ p ≠ proc ∧ s.live p = false := by
      rw [← Bool.not_eq_true, hlive', not_or, Bool.not_eq_true]
    have hcr : p ∈ s'.created ↔ p = proc ∨ p ∈ s.created := List.mem_cons
    rw [hhist, h.deleted_iff, hlf, hcr]
    by_cases hp : p = proc
    · subst hp
      simp [hnew]
    · simp [hp]

omit [DecidableEq K] in
theorem orphan_eq {l : List P} (hl : ∀ c ∈ l, s.live c = true) :
    s.orphan l = .ok { s with ppid := fun c => if c ∈ l then 0 else s.ppid c } := by
  induction l generalizing s with
  | nil => simp [orphan]
  | cons c l ih =>
    have hc : s.check c = .ok () := by rw [check, hl c List.mem_cons_self]; rfl
    have hl' : ∀ d ∈ l, ({ s with ppid := Function.update s.ppid c 0 } : ProcessTable K P).live d = true :=
      fun d hd => hl d (List.mem_cons_of_mem _ hd)
    rw [orphan, hc, ok_bind, ih hl']
    have hppid : (fun d => if d ∈ l then 0 else Function.update s.ppid c 0 d) =
        fun d => if d ∈ c :: l then 0 else s.ppid d := by
      funext d
      by_cases hd : d = c
      · subst hd
        simp
      · simp [hd]
    simp only [hppid]

/-- The lists of children once `proc` ended: its own went to the kernel, and its parent lost it. -/
def childsAfter (s : ProcessTable K P) (proc parent : P) : P → List P :=
  let childs := (s.splice s.kernel proc).childs
  Function.update childs parent ((childs parent).filter (· ≠ proc))

/-- The lists of zombies once `proc` ended: it joins that of its parent if nobody waits for it. -/
def zombiesAfter (s : ProcessTable K P) (proc parent : P) : P → List P :=
  let zombies := (s.splice s.kernel proc).zombies
  if s.waitCount proc > 0 then zombies else Function.update zombies parent (zombies parent ++ [proc])

/-- The table once `proc` ended. -/
def ended (s : ProcessTable K P) (proc parent : P) (exitCode : ℤ) : ProcessTable K P :=
  { s with
    ppid := fun c => if c ∈ s.zombies proc then 0 else if c ∈ s.childs proc then 0 else s.ppid c
    childs := s.childsAfter proc parent
    zombies := s.zombiesAfter proc parent
    zombie := Function.update s.zombie proc true
    exitCode := Function.update s.exitCode proc exitCode
    point := fun t =>
      if s.waitCount proc > 0 then
        wakeSpecific proc (Function.update s.point (.process proc) .ended t)
      else wakeGeneric (Function.update s.point (.process proc) .ended t)
    history := .exited proc exitCode :: s.history }

omit [DecidableEq K] [DecidableEq P] in
/-- The parent of a process that is not the kernel. -/
theorem Inv.exists_parent (h : s.Inv) (hp : s.live p = true) (hk : p ≠ s.kernel) :
    ∃ q, s.live q = true ∧ s.zombie q = false ∧ s.pid q = s.ppid p ∧ q ≠ p := by
  obtain ⟨q, hq, hz, hpid⟩ := h.parent p hp
  refine ⟨q, hq, hz, hpid, ?_⟩
  rintro rfl
  exact h.ppid_ne q hq hk hpid.symm

theorem Inv.exit_eq (h : s.Inv) {proc parent : P} {exitCode : ℤ} (hlive : s.live proc = true)
    (hk : proc ≠ s.kernel) (hparent : s.live parent = true) (hpid : s.pid parent = s.ppid proc) :
    s.exit proc exitCode = .ok (s.ended proc parent exitCode) := by
  have hchild : ∀ c ∈ s.childs proc, s.IsChild proc c := fun c hc => ((h.mem_childs _ _ hlive).mp hc).1
  have hzombie : ∀ c ∈ s.zombies proc, s.IsChild proc c :=
    fun c hc => ((h.mem_zombies _ _ hlive).mp hc).1
  have hself : ¬s.IsChild proc proc := fun hcon => h.ppid_ne proc hlive hk hcon.2.2
  have hkernel : s.processes 0 = some s.kernel := (h.processes_iff 0 _).mpr ⟨h.kernel_live, h.kernel_pid⟩
  have hpp : s.processes (s.ppid proc) = some parent := (h.processes_iff _ _).mpr ⟨hparent, hpid⟩
  have hno : proc ∉ s.zombies proc ∧ proc ∉ s.childs proc :=
    ⟨fun hcon => hself (hzombie proc hcon), fun hcon => hself (hchild proc hcon)⟩
  have hcheck : s.check proc = .ok () := by rw [check, hlive]; rfl
  rw [ProcessTable.exit, hcheck, ok_bind]
  dsimp only
  rw [orphan_eq, ok_bind, orphan_eq, ok_bind]
  rotate_left
  · exact fun c hc => (hzombie c hc).1
  · exact fun c hc => (hchild c hc).1
  simp only [hkernel, check, h.kernel_live, hparent, splice, hno.1, hno.2, hpp, if_true, if_false,
    pure_eq_ok, ok_bind, ProcessTable.goto, ended, childsAfter, zombiesAfter]
  by_cases hw : s.waitCount proc > 0
  · simp [hw]
  · simp [hw]

end Points

/-! ## The end of a process -/

section Ended

variable [DecidableEq K] [DecidableEq P] {proc parent : P} {exitCode : ℤ}

/-- What is known when the last section of a process starts. -/
structure Ending (s : ProcessTable K P) (proc parent : P) : Prop where
  inv : s.Inv
  running : s.point (.process proc) = .running
  ne_kernel : proc ≠ s.kernel
  live : s.live proc = true
  not_zombie : s.zombie proc = false
  parent_live : s.live parent = true
  parent_not_zombie : s.zombie parent = false
  parent_pid : s.pid parent = s.ppid proc
  parent_ne : parent ≠ proc

omit [DecidableEq K] [DecidableEq P] in
theorem Inv.exists_ending (h : s.Inv) (hrun : s.point (.process proc) = .running) :
    ∃ parent, s.Ending proc parent := by
  obtain ⟨hlive, hz⟩ := h.owner (.process proc) (by simp [hrun]) (by simp [hrun])
  have hk : proc ≠ s.kernel := by
    rintro rfl
    rw [h.kernel_absent] at hrun
    cases hrun
  obtain ⟨q, hq, hqz, hpid, hne⟩ := h.exists_parent hlive hk
  exact ⟨q, h, hrun, hk, hlive, hz, hq, hqz, hpid, hne⟩

/-- The lists after those of `proc` were moved to the front of those of `k`. -/
theorem mem_spliced {f : P → List P} {k : P} (hk : proc ≠ k) :
    c ∈ Function.update (Function.update f k (f proc ++ f k)) proc [] q ↔
      q ≠ proc ∧ (c ∈ f q ∨ q = k ∧ c ∈ f proc) := by
  by_cases hqp : q = proc
  · simp [hqp]
  · by_cases hqk : q = k
    · subst hqk
      simp [hqp, or_comm]
    · simp [hqp, hqk]

theorem nodup_spliced {f : P → List P} {k : P} (hq : (f q).Nodup) (hp : (f proc).Nodup)
    (hdisj : ∀ c ∈ f proc, c ∉ f k) :
    (Function.update (Function.update f k (f proc ++ f k)) proc [] q).Nodup := by
  by_cases hqp : q = proc
  · simp [hqp]
  · by_cases hqk : q = k
    · subst hqk
      simpa [hqp] using hp.append hq hdisj
    · simpa [hqp, hqk] using hq

namespace Ending

omit [DecidableEq K] [DecidableEq P] in
/-- Nobody waits for the children of a process that ends: its thread is here. -/
theorem waitCount_child (h : s.Ending proc parent) (hc : s.IsChild proc c) : s.waitCount c = 0 := by
  rw [h.inv.waitCount_eq_zero hc.1]
  rintro t ⟨e, w, ht⟩
  obtain ⟨hchild, -⟩ := h.inv.specific t c e w ht
  have hown := h.inv.owner t (by simp [ht]) (by simp [ht])
  have heq := h.inv.eq_of_pid_eq hown.1 h.live (hchild.2.2.symm.trans hc.2.2)
  cases t with
  | kernel k => exact h.ne_kernel heq.symm
  | process p =>
    obtain rfl : p = proc := heq
    rw [h.running] at ht
    cases ht

omit [DecidableEq K] [DecidableEq P] in
/-- The lists of a process that ends have all its children. -/
theorem mem_lists (h : s.Ending proc parent) (c : P) :
    c ∈ s.zombies proc ∨ c ∈ s.childs proc ↔ s.IsChild proc c := by
  rw [h.inv.mem_zombies proc c h.live, h.inv.mem_childs proc c h.live]
  constructor
  · rintro (⟨hc, -⟩ | ⟨hc, -⟩) <;> exact hc
  · intro hc
    cases hz : s.zombie c with
    | true => exact .inl ⟨hc, rfl, h.waitCount_child hc⟩
    | false => exact .inr ⟨hc, rfl⟩

theorem ppid_of_child (h : s.Ending proc parent) (hc : s.IsChild proc c) :
    (s.ended proc parent exitCode).ppid c = 0 := by
  rcases (h.mem_lists c).mpr hc with hc | hc <;> simp [ended, hc]

theorem ppid_of_not (h : s.Ending proc parent) (hc : ¬s.IsChild proc c) :
    (s.ended proc parent exitCode).ppid c = s.ppid c := by
  rw [← h.mem_lists, not_or] at hc
  simp [ended, hc.1, hc.2]

/-- The children of a process that ends become those of the kernel. -/
theorem isChild_iff (h : s.Ending proc parent) (hq : s.live q = true) :
    (s.ended proc parent exitCode).IsChild q c ↔
      q ≠ proc ∧ (s.IsChild q c ∨ q = s.kernel ∧ s.IsChild proc c) := by
  have hpos := h.inv.pid_pos proc h.live h.ne_kernel
  by_cases hc : s.IsChild proc c
  · have hppid : (s.ended proc parent exitCode).IsChild q c ↔ s.pid q = 0 := by
      constructor
      · rintro ⟨-, -, hcp⟩
        exact hcp.symm.trans (h.ppid_of_child hc)
      · intro hz
        exact ⟨hc.1, hc.2.1, (h.ppid_of_child hc).trans hz.symm⟩
    rw [hppid]
    constructor
    · intro hz
      have hk := h.inv.eq_of_pid_eq hq h.inv.kernel_live (hz.trans h.inv.kernel_pid.symm)
      refine ⟨?_, .inr ⟨hk, hc⟩⟩
      rintro rfl
      omega
    · rintro ⟨hne, hqc | ⟨rfl, -⟩⟩
      · exact absurd (h.inv.eq_of_pid_eq hq h.live (hqc.2.2.symm.trans hc.2.2)) hne
      · exact h.inv.kernel_pid
  · have hppid : (s.ended proc parent exitCode).IsChild q c ↔ s.IsChild q c := by
      simp only [IsChild, h.ppid_of_not hc]
      rfl
    rw [hppid]
    constructor
    · intro hqc
      refine ⟨?_, .inl hqc⟩
      rintro rfl
      exact hc hqc
    · rintro ⟨-, hqc | ⟨-, hpc⟩⟩
      · exact hqc
      · exact absurd hpc hc

omit [DecidableEq K] [DecidableEq P] in
/-- A process is the child of one process only. -/
theorem child_unique (h : s.Ending proc parent) (hp : s.live p = true) (hq : s.live q = true)
    (hcp : s.IsChild p c) (hcq : s.IsChild q c) : p = q :=
  h.inv.eq_of_pid_eq hp hq (hcp.2.2.symm.trans hcq.2.2)

omit [DecidableEq K] [DecidableEq P] in
theorem isChild_parent (h : s.Ending proc parent) : s.IsChild parent proc :=
  ⟨h.live, h.ne_kernel, h.parent_pid.symm⟩

theorem mem_childs_iff (h : s.Ending proc parent) (hq : s.live q = true) :
    c ∈ (s.ended proc parent exitCode).childs q ↔
      c ≠ proc ∧ q ≠ proc ∧ (c ∈ s.childs q ∨ q = s.kernel ∧ c ∈ s.childs proc) := by
  have hspl := mem_spliced (f := s.childs) (c := c) (q := q) h.ne_kernel
  have hnot : c = proc → q ≠ proc → q ≠ parent →
      ¬(c ∈ s.childs q ∨ q = s.kernel ∧ c ∈ s.childs proc) := by
    rintro rfl hqp hqpar (hcon | ⟨-, hcon⟩)
    · exact hqpar (h.child_unique hq h.parent_live ((h.inv.mem_childs q c hq).mp hcon).1 h.isChild_parent)
    · exact h.inv.ppid_ne c h.live h.ne_kernel ((h.inv.mem_childs c c h.live).mp hcon).1.2.2
  by_cases hqpar : q = parent
  · have heq : (s.ended proc parent exitCode).childs q =
        ((s.splice s.kernel proc).childs q).filter (· ≠ proc) := by
      rw [hqpar]
      exact Function.update_self _ _ _
    rw [heq, List.mem_filter]
    simp only [splice, hspl]
    simp only [ne_eq, decide_not, Bool.not_eq_true', decide_eq_false_iff_not]
    tauto
  · have heq : (s.ended proc parent exitCode).childs q = (s.splice s.kernel proc).childs q :=
      Function.update_of_ne hqpar _ _
    rw [heq]
    simp only [splice, hspl]
    constructor
    · rintro ⟨hqp, hc⟩
      exact ⟨fun hcp => hnot hcp hqp hqpar hc, hqp, hc⟩
    · rintro ⟨-, hqp, hc⟩
      exact ⟨hqp, hc⟩

theorem mem_zombies_iff (h : s.Ending proc parent) :
    c ∈ (s.ended proc parent exitCode).zombies q ↔
      q ≠ proc ∧ (c ∈ s.zombies q ∨ q = s.kernel ∧ c ∈ s.zombies proc ∨
        q = parent ∧ c = proc ∧ s.waitCount proc = 0) := by
  have hspl := mem_spliced (f := s.zombies) (c := c) (q := q) h.ne_kernel
  have hnonneg := h.inv.waitCount_nonneg h.live
  simp only [ended, zombiesAfter]
  by_cases hw : s.waitCount proc > 0
  · have hne : s.waitCount proc ≠ 0 := by omega
    simp only [if_pos hw, splice, hspl, hne, and_false, or_false]
  · have hz : s.waitCount proc = 0 := by omega
    rw [if_neg hw]
    by_cases hqpar : q = parent
    · subst hqpar
      simp only [Function.update_self, List.mem_append, List.mem_singleton, splice, hspl, hz,
        h.parent_ne, ne_eq, not_false_eq_true, true_and, and_true]
      tauto
    · simp only [Function.update_of_ne hqpar, splice, hspl, hqpar, false_and, or_false]

theorem point_proc (s : ProcessTable K P) : (s.ended proc parent exitCode).point (.process proc) = .ended := by
  simp only [ended, Function.update_self]
  split <;> rfl

/-- A thread is woken if it waits for the process that ends. -/
theorem point_specific_iff (h : s.Ending proc parent) {w' : Bool} :
    (s.ended proc parent exitCode).point u = .specific p e w' ↔
      ∃ w, s.point u = .specific p e w ∧ w' = (w || p = proc) := by
  by_cases hu : u = .process proc
  · subst hu
    rw [point_proc, h.running]
    simp
  · simp only [ended, Function.update_of_ne hu]
    by_cases hw : s.waitCount proc > 0
    · rw [if_pos hw]
      cases s.point u with
      | specific joined e₁ w₁ =>
        simp only [wakeSpecific, WaitPoint.specific.injEq]
        constructor
        · rintro ⟨rfl, rfl, rfl⟩
          exact ⟨w₁, ⟨rfl, rfl, rfl⟩, rfl⟩
        · rintro ⟨w, ⟨rfl, rfl, rfl⟩, rfl⟩
          exact ⟨rfl, rfl, rfl⟩
      | _ => simp [wakeSpecific]
    · rw [if_neg hw]
      have hzero : s.waitCount proc = 0 := by
        have := h.inv.waitCount_nonneg h.live
        omega
      have hno := (h.inv.waitCount_eq_zero h.live).mp hzero u
      cases hpt : s.point u with
      | specific joined e₁ w₁ =>
        have hne : joined ≠ proc := by
          rintro rfl
          exact hno ⟨e₁, w₁, hpt⟩
        simp only [wakeGeneric, WaitPoint.specific.injEq]
        constructor
        · rintro ⟨rfl, rfl, rfl⟩
          exact ⟨w₁, ⟨rfl, rfl, rfl⟩, by simp [hne]⟩
        · rintro ⟨w, ⟨rfl, rfl, rfl⟩, rfl⟩
          exact ⟨rfl, rfl, by simp [hne]⟩
      | _ => simp [wakeGeneric]

theorem point_idle (s : ProcessTable K P) {x : WaitPoint P} (hx : x = .absent ∨ x = .ended)
    (hu : u ≠ .process proc) : (s.ended proc parent exitCode).point u = x ↔ s.point u = x := by
  simp only [ended, Function.update_of_ne hu]
  rcases hx with rfl | rfl <;> split <;> cases s.point u <;> simp [wakeSpecific, wakeGeneric]

/-- **The end of a process** keeps the invariant. -/
theorem inv_ended (h : s.Ending proc parent) (exitCode : ℤ) : (s.ended proc parent exitCode).Inv := by
  have hzombie : ∀ p, p ≠ proc → (s.ended proc parent exitCode).zombie p = s.zombie p :=
    fun p hp => Function.update_of_ne hp _ _
  have hzproc : (s.ended proc parent exitCode).zombie proc = true := Function.update_self _ _ _
  have hwaits : ∀ u p, (s.ended proc parent exitCode).Waits u p ↔ s.Waits u p := by
    intro u p
    simp only [Waits, h.point_specific_iff]
    constructor
    · rintro ⟨e, w', w, hw, -⟩
      exact ⟨e, w, hw⟩
    · rintro ⟨e, w, hw⟩
      exact ⟨e, _, w, hw, rfl⟩
  have howner : ∀ u, (s.ended proc parent exitCode).owner u = s.owner u := fun u => by cases u <;> rfl
  have hkernel : (s.ended proc parent exitCode).kernel = s.kernel := rfl
  have hexited : ∀ p code, .exited p code ∈ (s.ended proc parent exitCode).history ↔
      p = proc ∧ code = exitCode ∨ .exited p code ∈ s.history := fun p code => by simp [ended]
  have hnever : ∀ code, .exited proc code ∉ s.history := fun code hcon => by
    have := (h.inv.exited_iff proc h.live).mp ⟨code, hcon⟩
    rw [h.not_zombie] at this
    cases this
  refine { h.inv with
    kernel_ppid := ?_
    kernel_zombie := (hzombie _ h.ne_kernel.symm).trans h.inv.kernel_zombie
    kernel_absent := ?_
    ppid_ne := fun p hp hpk => ?_
    parent := fun p hp => ?_
    childs_nodup := fun q hq => ?_
    mem_childs := fun q c hq => ?_
    zombies_nodup := fun q hq => ?_
    mem_zombies := fun q c hq => ?_
    waiters := fun p hp => ?_
    specific := fun u p e w hu => ?_
    owner := fun u hu hu' => ?_
    absent := fun p hp => ?_
    lawful := ⟨hnever, h.inv.lawful⟩
    exited_mem := fun p code hp => ?_
    exited_iff := fun p hp => ?_
    exitCode := fun p hp hz => ?_
    deleted_iff := fun p => ?_
    returned := fun u p code hp => ?_ }
  · rw [hkernel, h.ppid_of_not fun hcon => hcon.2.1 rfl]
    exact h.inv.kernel_ppid
  · rw [hkernel, point_idle s (.inl rfl) (by simpa using h.ne_kernel.symm)]
    exact h.inv.kernel_absent
  · by_cases hc : s.IsChild proc p
    · rw [h.ppid_of_child hc]
      exact Int.ne_of_lt (h.inv.pid_pos p hp hpk)
    · rw [h.ppid_of_not hc]
      exact h.inv.ppid_ne p hp hpk
  · by_cases hc : s.IsChild proc p
    · refine ⟨s.kernel, h.inv.kernel_live, (hzombie _ h.ne_kernel.symm).trans h.inv.kernel_zombie, ?_⟩
      rw [h.ppid_of_child hc]
      exact h.inv.kernel_pid
    · obtain ⟨q, hq, hqz, hqp⟩ := h.inv.parent p hp
      have hqne : q ≠ proc := by
        rintro rfl
        by_cases hpk : p = s.kernel
        · have := h.inv.pid_pos q h.live h.ne_kernel
          rw [hqp, hpk, h.inv.kernel_ppid] at this
          omega
        · exact hc ⟨hp, hpk, hqp.symm⟩
      refine ⟨q, hq, (hzombie q hqne).trans hqz, ?_⟩
      rw [h.ppid_of_not hc]
      exact hqp
  · have hspl : ((s.splice s.kernel proc).childs q).Nodup := by
      refine nodup_spliced (h.inv.childs_nodup q hq) (h.inv.childs_nodup proc h.live) fun c hc hck => ?_
      exact h.ne_kernel (h.child_unique h.live h.inv.kernel_live
        ((h.inv.mem_childs _ _ h.live).mp hc).1 ((h.inv.mem_childs _ _ h.inv.kernel_live).mp hck).1)
    simp only [ended, childsAfter]
    by_cases hqpar : q = parent
    · rw [hqpar] at hspl ⊢
      rw [Function.update_self]
      exact hspl.filter _
    · rw [Function.update_of_ne hqpar]
      exact hspl
  · rw [h.mem_childs_iff hq, h.isChild_iff hq, h.inv.mem_childs q c hq, h.inv.mem_childs proc c h.live]
    by_cases hc : c = proc
    · subst hc
      simp [hzproc]
    · rw [hzombie c hc]
      tauto
  · have hspl : ((s.splice s.kernel proc).zombies q).Nodup := by
      refine nodup_spliced (h.inv.zombies_nodup q hq) (h.inv.zombies_nodup proc h.live) fun c hc hck => ?_
      exact h.ne_kernel (h.child_unique h.live h.inv.kernel_live
        ((h.inv.mem_zombies _ _ h.live).mp hc).1 ((h.inv.mem_zombies _ _ h.inv.kernel_live).mp hck).1)
    simp only [ended, zombiesAfter]
    split
    · exact hspl
    · by_cases hqpar : q = parent
      · rw [hqpar] at hspl ⊢
        rw [Function.update_self, List.nodup_append_comm, List.singleton_append]
        refine List.nodup_cons.mpr ⟨fun hcon => ?_, hspl⟩
        simp only [splice, mem_spliced h.ne_kernel] at hcon
        have hzp : s.zombie proc = true := by
          rcases hcon.2 with hcon | ⟨-, hcon⟩
          · exact ((h.inv.mem_zombies _ _ h.parent_live).mp hcon).2.1
          · exact ((h.inv.mem_zombies _ _ h.live).mp hcon).2.1
        rw [h.not_zombie] at hzp
        cases hzp
      · rw [Function.update_of_ne hqpar]
        exact hspl
  · rw [h.mem_zombies_iff, h.isChild_iff hq, h.inv.mem_zombies q c hq, h.inv.mem_zombies proc c h.live]
    have hwc : (s.ended proc parent exitCode).waitCount c = s.waitCount c := rfl
    rw [hwc]
    by_cases hc : c = proc
    · subst hc
      have hself : ¬s.IsChild c c := fun hcon => h.inv.ppid_ne c h.live h.ne_kernel hcon.2.2
      have hpar : s.IsChild q c ↔ q = parent := by
        refine ⟨fun hcon => h.child_unique hq h.parent_live hcon h.isChild_parent, ?_⟩
        rintro rfl
        exact h.isChild_parent
      simp only [h.not_zombie, hself, hzproc, hpar, Bool.false_eq_true, false_and, and_false, false_or,
        or_false, true_and]
      tauto
    · rw [hzombie c hc]
      simp only [hc, false_and, and_false, or_false]
      tauto
  · obtain ⟨l, hnd, hmem, hlen⟩ := h.inv.waiters p hp
    exact ⟨l, hnd, fun u => by rw [hmem, hwaits], hlen⟩
  · obtain ⟨w₀, hu₀, rfl⟩ := h.point_specific_iff.mp hu
    obtain ⟨hc, hcz⟩ := h.inv.specific u p e w₀ hu₀
    have hown := h.inv.owner u (by simp [hu₀]) (by simp [hu₀])
    have hone : s.owner u ≠ proc := by
      intro heq
      cases u with
      | kernel k => exact h.ne_kernel heq.symm
      | process x =>
        obtain rfl : x = proc := heq
        rw [h.running] at hu₀
        cases hu₀
    rw [howner, h.isChild_iff hown.1]
    refine ⟨⟨hone, .inl hc⟩, ?_⟩
    by_cases hp : p = proc
    · subst hp
      simp [hzproc]
    · rw [hzombie p hp]
      simpa [hp] using hcz
  · have hup : u ≠ .process proc := by
      rintro rfl
      exact hu' (point_proc s)
    rw [Ne, point_idle s (.inl rfl) hup] at hu
    rw [Ne, point_idle s (.inr rfl) hup] at hu'
    obtain ⟨hol, hoz⟩ := h.inv.owner u hu hu'
    rw [howner]
    refine ⟨hol, ?_⟩
    rw [hzombie]
    · exact hoz
    · intro heq
      cases u with
      | kernel k => exact h.ne_kernel heq.symm
      | process x =>
        obtain rfl : x = proc := heq
        exact hup rfl
  · have hpp : p ≠ proc := fun heq => hp (heq ▸ h.inv.live_mem proc h.live)
    rw [point_idle s (.inl rfl) (by simpa using hpp)]
    exact h.inv.absent p hp
  · rcases (hexited p code).mp hp with ⟨rfl, -⟩ | hp
    · exact h.inv.live_mem p h.live
    · exact h.inv.exited_mem p code hp
  · simp only [hexited]
    by_cases hpp : p = proc
    · subst hpp
      exact iff_of_true ⟨exitCode, .inl ⟨rfl, rfl⟩⟩ hzproc
    · rw [hzombie p hpp]
      simpa [hpp] using h.inv.exited_iff p hp
  · rw [hexited]
    by_cases hpp : p = proc
    · exact .inl ⟨hpp, by rw [hpp]; exact Function.update_self _ _ _⟩
    · rw [hzombie p hpp] at hz
      have hcode : (s.ended proc parent exitCode).exitCode p = s.exitCode p := Function.update_of_ne hpp _ _
      rw [hcode]
      exact .inr (h.inv.exitCode p hp hz)
  · simpa [ended] using h.inv.deleted_iff p
  · have hp' : .returned u p code ∈ s.history := by simpa [ended] using hp
    exact List.mem_cons_of_mem _ (h.inv.returned u p code hp')

end Ending

end Ended

end ProcessTable

end Miosix
