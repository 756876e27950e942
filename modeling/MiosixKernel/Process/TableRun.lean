import MiosixKernel.Process.TableInvariant

/-!
# The process table: runs

* `Inv.waitGeneric_ok`, `Inv.waitpid_ok`, `Inv.resume_ok`: the sections return and keep the invariant;
* **`run_table`**: the process table in every interleaving.
-/

namespace Miosix

open Lib

namespace ProcessTable

variable {K P : Type} [DecidableEq K] [DecidableEq P] {s : ProcessTable K P} {t : Tid K P}
  {p q joined : P} {e : Bool}

/-! ## The sections -/

omit [DecidableEq K] [DecidableEq P] in
theorem check_eq (hp : s.live p = true) : s.check p = .ok () := by
  rw [check, hp]
  rfl

omit [DecidableEq K] [DecidableEq P] in
theorem Inv.owner_live (h : s.Inv) (ht : s.Active t) : s.live (s.owner t) = true :=
  (h.owner t ht.1 ht.2).1

/-- Taking the first zombie. -/
theorem Inv.waitGeneric_ok (h : s.Inv) (ht : s.Active t) (hno : ∀ p, ¬s.Waits t p) (e : Bool) :
    ∃ s', s.waitGeneric t e = .ok s' ∧ s'.Inv := by
  have hown := h.owner_live ht
  rw [waitGeneric, check_eq hown, ok_bind]
  cases hz : s.zombies (s.owner t) with
  | nil =>
    by_cases hc : s.childs (s.owner t) = []
    · exact ⟨_, by simp only [hc, if_true]; rfl, h.goto ht hno (by simp)⟩
    · exact ⟨_, by simp only [hc, if_false]; rfl, h.goto ht hno (by simp)⟩
  | cons joined rest =>
    have hmem : joined ∈ s.zombies (s.owner t) := by simp [hz]
    obtain ⟨hc, hzj, hw⟩ := (h.mem_zombies _ joined hown).mp hmem
    have hnd := h.zombies_nodup _ hown
    rw [hz] at hnd
    have hrest : (s.zombies (s.owner t)).filter (· ≠ joined) = rest := by
      rw [hz, List.filter_cons_of_neg (by simp)]
      refine List.filter_eq_self.mpr fun c hcr => ?_
      have hne : c ≠ joined := by
        rintro rfl
        exact (List.nodup_cons.mp hnd).1 hcr
      simpa using hne
    have hinv := h.reap ht hc hzj (fun u hu => absurd hu ((h.waitCount_eq_zero hc.1).mp hw u))
      (fun p hp => absurd hp (hno p)) (s.waitCount joined) e
    rw [hrest, Function.update_eq_self] at hinv
    refine ⟨_, ?_, hinv⟩
    have hcheck : ({ s with zombies := Function.update s.zombies (s.owner t) rest } :
        ProcessTable K P).check joined = .ok () := check_eq hc.1
    simp only [hcheck, ok_bind, hw, ne_eq, not_true_eq_false, if_false]
    rfl

/-- A call of `waitpid` on a child that is a zombie. -/
theorem Inv.finishWait_ok (h : s.Inv) (ht : s.point t = .running) (hc : s.IsChild (s.owner t) joined)
    (hz : s.zombie joined = true) (e : Bool) : ∃ s', s.finishWait t joined e = .ok s' ∧ s'.Inv := by
  have hact : s.Active t := by simp [Active, ht]
  have hno : ∀ p, ¬s.Waits t p := by
    rintro p ⟨e, w, hcon⟩
    rw [ht] at hcon
    cases hcon
  rw [finishWait, check_eq hc.1, ok_bind]
  by_cases hw : s.waitCount joined = 0
  · rw [if_pos hw, check_eq (h.owner_live hact), ok_bind]
    have hinv := h.reap hact hc hz (fun u hu => absurd hu ((h.waitCount_eq_zero hc.1).mp hw u))
      (fun p hp => absurd hp (hno p)) (s.waitCount joined) e
    rw [Function.update_eq_self] at hinv
    exact ⟨_, rfl, hinv⟩
  · rw [if_neg hw]
    exact ⟨_, rfl, h.goto hact hno (by simp)⟩

theorem Inv.waitpid_ok (h : s.Inv) (ht : s.point t = .running) (pid : ℤ) (e nohang : Bool) :
    ∃ s', s.waitpid t pid e nohang = .ok s' ∧ s'.Inv := by
  have hact : s.Active t := by simp [Active, ht]
  have hno : ∀ p, ¬s.Waits t p := by
    rintro p ⟨e, w, hcon⟩
    rw [ht] at hcon
    cases hcon
  rw [waitpid, check_eq (h.owner_live hact), ok_bind]
  by_cases hpid : pid ≤ 0
  · rw [if_pos hpid]
    split
    · exact ⟨s, rfl, h⟩
    · exact h.waitGeneric_ok hact hno e
  · rw [if_neg hpid]
    cases hp : s.processes pid with
    | none => exact ⟨s, rfl, h⟩
    | some joined =>
      obtain ⟨hlive, hpj⟩ := (h.processes_iff pid joined).mp hp
      dsimp only
      rw [check_eq hlive, ok_bind]
      by_cases hother : s.ppid joined ≠ s.pid (s.owner t) ∨ pid = s.pid (s.owner t)
      · rw [if_pos hother]
        exact ⟨s, rfl, h⟩
      · rw [if_neg hother]
        rw [not_or, not_not] at hother
        have hc : s.IsChild (s.owner t) joined := by
          refine ⟨hlive, ?_, hother.1⟩
          rintro rfl
          rw [h.kernel_pid] at hpj
          omega
        cases hz : s.zombie joined with
        | true => exact h.finishWait_ok ht hc hz e
        | false =>
          cases nohang with
          | true => exact ⟨s, rfl, h⟩
          | false => exact ⟨_, rfl, h.startWait ht hc hz e⟩

/-- A thread goes on after its wait. -/
theorem Inv.resume_ok (h : s.Inv) (t : Tid K P) : ∃ s', s.resume t = .ok s' ∧ s'.Inv := by
  unfold resume
  split
  · rename_i exit hpt
    refine h.waitGeneric_ok (by simp [Active, hpt]) ?_ exit
    rintro p ⟨e, w, hcon⟩
    rw [hpt] at hcon
    cases hcon
  · rename_i joined exit hpt
    have hact : s.Active t := by simp [Active, hpt]
    obtain ⟨hc, hcz⟩ := h.specific t joined exit true hpt
    have hz : s.zombie joined = true := hcz.mp rfl
    obtain ⟨l, hnd, hmem, hlen⟩ := h.waiters joined hc.1
    have htl : t ∈ l := (hmem t).mpr ⟨exit, true, hpt⟩
    have hpos := List.length_pos_of_mem htl
    rw [check_eq hc.1, ok_bind]
    have hgood : ¬(s.waitCount joined - 1 < 0 ∨ s.zombie joined = false) := by
      rintro (hlt | hzombie)
      · rw [hlen] at hlt
        omega
      · cases hz.symm.trans hzombie
    simp only [Function.update_self]
    rw [if_neg hgood]
    have hcheck : ({ s with waitCount := Function.update s.waitCount joined (s.waitCount joined - 1) } :
        ProcessTable K P).check joined = .ok () := check_eq hc.1
    rw [finishWait, hcheck, ok_bind]
    simp only [Function.update_self]
    by_cases hw : s.waitCount joined - 1 = 0
    · -- the last thread that waited reaps
      have hone : ∀ u, s.Waits u joined → u = t := by
        intro u hu
        rw [← hmem] at hu
        have hlen1 : l.length = 1 := by omega
        obtain ⟨a, rfl⟩ := List.length_eq_one_iff.mp hlen1
        rw [List.mem_singleton] at hu htl
        rw [hu, htl]
      have hself : ∀ p, s.Waits t p → p = joined := by
        rintro p ⟨e, w, hp⟩
        rw [hpt] at hp
        cases hp
        rfl
      rw [if_pos hw]
      have howner : ({ s with
          waitCount := Function.update s.waitCount joined (s.waitCount joined - 1) } :
          ProcessTable K P).owner t = s.owner t := by cases t <;> rfl
      have hown : ({ s with
          waitCount := Function.update s.waitCount joined (s.waitCount joined - 1) } :
          ProcessTable K P).check (s.owner t) = .ok () := check_eq (h.owner_live hact)
      refine ⟨_, ?_, h.reap hact hc hz hone hself (s.waitCount joined - 1) exit⟩
      rw [howner, hown, ok_bind]
      rfl
    · rw [if_neg hw]
      exact ⟨_, rfl, h.leave hpt hw⟩
  · exact ⟨s, rfl, h⟩

/-! ## Runs -/

theorem Inv.create_ok (h : s.Inv) (ht : s.point t = .running) (hnew : p ∉ s.created) (fuel : ℕ) :
    ∃ s', s.create t p fuel = .ok s' ∧ s'.Inv := by
  have hact : s.Active t := by simp [Active, ht]
  unfold create
  split
  · exact ⟨s, rfl, h⟩
  · rename_i pid pidCounter hpid
    obtain ⟨hpos, hfree⟩ := getNewPid_spec hpid
    simp only [check_eq (h.owner_live hact), ok_bind]
    exact ⟨_, rfl, h.added pidCounter hact hnew hpos hfree⟩

/-- **One step.** Every event returns and keeps the invariant. -/
theorem Inv.step_ok (h : s.Inv) (ev : ProcessEvent K P) : ∃ s', s.step ev = .ok s' ∧ s'.Inv := by
  cases ev with
  | create t p fuel =>
    simp only [step]
    split
    · rename_i hcan
      exact h.create_ok hcan.1 hcan.2 fuel
    · exact ⟨s, rfl, h⟩
  | waitpid t pid e nohang =>
    simp only [step]
    split
    · rename_i hrun
      exact h.waitpid_ok hrun pid e nohang
    · exact ⟨s, rfl, h⟩
  | resume t => exact h.resume_ok t
  | exit proc exitCode =>
    simp only [step]
    split
    · rename_i hrun
      obtain ⟨parent, hend⟩ := h.exists_ending hrun
      exact ⟨_, h.exit_eq hend.live hend.ne_kernel hend.parent_live hend.parent_pid,
        hend.inv_ended exitCode⟩
    · exact ⟨s, rfl, h⟩

theorem Inv.run_ok (h : s.Inv) (es : List (ProcessEvent K P)) : ∃ s', s.run es = .ok s' ∧ s'.Inv := by
  induction es generalizing s with
  | nil => exact ⟨s, rfl, h⟩
  | cons e es ih =>
    obtain ⟨s₁, hstep, h₁⟩ := h.step_ok e
    obtain ⟨s', hrun, h'⟩ := ih h₁
    exact ⟨s', by rw [run, hstep, ok_bind, hrun], h'⟩

omit [DecidableEq K] in
theorem inv_initial (kernel : P) : (initial K kernel).Inv where
  kernel_live := by simp [initial]
  kernel_pid := rfl
  kernel_ppid := rfl
  kernel_zombie := rfl
  kernel_absent := rfl
  processes_iff n p := by
    by_cases hn : n = 0
    · simp [initial, hn, eq_comm]
    · simp [initial, hn, Ne.symm hn]
  pid_pos p hp hk := absurd (by simpa [initial] using hp) hk
  ppid_ne p hp hk := absurd (by simpa [initial] using hp) hk
  parent p hp := ⟨kernel, by simp [initial], rfl, rfl⟩
  childs_nodup q _ := List.nodup_nil
  mem_childs q c hq := by
    refine iff_of_false (by simp [initial]) ?_
    rintro ⟨⟨hc, hne, -⟩, -⟩
    exact hne (by simpa [initial] using hc)
  zombies_nodup q _ := List.nodup_nil
  mem_zombies q c hq := iff_of_false (by simp [initial]) fun hcon => by simp [initial] at hcon
  waiters p _ := ⟨[], List.nodup_nil, fun t => by cases t <;> simp [Waits, initial], rfl⟩
  specific t p e w h := by cases t <;> cases h
  owner t h _ := by
    cases t with
    | kernel k => simp [initial, owner]
    | process p => exact absurd rfl h
  live_mem p hp := by simpa [initial] using hp
  absent p _ := rfl
  lawful := trivial
  exited_mem p code h := by cases h
  exited_iff p _ := by simp [initial]
  exitCode p _ h := by cases h
  deleted_iff p := by simp [initial]
  returned t p code h := by cases h

/-- The process is in the list of its parent, once, and in no other. -/
def Listed (s : ProcessTable K P) (lists : P → List P) (p : P) : Prop :=
  ∃ q, s.live q = true ∧ s.pid q = s.ppid p ∧ (lists q).count p = 1 ∧
    ∀ q', s.live q' = true → p ∈ lists q' → q' = q

omit [DecidableEq K] in
theorem Inv.listed (h : s.Inv) {lists : P → List P} {r : P → Prop}
    (hnd : ∀ q, s.live q = true → (lists q).Nodup)
    (hmem : ∀ q c, s.live q = true → (c ∈ lists q ↔ s.IsChild q c ∧ r c)) (hp : s.live p = true)
    (hk : p ≠ s.kernel) (hr : r p) : s.Listed lists p := by
  obtain ⟨q, hq, -, hpid⟩ := h.parent p hp
  refine ⟨q, hq, hpid, ?_, fun q' hq' hpq' => ?_⟩
  · exact List.count_eq_one_of_mem (hnd q hq) ((hmem q p hq).mpr ⟨⟨hp, hk, hpid.symm⟩, hr⟩)
  · exact h.eq_of_pid_eq hq' hq (((hmem q' p hq').mp hpq').1.2.2.symm.trans hpid.symm)

/-- **The process table.** No interleaving reaches an error. The table holds the processes that are
allocated, each under its pid, which is 0 for the kernel and positive for the others; the parent of each
is in the table; a process that is not a zombie is in the list of children of its parent only; a zombie
is in the list of zombies of its parent only, or in none while a thread of its parent waits for it. A
thread waits only for a process that is allocated; each process is deleted at most once, and its exit
code is returned at most once. -/
theorem run_table (kernel : P) (es : List (ProcessEvent K P)) :
    ∃ s, (initial K kernel).run es = .ok s ∧
      (∀ n p, s.processes n = some p ↔ s.live p = true ∧ s.pid p = n) ∧
      (s.processes 0 = some s.kernel ∧ ∀ n p, s.processes n = some p → p ≠ s.kernel → 0 < n) ∧
      (∀ n p, s.processes n = some p → (s.processes (s.ppid p)).isSome = true) ∧
      (∀ n p, s.processes n = some p → p ≠ s.kernel → s.zombie p = false → s.Listed s.childs p) ∧
      (∀ n p, s.processes n = some p → s.zombie p = true → s.Listed s.zombies p ∨
        (∀ q, s.live q = true → p ∉ s.zombies q) ∧ 0 < s.waitCount p ∧
          ∃ t, s.Waits t p ∧ s.pid (s.owner t) = s.ppid p) ∧
      (∀ t p, s.Waits t p → s.live p = true) ∧
      (∀ p, .deleted p ∈ s.history ↔ p ∈ s.created ∧ s.live p = false) ∧
      Lawful ProcessHappening.Allowed s.history := by
  obtain ⟨s, hrun, h⟩ := (inv_initial (K := K) kernel).run_ok es
  have hlive : ∀ n p, s.processes n = some p → s.live p = true :=
    fun n p hp => ((h.processes_iff n p).mp hp).1
  refine ⟨s, hrun, h.processes_iff, ⟨?_, fun n p hp hk => ?_⟩, fun n p hp => ?_, fun n p hp hk hz => ?_,
    fun n p hp hz => ?_, ?_, h.deleted_iff, h.lawful⟩
  · exact (h.processes_iff 0 _).mpr ⟨h.kernel_live, h.kernel_pid⟩
  · obtain ⟨hl, rfl⟩ := (h.processes_iff n p).mp hp
    exact h.pid_pos p hl hk
  · obtain ⟨q, hq, -, hpid⟩ := h.parent p (hlive n p hp)
    rw [(h.processes_iff _ q).mpr ⟨hq, hpid⟩]
    rfl
  · exact h.listed h.childs_nodup h.mem_childs (hlive n p hp) hk hz
  · have hk : p ≠ s.kernel := by
      rintro rfl
      rw [h.kernel_zombie] at hz
      cases hz
    by_cases hw : s.waitCount p = 0
    · exact .inl (h.listed h.zombies_nodup h.mem_zombies (hlive n p hp) hk ⟨hz, hw⟩)
    · refine .inr ⟨fun q hq hcon => hw ((h.mem_zombies q p hq).mp hcon).2.2, ?_, ?_⟩
      · have := h.waitCount_nonneg (hlive n p hp)
        omega
      · rw [h.waitCount_eq_zero (hlive n p hp), not_forall] at hw
        obtain ⟨t, ht⟩ := hw
        obtain ⟨e, w, hpt⟩ := not_not.mp ht
        exact ⟨t, ⟨e, w, hpt⟩, (h.specific t p e w hpt).1.2.2.symm⟩
  · rintro t p ⟨e, w, hpt⟩
    exact (h.specific t p e w hpt).1.1

/-- Of two threads that wait for a process, the last one to go on reaps it. -/
example : ((initial ℕ 0).run [.create (.kernel 0) 1 5, .waitpid (.kernel 0) 1 true false,
    .waitpid (.kernel 1) 1 true false, .exit 1 7, .resume (.kernel 0), .resume (.kernel 1)]).toOption.map
      history = some [.deleted 1, .returned (.kernel 1) 1 (some 7), .exited 1 7] := by
  decide

end ProcessTable

end Miosix
