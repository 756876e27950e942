import MiosixKernel.Sched.Invariant

/-!
# The priority scheduler: runs

A run is a sequence of calls of the scheduler and of changes of the flags of its threads. Along with
the scheduler it keeps `members`, the priority of each thread that was added and not yet removed.

* `SchedSystem`, `SchedEvent`, `step`, `run`, `ValidRun`;
* `stepQueue`, `step_refines`: the scheduler refines the queues;
* **`run_represents`**: every run keeps the representation invariant and selects right.
-/

namespace Miosix

open Lib PriorityScheduler

/-- The scheduler, and the priority of each thread that was added and not yet removed. -/
structure SchedSystem (T : Type) where
  sched : PriorityScheduler T
  members : T → Option ℕ

/-- A call of the scheduler, or a change of what it reads. -/
inductive SchedEvent (T : Type) where
  | add (thread : T) (priority flags : ℕ)
  | setPriority (thread : T) (newPriority : ℕ)
  | removeDead
  | setFlags (thread : T) (flags : ℕ)
  | setKernelRunning (n : ℕ)
  | find

namespace SchedSystem

variable {T : Type}

/-- The queues, with the threads that were added and not yet removed. At most `k` were. -/
structure Ok (priorityMax k : ℕ) (idle : T) (s : SchedSystem T) (q : ℕ → List T) : Prop where
  rep : Represents priorityMax s.sched q
  members : ∀ t, s.sched.priorityOf t = s.members t
  idle_eq : s.sched.idle = idle
  bound : ∃ l : List T, l.length ≤ k ∧ ∀ t, s.members t ≠ none → t ∈ l

namespace Ok

variable {priorityMax k : ℕ} {idle : T} {s : SchedSystem T} {q : ℕ → List T}

theorem length_le (h : Ok priorityMax k idle s q) {i : ℕ} (hi : i < priorityMax) :
    (q i).length ≤ k := by
  obtain ⟨l, hl, hsub⟩ := h.bound
  refine (List.Subperm.length_le ?_).trans hl
  refine List.subperm_of_subset (h.rep.holds i hi).nodup fun t ht => hsub t ?_
  rw [h.rep.mem_iff i hi, h.members] at ht
  simp [ht]

theorem lt (h : Ok priorityMax k idle s q) {t : T} {i : ℕ} (ht : s.members t = some i) :
    i < priorityMax := h.rep.lt t i ((h.members t).trans ht)

theorem mem_queue (h : Ok priorityMax k idle s q) {t : T} {i : ℕ} (ht : s.members t = some i) :
    t ∈ q i := (h.rep.mem_iff i (h.lt ht) t).mpr ((h.members t).trans ht)

theorem mem_eq_none (h : Ok priorityMax k idle s q) (t : T) :
    s.sched.mem t = none ↔ s.members t = none := by
  rw [← priorityOf_eq_none, h.members]

end Ok

/-- No thread was added yet. -/
def initial (idle : T) : SchedSystem T :=
  ⟨⟨fun _ => none, fun _ => none, idle, idle, 0⟩, fun _ => none⟩

theorem ok_initial (priorityMax : ℕ) (idle : T) : Ok priorityMax 0 idle (initial idle) fun _ => [] where
  rep := ⟨fun _ _ => rfl, fun _ _ _ => by simp [priorityOf, initial],
    fun _ _ h => by simp [priorityOf, initial] at h, rfl⟩
  members _ := rfl
  idle_eq := rfl
  bound := ⟨[], le_rfl, fun _ h => absurd rfl h⟩

variable [DecidableEq T] (fuel priorityMax : ℕ)

def step (s : SchedSystem T) : SchedEvent T → Except Fault (SchedSystem T)
  | .add thread priority flags => do
    let sched ← (s.sched.create thread flags).pkAddThread thread priority
    pure ⟨sched, Function.update s.members thread (some priority)⟩
  | .setPriority thread newPriority => do
    let sched ← s.sched.pkSetPriority fuel thread newPriority
    pure ⟨sched, Function.update s.members thread (some newPriority)⟩
  | .removeDead => do
    let sched ← pkRemoveDeadThreads fuel priorityMax s.sched
    pure ⟨sched, fun t => if s.sched.deleted t then none else s.members t⟩
  | .setFlags thread flags => do
    let sched ← s.sched.modify thread fun o => { o with flags := flags }
    pure ⟨sched, s.members⟩
  | .setKernelRunning n => pure ⟨{ s.sched with kernelRunning := n }, s.members⟩
  | .find => do
    let sched ← irqFindNextThread fuel priorityMax s.sched
    pure ⟨sched, s.members⟩

def run (s : SchedSystem T) : List (SchedEvent T) → Except Fault (SchedSystem T)
  | [] => pure s
  | e :: es => do
    let s ← s.step fuel priorityMax e
    s.run es

/-- What the callers of the scheduler promise: only a new thread is added, only threads in the
scheduler are changed, and priorities are valid. -/
def Valid (s : SchedSystem T) : SchedEvent T → Prop
  | .add thread priority _ =>
    s.members thread = none ∧ thread ≠ s.sched.idle ∧ priority < priorityMax
  | .setPriority thread newPriority => s.members thread ≠ none ∧ newPriority < priorityMax
  | .setFlags thread _ => s.members thread ≠ none
  | _ => True

def ValidRun (s : SchedSystem T) : List (SchedEvent T) → Prop
  | [] => True
  | e :: es =>
    s.Valid priorityMax e ∧
      match s.step fuel priorityMax e with
      | .ok s' => s'.ValidRun es
      | .error _ => True

instance (s : SchedSystem T) (e : SchedEvent T) : Decidable (s.Valid priorityMax e) :=
  match e with
  | .add _ _ _ => inferInstanceAs (Decidable (_ ∧ _ ∧ _))
  | .setPriority _ _ => inferInstanceAs (Decidable (_ ∧ _))
  | .setFlags _ _ => inferInstanceAs (Decidable (_ ≠ _))
  | .removeDead => .isTrue trivial
  | .setKernelRunning _ => .isTrue trivial
  | .find => .isTrue trivial

instance decidableValidRun :
    (s : SchedSystem T) → (es : List (SchedEvent T)) → Decidable (s.ValidRun fuel priorityMax es)
  | _, [] => .isTrue trivial
  | s, e :: es =>
    have : Decidable (match s.step fuel priorityMax e with
        | .ok s' => s'.ValidRun fuel priorityMax es
        | .error _ => True) :=
      match s.step fuel priorityMax e with
      | .ok s' => decidableValidRun s' es
      | .error _ => .isTrue trivial
    inferInstanceAs (Decidable (_ ∧ _))

theorem ValidRun.tail {fuel priorityMax : ℕ} {s s' : SchedSystem T} {e : SchedEvent T}
    {es : List (SchedEvent T)} (h : s.ValidRun fuel priorityMax (e :: es))
    (hs : s.step fuel priorityMax e = .ok s') : s'.ValidRun fuel priorityMax es := by
  have := h.2
  rwa [hs] at this

/-! ## Refinement -/

/-- What a step does to the queues. -/
def stepQueue (s : SchedSystem T) (q : ℕ → List T) : SchedEvent T → ℕ → List T
  | .add thread priority _ => Function.update q priority (afterHead thread (q priority))
  | .setPriority thread newPriority =>
    movedQueue q thread ((s.members thread).getD 0) newPriority
  | .removeDead => fun i => (q i).filter (!s.sched.deleted ·)
  | .find =>
    if s.sched.kernelRunning ≠ 0 then q
    else selectedQueue q (selected s.sched.ready q priorityMax)
  | _ => q

variable {fuel priorityMax}

/-- **The scheduler refines the queues.** A valid step returns, and does to the queues what
`stepQueue` says. -/
theorem step_refines {k : ℕ} {idle : T} {s : SchedSystem T} {q : ℕ → List T}
    (h : Ok priorityMax k idle s q) {e : SchedEvent T} (hv : s.Valid priorityMax e) (hf : k < fuel) :
    ∃ s', s.step fuel priorityMax e = .ok s' ∧
      Ok priorityMax (k + 1) idle s' (s.stepQueue priorityMax q e) := by
  obtain ⟨l, hl, hsub⟩ := h.bound
  have hlen : ∀ i < priorityMax, (q i).length < fuel := fun i hi => (h.length_le hi).trans_lt hf
  cases e with
  | add thread priority flags =>
    obtain ⟨hnew, hidle, hp⟩ := hv
    obtain ⟨sched, hrun, hrep, hprio, -, henv⟩ := pkAddThread_spec h.rep
      ((h.mem_eq_none thread).mpr hnew) hidle hp flags
    refine ⟨⟨sched, _⟩, by rw [step, hrun]; rfl, hrep, fun t => ?_, ?_, ?_⟩
    · rw [hprio]
      by_cases ht : t = thread
      · simp [ht]
      · simp [ht, h.members]
    · exact (congrArg Prod.fst henv).trans h.idle_eq
    · refine ⟨thread :: l, by simpa using hl, fun t ht => ?_⟩
      by_cases htt : t = thread
      · simp [htt]
      · simp only [Function.update_of_ne htt] at ht
        exact List.mem_cons_of_mem _ (hsub t ht)
  | setPriority thread newPriority =>
    obtain ⟨hmem, hp⟩ := hv
    obtain ⟨old, hold⟩ := Option.ne_none_iff_exists'.mp hmem
    have holdp : s.sched.priorityOf thread = some old := (h.members thread).trans hold
    obtain ⟨sched, hrun, hrep, hprio, -, henv⟩ := pkSetPriority_spec h.rep holdp hp
      (hlen old (h.rep.lt thread old holdp))
    refine ⟨⟨sched, _⟩, by rw [step, hrun]; rfl, ?_, fun t => ?_, ?_, ?_⟩
    · rw [stepQueue, hold]
      exact hrep
    · rw [hprio]
      by_cases ht : t = thread
      · simp [ht]
      · simp [ht, h.members]
    · exact (congrArg Prod.fst henv).trans h.idle_eq
    · refine ⟨l, by omega, fun t ht => hsub t ?_⟩
      by_cases htt : t = thread
      · rw [htt]
        exact hmem
      · simpa only [Function.update_of_ne htt] using ht
  | removeDead =>
    obtain ⟨sched, hrun, hrep, hgone, hkept, henv⟩ := pkRemoveDeadThreads_spec h.rep hlen
    refine ⟨⟨sched, _⟩, by rw [step, hrun]; rfl, hrep, fun t => ?_, ?_, ?_⟩
    · cases hd : s.sched.deleted t with
      | true => simp [hd, priorityOf_eq_none.mpr (hgone t hd)]
      | false => simp [hd, (hkept t hd).1, h.members]
    · exact (congrArg Prod.fst henv).trans h.idle_eq
    · refine ⟨l, by omega, fun t ht => hsub t fun hcon => ht ?_⟩
      simp [hcon]
  | setFlags thread flags =>
    have hmem : s.sched.mem thread ≠ none := (h.mem_eq_none thread).not.mpr hv
    obtain ⟨o, ho⟩ := Option.ne_none_iff_exists'.mp hmem
    obtain ⟨hrep, hprio⟩ := h.rep.setFlags ho flags
    refine ⟨⟨s.sched.write thread { o with flags := flags }, s.members⟩, ?_, hrep, fun t => ?_,
      h.idle_eq, l, by omega, hsub⟩
    · rw [step, modify_eq ho]
      rfl
    · rw [hprio]
      exact h.members t
  | setKernelRunning n =>
    refine ⟨_, rfl, ⟨h.rep.holds, h.rep.mem_iff, h.rep.lt, h.rep.idle⟩, h.members, h.idle_eq, l, ?_,
      hsub⟩
    omega
  | find =>
    by_cases hk : s.sched.kernelRunning = 0
    · obtain ⟨sched, hrun, hrep, hmem, hidle, -⟩ := irqFindNextThread_spec h.rep hlen hk
      refine ⟨⟨sched, _⟩, by rw [step, hrun]; rfl, ?_, fun t => ?_, hidle.trans h.idle_eq, l, ?_, hsub⟩
      · rw [stepQueue, if_neg (not_not.mpr hk)]
        exact hrep
      · rw [priorityOf, hmem]
        exact h.members t
      · omega
    · refine ⟨s, ?_, ?_, h.members, h.idle_eq, l, by omega, hsub⟩
      · rw [step, irqFindNextThread, if_pos hk]
        rfl
      · rw [stepQueue, if_pos hk]
        exact h.rep

/-- Every valid run returns, with some queues. -/
theorem run_ok {k : ℕ} {idle : T} {es : List (SchedEvent T)} {s : SchedSystem T} {q : ℕ → List T}
    (h : Ok priorityMax k idle s q) (hv : s.ValidRun fuel priorityMax es)
    (hf : k + es.length < fuel) :
    ∃ s' q', s.run fuel priorityMax es = .ok s' ∧ Ok priorityMax (k + es.length) idle s' q' := by
  induction es generalizing k s q with
  | nil => exact ⟨s, q, rfl, h⟩
  | cons e es ih =>
    simp only [List.length_cons] at hf
    obtain ⟨s₁, hstep, h₁⟩ := step_refines h hv.1 (by omega : k < fuel)
    obtain ⟨s', q', hrun, h'⟩ := ih h₁ (hv.tail hstep) (by omega)
    refine ⟨s', q', by rw [run, hstep, ok_bind, hrun], ?_⟩
    rw [List.length_cons, Nat.add_comm es.length 1, ← Nat.add_assoc]
    exact h'

/-- What a selection with the kernel running does, in terms of the threads. -/
theorem Ok.irqFindNextThread {k : ℕ} {idle : T} {s : SchedSystem T} {q : ℕ → List T}
    (h : Ok priorityMax k idle s q) (hf : k < fuel) (hk : s.sched.kernelRunning = 0) :
    ∃ s', PriorityScheduler.irqFindNextThread fuel priorityMax s.sched = .ok s' ∧
      (s'.cur = idle ↔ ∀ t, s.members t ≠ none → s.sched.ready t = false) ∧
      (s'.cur ≠ idle → s.sched.ready s'.cur = true ∧ ∃ i, s.members s'.cur = some i ∧
        ∀ t j, s.members t = some j → s.sched.ready t = true → j ≤ i) := by
  have hlen : ∀ i < priorityMax, (q i).length < fuel := fun i hi => (h.length_le hi).trans_lt hf
  obtain ⟨s', hrun, -, -, -, -, hcur⟩ := irqFindNextThread_spec h.rep hlen hk
  refine ⟨s', hrun, ?_⟩
  cases hsel : selected s.sched.ready q priorityMax with
  | none =>
    have hnone := not_ready_of_selected_eq_none hsel
    rw [hsel] at hcur
    have hidle : s'.cur = idle := hcur.trans h.idle_eq
    refine ⟨iff_of_true hidle fun t ht => ?_, fun hcon => absurd hidle hcon⟩
    obtain ⟨i, hi⟩ := Option.ne_none_iff_exists'.mp ht
    exact hnone i (h.lt hi) t (h.mem_queue hi)
  | some it =>
    obtain ⟨i, t⟩ := it
    obtain ⟨hi, hmem, hready, -, hhigh⟩ := mem_of_selected hsel
    rw [hsel] at hcur
    have hcur' : s'.cur = t := hcur
    have hti : s.members t = some i := by rw [← h.members, ← h.rep.mem_iff i hi]; exact hmem
    have hne : t ≠ idle := by
      rintro rfl
      have := h.rep.idle
      rw [h.idle_eq, h.mem_eq_none, hti] at this
      cases this
    rw [hcur']
    refine ⟨iff_of_false hne fun hcon => ?_, fun _ => ⟨hready, i, hti, fun u j hu hr => ?_⟩⟩
    · rw [hcon t (by rw [hti]; simp)] at hready
      cases hready
    · by_contra hlt
      rw [hhigh j (by omega) (h.lt hu) u (h.mem_queue hu)] at hr
      cases hr

/-- **The representation invariant and selection.** Every valid run reaches no fault and no endless
loop. The list of each priority is then empty or circular, and holds each thread of that priority that
was added and not yet removed once; exactly these threads live; removing the dead threads frees exactly
the deleted ones; and a selection takes a ready thread of the highest priority that has one, or the idle
thread if no thread is ready. -/
theorem run_represents (fuel priorityMax : ℕ) (idle : T) (es : List (SchedEvent T))
    (hv : (initial idle).ValidRun fuel priorityMax es) (hf : es.length < fuel) :
    ∃ s, (initial idle).run fuel priorityMax es = .ok s ∧
      (∀ i < priorityMax, ∃ w, s.sched.Holds i w ∧ ∀ t, t ∈ w ↔ s.members t = some i) ∧
      (∀ t, s.sched.mem t = none ↔ s.members t = none) ∧
      (∃ s', pkRemoveDeadThreads fuel priorityMax s.sched = .ok s' ∧
        ∀ t, s'.mem t = none ↔ s.sched.mem t = none ∨ s.sched.deleted t = true) ∧
      (s.sched.kernelRunning = 0 →
        ∃ s', PriorityScheduler.irqFindNextThread fuel priorityMax s.sched = .ok s' ∧
          (s'.cur = idle ↔ ∀ t, s.members t ≠ none → s.sched.ready t = false) ∧
          (s'.cur ≠ idle → s.sched.ready s'.cur = true ∧ ∃ i, s.members s'.cur = some i ∧
            ∀ t j, s.members t = some j → s.sched.ready t = true → j ≤ i)) := by
  obtain ⟨s, q, hrun, h⟩ := run_ok (ok_initial priorityMax idle) hv (by omega : 0 + es.length < fuel)
  rw [Nat.zero_add] at h
  refine ⟨s, hrun, fun i hi => ⟨q i, h.rep.holds i hi, fun t => ?_⟩, h.mem_eq_none, ?_,
    fun hk => h.irqFindNextThread hf hk⟩
  · rw [h.rep.mem_iff i hi, h.members]
  · obtain ⟨s', hrun', -, hgone, hkept, -⟩ := pkRemoveDeadThreads_spec h.rep
      fun i hi => (h.length_le hi).trans_lt hf
    refine ⟨s', hrun', fun t => ?_⟩
    cases hd : s.sched.deleted t with
    | true => simp [hgone t hd]
    | false =>
      rw [← priorityOf_eq_none, (hkept t hd).1, priorityOf_eq_none]
      simp

/-- Threads are added, change priority, are selected and die: the flags 20 are those of a thread that is
deleted and detached. -/
theorem run_represents_addAndDie :
    ∃ s, (initial 0).run 12 4 [.add 1 0 0, .add 2 0 0, .add 3 2 0, .find, .setPriority 3 0, .find,
        .setFlags 2 20, .removeDead, .find] = .ok s ∧
      ∃ w, s.sched.Holds 0 w ∧ ∀ t, t ∈ w ↔ s.members t = some 0 := by
  obtain ⟨s, hrun, hlists, -⟩ := run_represents 12 4 0 [.add 1 0 0, .add 2 0 0, .add 3 2 0, .find,
    .setPriority 3 0, .find, .setFlags 2 20, .removeDead, .find] (by decide) (by decide)
  exact ⟨s, hrun, hlists 0 (by decide)⟩

end SchedSystem

end Miosix
