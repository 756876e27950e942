import MiosixKernel.Lib.Checked
import MiosixKernel.Sched.Control
import Mathlib.Algebra.Order.BigOperators.Group.List
import Mathlib.Algebra.BigOperators.Ring.List
import Mathlib.Tactic.Linarith
import Mathlib.Tactic.Ring

/-!
# The control based scheduler: the regulator in fixed point

With `SCHED_CONTROL_FIXED_POINT` the regulator computes with integers only. Its comments bound the operands, so that
no product overflows.

* `ControlParameters`, `FixedPointScheduler`, `irqRecalculateAlfa`, `irqRunRegulator`: the code, where an operation
  that overflows is an error;
* `RegulatorEvent`, `step`, `run`: all that the regulator depends on;
* `Inv`, `Fresh`, `step_quiet`: the steps without the regulator;
* `run_fits_of_small`: nothing overflows with bursts of less than 8192;
* **`run_fits_iff`**: with the bursts that are configured, the first time that the regulator runs it overflows.
-/

namespace Miosix

open Lib

/-- The configured bursts. -/
structure ControlParameters where
  bNominal : ℤ
  bMin : ℤ
  bMax : ℤ
  bMin_pos : 0 < bMin
  bMin_le : bMin ≤ bNominal
  bNominal_le : bNominal ≤ bMax
  bMax_lt : bMax < 2 ^ 30

/-- 4ms, 200us and 20ms. -/
def controlParameters : ControlParameters :=
  ⟨bNominal, 200000, 20000000, by decide, by decide, by decide, by decide⟩

namespace FixedPoint

/-- `kpi` is 0.5. -/
def multFactor : ℤ := 2

/-- `krr*2048`, where `krr` is 0.9. -/
def fixedKrr : ℤ := 1843

/-- `krr*zrr*1024`, where `zrr` is 0.88. -/
def fixedKrrZrr : ℤ := 811

def ValidPriority : Type := { priority : ControlSchedulerPriority // SchedulerPriority.validate priority = true }

def ValidPriority.get (priority : ValidPriority) : ℤ := priority.1.priority

/-- A burst time that was measured. -/
def BurstTime : Type := { tp : ℤ // 0 ≤ tp ∧ tp < 2 ^ 31 }

def BurstTime.zero : BurstTime := ⟨0, by decide⟩

/-- The data of a thread, and its flags. -/
structure ControlSchedulerData where
  flags : ℕ
  priority : ValidPriority
  /-- Old burst time, multiplied by `multFactor`. -/
  bo : ℤ
  alfa : ℤ
  spTp : ℤ
  tp : BurstTime

namespace ControlSchedulerData

variable (p : ControlParameters)

def nominalBurst : BurstTime :=
  ⟨p.bNominal, by
    have := p.bMin_pos
    have := p.bMin_le
    have := p.bNominal_le
    have := p.bMax_lt
    omega⟩

/-- The data of a new thread. -/
def new (flags : ℕ) (priority : ValidPriority) : ControlSchedulerData :=
  ⟨flags, priority, p.bNominal * multFactor, 0, 0, nominalBurst p⟩

def isReady (t : ControlSchedulerData) : Bool := ThreadFlags.isReady t.flags

end ControlSchedulerData

structure FixedPointScheduler where
  threadList : List ControlSchedulerData
  threadListSize : ℤ
  spTr : ℤ
  tr : ℤ
  bco : ℤ
  eTro : ℤ
  reinitRegulator : Bool

/-! ## The code -/

variable (p : ControlParameters)

def initial : FixedPointScheduler := ⟨[], 0, 0, p.bNominal, 0, 0, false⟩

/-- Sum of the priorities of the ready threads, from 1 on. -/
def sumPriority (l : List ControlSchedulerData) : Except Overflow ℤ :=
  l.foldlM (fun sum t => if t.isReady then uint32 (sum + (t.priority.get + 1)) else pure sum) 0

/-- Blocked threads get zero bursts. -/
def assignAlfa (base : ℤ) (t : ControlSchedulerData) : Except Overflow ControlSchedulerData := do
  let alfa ← if t.isReady then uint16 (base * (t.priority.get + 1)) else pure 0
  pure { t with alfa := alfa }

def irqRecalculateAlfa (s : FixedPointScheduler) : Except Overflow FixedPointScheduler := do
  let sum ← sumPriority s.threadList
  -- no thread is ready
  if sum = 0 then pure s
  else do
    let threadList ← s.threadList.mapM (assignAlfa (4096 / sum))
    pure { s with threadList := threadList, reinitRegulator := true }

def saturate (b : ℤ) : ℤ := min (max b (p.bMin * multFactor)) (p.bMax * multFactor)

/-- The internal regulator of a thread, with the set point for the next round. -/
def regulateThread (nextRoundTime : ℤ) (t : ControlSchedulerData) : Except Overflow ControlSchedulerData := do
  let product ← uint32 (t.alfa * nextRoundTime)
  let spTp ← int32 (product / 4096)
  let eTp ← int32 (spTp - t.tp.1)
  let b ← int32 (t.bo + eTp)
  pure { t with spTp := spTp, bo := saturate p b }

/-- The set point of a thread when the regulator is initialized again. -/
def reinitThread (spTr : ℤ) (t : ControlSchedulerData) : Except Overflow ControlSchedulerData := do
  let product ← int32 (t.alfa * spTr)
  let b ← int32 (product.tdiv 4096 * multFactor)
  pure { t with spTp := product.tdiv 4096, bo := saturate p b }

/-- The external regulator: the burst correction, before it is clamped. -/
def burstCorrection (bco eTr eTro : ℤ) : Except Overflow ℤ := do
  let proportional ← int32 (fixedKrr * eTr)
  let integral ← int32 (fixedKrrZrr * eTro)
  let bc ← int32 (bco + proportional.tdiv 2048)
  int32 (bc - integral.tdiv 1024)

/-- The next round time, from the clamped burst correction. -/
def clampCorrection (threadListSize tr bco : ℤ) : Except Overflow (ℤ × ℤ) := do
  let low ← int32 (-tr)
  -- `threadListSize` is unsigned
  let product ← uint32 (p.bMax * threadListSize)
  let high ← int32 product
  let bco := min (max bco low) high
  let sum ← int32 (tr + bco)
  let nextRoundTime ← uint32 sum
  pure (bco, nextRoundTime)

def irqRunRegulator (allReadyThreadsSaturated : Bool) (s : FixedPointScheduler) :
    Except Overflow FixedPointScheduler := do
  let tr := min s.tr 524287
  if s.reinitRegulator = false then do
    let eTr ← int32 (s.spTr - tr)
    let bc ← burstCorrection s.bco eTr s.eTro
    -- if all inner regulators reached upper saturation, allow only a decrease
    let bco := if allReadyThreadsSaturated then (if bc < s.bco then bc else s.bco) else bc
    let (bco, nextRoundTime) ← clampCorrection p s.threadListSize tr bco
    let threadList ← s.threadList.mapM (regulateThread p nextRoundTime)
    pure { s with threadList := threadList, tr := 0, bco := bco, eTro := eTr }
  else do
    let threadList ← s.threadList.mapM (reinitThread p s.spTr)
    pure { s with threadList := threadList, reinitRegulator := false, tr := 0, bco := 0, eTro := 0 }

/-- There is no room for more than 64 threads. -/
def pkAddThread (flags : ℕ) (priority : ValidPriority) (s : FixedPointScheduler) :
    Except Overflow FixedPointScheduler :=
  if 64 ≤ s.threadListSize then pure s
  else do
    let spTr ← int32 (s.spTr + p.bNominal)
    irqRecalculateAlfa { s with
      threadList := .new p flags priority :: s.threadList
      threadListSize := s.threadListSize + 1
      spTr := spTr }

/-- The threads that are removed are assumed to be exactly the deleted ones. -/
def pkRemoveDeadThreads (s : FixedPointScheduler) : Except Overflow FixedPointScheduler :=
  let threadList := s.threadList.filter fun t => !ThreadFlags.isDeleted t.flags
  let removed : ℤ := s.threadList.length - threadList.length
  irqRecalculateAlfa { s with
    threadList := threadList
    threadListSize := s.threadListSize - removed
    spTr := s.spTr - p.bNominal * removed }

/-! ## Runs -/

/-- What the regulator depends on. A thread is given by its place in the list. -/
inductive RegulatorEvent where
  | add (flags : ℕ) (priority : ValidPriority)
  | setPriority (i : ℕ) (priority : ValidPriority)
  /-- The flags of a thread change, and the scheduler is told with `IRQwaitStatusHook`. -/
  | setFlags (i : ℕ) (flags : ℕ)
  /-- `IRQsetDetached` does not tell the scheduler. -/
  | detach (i : ℕ)
  | removeDead
  /-- A thread is preempted after its burst. -/
  | preempt (i : ℕ) (tp : BurstTime)
  /-- The turn of a thread that is not ready. -/
  | skip (i : ℕ)
  | endOfRound

/-- One thread changes. -/
def modify (i : ℕ) (g : ControlSchedulerData → ControlSchedulerData) (s : FixedPointScheduler) : FixedPointScheduler :=
  { s with threadList := s.threadList.modify i g }

/-- The burst of the thread that is preempted. The sum of the bursts wraps. -/
def storeBurst (i : ℕ) (tp : BurstTime) (s : FixedPointScheduler) : FixedPointScheduler :=
  { modify i (fun t => { t with tp := tp }) s with tr := (s.tr + tp.1).bmod (2 ^ 32) }

/-- The end of the round in `IRQfindNextThread`. The idle thread runs if no thread is ready. -/
def endOfRound (s : FixedPointScheduler) : Except Overflow FixedPointScheduler :=
  let ready := s.threadList.filter (·.isReady)
  if ready = [] then pure s else irqRunRegulator p (ready.all fun t => p.bMax * multFactor ≤ t.bo) s

def step (s : FixedPointScheduler) : RegulatorEvent → Except Overflow FixedPointScheduler
  | .add flags priority => pkAddThread p flags priority s
  | .setPriority i priority => irqRecalculateAlfa (modify i (fun t => { t with priority := priority }) s)
  | .setFlags i flags => irqRecalculateAlfa (modify i (fun t => { t with flags := flags }) s)
  | .detach i => pure (modify i (fun t => { t with flags := t.flags ||| 0x10 }) s)
  | .removeDead => pkRemoveDeadThreads p s
  | .preempt i tp => pure (storeBurst i tp s)
  | .skip i => pure (modify i (fun t => { t with tp := .zero }) s)
  | .endOfRound => endOfRound p s

def run : FixedPointScheduler → List RegulatorEvent → Except Overflow FixedPointScheduler
  | s, [] => pure s
  | s, ev :: events => do
    let s ← step p s ev
    run s events

/-- Every step of a run meets a condition. -/
def Along (P : FixedPointScheduler → RegulatorEvent → Prop) : FixedPointScheduler → List RegulatorEvent → Prop
  | _, [] => True
  | s, ev :: events => P s ev ∧ ∀ s', step p s ev = .ok s' → Along P s' events

/-- The step runs the regulator. -/
def CallsRegulator (s : FixedPointScheduler) (ev : RegulatorEvent) : Prop :=
  ev = .endOfRound ∧ ∃ t ∈ s.threadList, t.isReady = true

/-- The bursts are within the limits. -/
def Bounded (s : FixedPointScheduler) : Prop :=
  ∀ t ∈ s.threadList, p.bMin * multFactor ≤ t.bo ∧ t.bo ≤ p.bMax * multFactor

/-! ## `IRQrecalculateAlfa` -/

variable {p} {s s' : FixedPointScheduler} {l : List ControlSchedulerData} {t : ControlSchedulerData}
  {ev : RegulatorEvent} {events : List RegulatorEvent}

theorem ValidPriority.get_mem (priority : ValidPriority) : 0 ≤ priority.get ∧ priority.get < 64 := by
  have hvalid := priority.2
  simp only [SchedulerPriority.validate, Bool.and_eq_true, decide_eq_true_eq] at hvalid
  exact hvalid.1.1

/-- What a thread counts for in the sum of the priorities. -/
def weight (t : ControlSchedulerData) : ℤ := if t.isReady then t.priority.get + 1 else 0

def weights (l : List ControlSchedulerData) : ℤ := (l.map weight).sum

theorem weight_nonneg (t : ControlSchedulerData) : 0 ≤ weight t := by
  have := t.priority.get_mem
  unfold weight
  split_ifs <;> omega

theorem weight_le (t : ControlSchedulerData) : weight t ≤ 64 := by
  have := t.priority.get_mem
  unfold weight
  split_ifs <;> omega

theorem weight_pos (h : t.isReady = true) : 0 < weight t := by
  have := t.priority.get_mem
  rw [weight, if_pos h]
  omega

theorem weight_le_weights (h : t ∈ l) : weight t ≤ weights l :=
  List.single_le_sum (by simpa using fun t _ => weight_nonneg t) _ (List.mem_map_of_mem h)

theorem weights_nonneg (l : List ControlSchedulerData) : 0 ≤ weights l :=
  List.sum_nonneg (by simpa using fun t _ => weight_nonneg t)

theorem weights_le (l : List ControlSchedulerData) : weights l ≤ 64 * l.length := by
  have hle := List.sum_le_card_nsmul (l.map weight) 64 (by simpa using fun t _ => weight_le t)
  rw [List.length_map, nsmul_eq_mul] at hle
  rw [weights]
  linarith

theorem sumPriority_eq (h : l.length ≤ 64) : sumPriority l = .ok (weights l) := by
  suffices hfold : ∀ (l : List ControlSchedulerData) (sum : ℤ), 0 ≤ sum → sum + 64 * l.length < 2 ^ 32 →
      l.foldlM (fun sum t => if t.isReady then uint32 (sum + (t.priority.get + 1)) else pure sum) sum =
        .ok (sum + weights l) by
    rw [sumPriority, hfold l 0 le_rfl (by omega), zero_add]
  intro l
  induction l with
  | nil => simp [weights]
  | cons t l ih =>
    intro sum h0 hlt
    rw [List.length_cons] at hlt
    push_cast at hlt
    have hpos := weight_nonneg t
    have hle := weight_le t
    have hstep : (if t.isReady then uint32 (sum + (t.priority.get + 1)) else pure sum) = .ok (sum + weight t) := by
      unfold weight at hpos hle ⊢
      split_ifs at hpos hle ⊢
      · exact uint32_of_mem (by omega)
      · simp
    rw [List.foldlM_cons, hstep, ok_bind, ih _ (by omega) (by omega), weights, weights, List.map_cons, List.sum_cons,
      add_assoc]

/-- The thread with its share. -/
def withAlfa (base : ℤ) (t : ControlSchedulerData) : ControlSchedulerData := { t with alfa := base * weight t }

theorem base_nonneg (l : List ControlSchedulerData) : 0 ≤ 4096 / weights l :=
  Int.ediv_nonneg (by decide) (weights_nonneg l)

/-- Each share is at most one. -/
theorem share_mem (ht : t ∈ l) : 0 ≤ 4096 / weights l * weight t ∧ 4096 / weights l * weight t ≤ 4096 := by
  have hbase := base_nonneg l
  refine ⟨mul_nonneg hbase (weight_nonneg t), ?_⟩
  calc
    4096 / weights l * weight t ≤ 4096 / weights l * weights l :=
      mul_le_mul_of_nonneg_left (weight_le_weights ht) hbase
    _ ≤ 4096 := by
      rcases eq_or_ne (weights l) 0 with h | h
      · simp [h]
      · exact Int.ediv_mul_le _ h

/-- All shares together are at least one half. -/
theorem half_le_shares (h0 : 0 < weights l) (h : weights l ≤ 4096) : 2048 ≤ 4096 / weights l * weights l := by
  have hdiv := Int.mul_ediv_add_emod 4096 (weights l)
  have hmod := Int.emod_lt_of_pos 4096 h0
  have hbase : 1 ≤ 4096 / weights l := (Int.le_ediv_iff_mul_le h0).2 (by omega)
  have hle : weights l ≤ 4096 / weights l * weights l := le_mul_of_one_le_left h0.le hbase
  rw [mul_comm (weights l)] at hdiv
  omega

theorem assignAlfa_eq (ht : t ∈ l) : assignAlfa (4096 / weights l) t = .ok (withAlfa (4096 / weights l) t) := by
  have hshare := share_mem ht
  unfold assignAlfa withAlfa
  unfold weight at hshare ⊢
  split_ifs at hshare ⊢
  · rw [uint16_of_mem (by omega)]
    rfl
  · rw [mul_zero]
    rfl

theorem irqRecalculateAlfa_eq (h : s.threadList.length ≤ 64) :
    irqRecalculateAlfa s = .ok (if weights s.threadList = 0 then s else
      { s with
        threadList := s.threadList.map (withAlfa (4096 / weights s.threadList))
        reinitRegulator := true }) := by
  rw [irqRecalculateAlfa, sumPriority_eq h, ok_bind]
  by_cases hzero : weights s.threadList = 0
  · rw [if_pos hzero, if_pos hzero]
    rfl
  · rw [if_neg hzero, if_neg hzero, mapM_eq_ok fun t ht => assignAlfa_eq ht]
    rfl

/-! ## The steps without the regulator -/

structure Inv (p : ControlParameters) (s : FixedPointScheduler) : Prop where
  size : s.threadListSize = s.threadList.length
  length_le : s.threadList.length ≤ 64
  round : s.spTr = p.bNominal * s.threadList.length
  alfa : ∀ t ∈ s.threadList, 0 ≤ t.alfa ∧ t.alfa ≤ 4096
  bounded : Bounded p s

/-- If a thread is ready, the shares are those of the ready threads, and the regulator is to be initialized. -/
def Fresh (s : FixedPointScheduler) : Prop :=
  true ∈ s.threadList.map (·.isReady) → s.reinitRegulator = true ∧ 2048 ≤ (s.threadList.map (·.alfa)).sum

/-- What the round time grows by. -/
def burst : RegulatorEvent → ℤ
  | .preempt _ tp => tp.1
  | _ => 0

/-- The external regulator is not changed by a step. -/
structure Outside (s : FixedPointScheduler) (ev : RegulatorEvent) (s' : FixedPointScheduler) : Prop where
  bco : s'.bco = s.bco
  eTro : s'.eTro = s.eTro
  tr : 0 ≤ s.tr → s.tr + burst ev < 2 ^ 31 → s'.tr = s.tr + burst ev

theorem initial_inv (p : ControlParameters) : Inv p (initial p) where
  size := rfl
  length_le := Nat.zero_le _
  round := (mul_zero _).symm
  alfa := by simp [initial]
  bounded := by simp [initial, Bounded]

theorem initial_fresh (p : ControlParameters) : Fresh (initial p) := by simp [Fresh, initial]

theorem length_modify (i : ℕ) (g : ControlSchedulerData → ControlSchedulerData) (s : FixedPointScheduler) :
    (modify i g s).threadList.length = s.threadList.length :=
  List.length_modify _ _ _

theorem Inv.modify (h : Inv p s) (i : ℕ) {g : ControlSchedulerData → ControlSchedulerData}
    (halfa : ∀ t, (g t).alfa = t.alfa) (hbo : ∀ t, (g t).bo = t.bo) : Inv p (modify i g s) where
  size := h.size.trans (by rw [length_modify])
  length_le := (length_modify i g s).trans_le h.length_le
  round := h.round.trans (by rw [length_modify])
  alfa := forall_mem_modify (fun t ht => by rwa [halfa]) h.alfa
  bounded := forall_mem_modify (fun t ht => by rwa [hbo]) h.bounded

theorem Fresh.modify (h : Fresh s) (i : ℕ) {g : ControlSchedulerData → ControlSchedulerData}
    (halfa : ∀ t, (g t).alfa = t.alfa) (hready : ∀ t, (g t).isReady = t.isReady) : Fresh (modify i g s) := by
  unfold Fresh FixedPoint.modify
  dsimp only
  rw [map_modify hready, map_modify halfa]
  exact h

/-- After a change of the threads. -/
theorem Inv.recalculateAlfa (h : Inv p s) :
    ∃ s', irqRecalculateAlfa s = .ok s' ∧ Inv p s' ∧ Fresh s' ∧ s'.tr = s.tr ∧ s'.bco = s.bco ∧ s'.eTro = s.eTro := by
  refine ⟨_, irqRecalculateAlfa_eq h.length_le, ?_⟩
  have hle : weights s.threadList ≤ 4096 := (weights_le _).trans (by have := h.length_le; omega)
  by_cases hzero : weights s.threadList = 0
  · rw [if_pos hzero]
    refine ⟨h, fun hready => ?_, rfl, rfl, rfl⟩
    obtain ⟨t, ht, htready⟩ := List.mem_map.1 hready
    have hpos := weight_pos htready
    have htle := weight_le_weights ht
    omega
  · rw [if_neg hzero]
    have hpos : 0 < weights s.threadList := (weights_nonneg _).lt_of_ne' hzero
    refine ⟨⟨?_, ?_, ?_, ?_, ?_⟩, fun _ => ⟨rfl, ?_⟩, rfl, rfl, rfl⟩
    · simpa using h.size
    · simpa using h.length_le
    · simpa using h.round
    · exact List.forall_mem_map.2 fun t ht => share_mem ht
    · exact List.forall_mem_map.2 h.bounded
    · rw [List.map_map]
      exact (half_le_shares hpos hle).trans_eq (List.sum_map_mul_left ..).symm

theorem Inv.add (hp : 64 * p.bMax < 2 ^ 31) (h : Inv p s) (flags : ℕ) (priority : ValidPriority) :
    ∃ s', pkAddThread p flags priority s = .ok s' ∧ Inv p s' ∧ (Fresh s → Fresh s') ∧
      s'.tr = s.tr ∧ s'.bco = s.bco ∧ s'.eTro = s.eTro := by
  unfold pkAddThread
  by_cases hfull : 64 ≤ s.threadListSize
  · rw [if_pos hfull]
    exact ⟨s, rfl, h, id, rfl, rfl, rfl⟩
  have hlen : s.threadList.length + 1 ≤ 64 := by
    have := h.size
    omega
  have hmin := p.bMin_pos
  have hnominal := p.bMin_le
  have hmax := p.bNominal_le
  have hround : s.spTr + p.bNominal = p.bNominal * (s.threadList.length + 1 : ℕ) := by
    rw [h.round]
    push_cast
    ring
  have hmem : -2 ^ 31 ≤ s.spTr + p.bNominal ∧ s.spTr + p.bNominal < 2 ^ 31 := by
    have hlen' : ((s.threadList.length + 1 : ℕ) : ℤ) ≤ 64 := by exact_mod_cast hlen
    have hle := mul_le_mul_of_nonneg_left hlen' (by omega : 0 ≤ p.bNominal)
    have hnonneg : 0 ≤ p.bNominal * (s.threadList.length + 1 : ℕ) := mul_nonneg (by omega) (Int.natCast_nonneg _)
    omega
  rw [if_neg hfull, int32_of_mem hmem, ok_bind]
  have hinv : Inv p { s with
      threadList := .new p flags priority :: s.threadList
      threadListSize := s.threadListSize + 1
      spTr := s.spTr + p.bNominal } := by
    refine ⟨?_, hlen, hround, List.forall_mem_cons.2 ⟨?_, h.alfa⟩, List.forall_mem_cons.2 ⟨?_, h.bounded⟩⟩
    · rw [h.size]
      rfl
    · exact ⟨le_rfl, (by decide : (0 : ℤ) ≤ 4096)⟩
    · constructor <;> simp only [ControlSchedulerData.new, multFactor] <;> omega
  obtain ⟨s', hs', hinv', hfresh, htr⟩ := hinv.recalculateAlfa
  exact ⟨s', hs', hinv', fun _ => hfresh, htr⟩

theorem Inv.removeDead (h : Inv p s) :
    ∃ s', pkRemoveDeadThreads p s = .ok s' ∧ Inv p s' ∧ Fresh s' ∧
      s'.tr = s.tr ∧ s'.bco = s.bco ∧ s'.eTro = s.eTro := by
  have hle := List.length_filter_le (fun t => !ThreadFlags.isDeleted t.flags) s.threadList
  refine Inv.recalculateAlfa ⟨?_, hle.trans h.length_le, ?_, ?_, ?_⟩
  · simp only [h.size]
    ring
  · simp only [h.round]
    ring
  · exact fun t ht => h.alfa t (List.mem_of_mem_filter ht)
  · exact fun t ht => h.bounded t (List.mem_of_mem_filter ht)

/-- **One step** that does not run the regulator. -/
theorem step_quiet (hp : 64 * p.bMax < 2 ^ 31) (h : Inv p s) (hquiet : ¬ CallsRegulator s ev) :
    ∃ s', step p s ev = .ok s' ∧ Inv p s' ∧ (Fresh s → Fresh s') ∧ Outside s ev s' := by
  cases ev with
  | add flags priority =>
    obtain ⟨s', hs', hinv, hfresh, htr, hbco, heTro⟩ := h.add hp flags priority
    exact ⟨s', hs', hinv, hfresh, hbco, heTro, fun _ _ => htr.trans (add_zero _).symm⟩
  | setPriority i priority =>
    have hmod : Inv p (modify i (fun t => { t with priority := priority }) s) := h.modify i (fun _ => rfl) fun _ => rfl
    obtain ⟨s', hs', hinv, hfresh, htr, hbco, heTro⟩ := hmod.recalculateAlfa
    exact ⟨s', hs', hinv, fun _ => hfresh, hbco, heTro, fun _ _ => htr.trans (add_zero _).symm⟩
  | setFlags i flags =>
    have hmod : Inv p (modify i (fun t => { t with flags := flags }) s) := h.modify i (fun _ => rfl) fun _ => rfl
    obtain ⟨s', hs', hinv, hfresh, htr, hbco, heTro⟩ := hmod.recalculateAlfa
    exact ⟨s', hs', hinv, fun _ => hfresh, hbco, heTro, fun _ _ => htr.trans (add_zero _).symm⟩
  | detach i =>
    have hready : ∀ t : ControlSchedulerData, ({ t with flags := t.flags ||| 0x10 } : ControlSchedulerData).isReady =
        t.isReady := by
      intro t
      simp [ControlSchedulerData.isReady, ThreadFlags.isReady, Nat.and_or_distrib_right]
    have hmod : Inv p (modify i (fun t => { t with flags := t.flags ||| 0x10 }) s) :=
      h.modify i (fun _ => rfl) fun _ => rfl
    have hfresh : Fresh s → Fresh (modify i (fun t => { t with flags := t.flags ||| 0x10 }) s) :=
      fun hf => hf.modify i (fun _ => rfl) hready
    exact ⟨_, rfl, hmod, hfresh, rfl, rfl, fun _ _ => (add_zero _).symm⟩
  | removeDead =>
    obtain ⟨s', hs', hinv, hfresh, htr, hbco, heTro⟩ := h.removeDead
    exact ⟨s', hs', hinv, fun _ => hfresh, hbco, heTro, fun _ _ => htr.trans (add_zero _).symm⟩
  | preempt i tp =>
    have hmod : Inv p (modify i (fun t => { t with tp := tp }) s) := h.modify i (fun _ => rfl) fun _ => rfl
    have hfresh : Fresh s → Fresh (modify i (fun t => { t with tp := tp }) s) :=
      fun hf => hf.modify i (fun _ => rfl) fun _ => rfl
    refine ⟨_, rfl, ⟨hmod.size, hmod.length_le, hmod.round, hmod.alfa, hmod.bounded⟩, hfresh, rfl, rfl,
      fun h0 hlt => ?_⟩
    have htp : 0 ≤ tp.1 := tp.2.1
    have hlt' : s.tr + tp.1 < 2 ^ 31 := hlt
    exact Int.bmod_eq_of_le (by omega) (by omega)
  | skip i =>
    have hmod : Inv p (modify i (fun t => { t with tp := .zero }) s) := h.modify i (fun _ => rfl) fun _ => rfl
    have hfresh : Fresh s → Fresh (modify i (fun t => { t with tp := .zero }) s) :=
      fun hf => hf.modify i (fun _ => rfl) fun _ => rfl
    exact ⟨_, rfl, hmod, hfresh, rfl, rfl, fun _ _ => (add_zero _).symm⟩
  | endOfRound =>
    have hnone : s.threadList.filter (·.isReady) = [] :=
      List.filter_eq_nil_iff.2 fun t ht hready => hquiet ⟨rfl, t, ht, hready⟩
    refine ⟨s, ?_, h, id, rfl, rfl, fun _ _ => (add_zero _).symm⟩
    simp only [step, endOfRound, hnone, if_true]
    rfl

/-! ## The regulator, with small bursts -/

/-- A quotient is not larger than its dividend. -/
theorem tdiv_mem {x b : ℤ} (h : -b ≤ x ∧ x ≤ b) (d : ℤ) : -b ≤ x.tdiv d ∧ x.tdiv d ≤ b := by
  have hle := Int.natAbs_tdiv_le_natAbs x d
  omega

theorem saturate_mem (p : ControlParameters) (b : ℤ) :
    p.bMin * multFactor ≤ saturate p b ∧ saturate p b ≤ p.bMax * multFactor := by
  have hmin := p.bMin_le
  have hmax := p.bNominal_le
  unfold saturate multFactor
  omega

/-- The share and the burst of a thread are within their limits. -/
def ThreadInv (p : ControlParameters) (t : ControlSchedulerData) : Prop :=
  (0 ≤ t.alfa ∧ t.alfa ≤ 4096) ∧ p.bMin * multFactor ≤ t.bo ∧ t.bo ≤ p.bMax * multFactor

theorem regulateThread_small (hp : p.bMax < 8192) (ht : ThreadInv p t) {nextRoundTime : ℤ}
    (h : 0 ≤ nextRoundTime ∧ nextRoundTime < 2 ^ 20) :
    ∃ t', regulateThread p nextRoundTime t = .ok t' ∧ ThreadInv p t' := by
  obtain ⟨halfa, hbo⟩ := ht
  have hmin := p.bMin_pos
  have htp := t.tp.2
  have h0 : 0 ≤ t.alfa * nextRoundTime := mul_nonneg halfa.1 h.1
  have hle : t.alfa * nextRoundTime ≤ 4096 * (2 ^ 20 - 1) := mul_le_mul halfa.2 (by omega) h.1 (by decide)
  unfold multFactor at hbo
  unfold regulateThread
  rw [uint32_of_mem (by omega), ok_bind, int32_of_mem (by omega), ok_bind, int32_of_mem (by omega), ok_bind,
    int32_of_mem (by omega), ok_bind]
  exact ⟨_, rfl, halfa, saturate_mem p _⟩

theorem reinitThread_small (ht : ThreadInv p t) {spTr : ℤ} (h : 0 ≤ spTr ∧ spTr ≤ 524287) :
    ∃ t', reinitThread p spTr t = .ok t' ∧ ThreadInv p t' := by
  obtain ⟨halfa, -⟩ := ht
  have h0 : 0 ≤ t.alfa * spTr := mul_nonneg halfa.1 h.1
  have hle : t.alfa * spTr ≤ 4096 * 524287 := mul_le_mul halfa.2 h.2 h.1 (by decide)
  have hdiv : (t.alfa * spTr).tdiv 4096 = t.alfa * spTr / 4096 := Int.tdiv_eq_ediv_of_nonneg h0
  unfold reinitThread
  rw [int32_of_mem (by omega), ok_bind, hdiv, multFactor, int32_of_mem (by omega), ok_bind]
  exact ⟨_, rfl, halfa, saturate_mem p _⟩

theorem burstCorrection_small {bco eTr eTro : ℤ} (hbco : -524287 ≤ bco ∧ bco ≤ 524287)
    (heTr : -524287 ≤ eTr ∧ eTr ≤ 524287) (heTro : -524287 ≤ eTro ∧ eTro ≤ 524287) :
    ∃ bc, burstCorrection bco eTr eTro = .ok bc := by
  have hproportional := tdiv_mem (by omega : -966260941 ≤ 1843 * eTr ∧ 1843 * eTr ≤ 966260941) 2048
  have hintegral := tdiv_mem (by omega : -425196757 ≤ 811 * eTro ∧ 811 * eTro ≤ 425196757) 1024
  unfold burstCorrection fixedKrr fixedKrrZrr
  rw [int32_of_mem (by omega), ok_bind, int32_of_mem (by omega), ok_bind, int32_of_mem (by omega), ok_bind,
    int32_of_mem (by omega)]
  exact ⟨_, rfl⟩

/-- The next round time is bounded to 20 bits. -/
theorem clampCorrection_small (hp : p.bMax < 8192) {n tr : ℤ} (hn : 0 ≤ n ∧ n ≤ 64) (htr : 0 ≤ tr ∧ tr ≤ 524287)
    (bco : ℤ) :
    ∃ bco' nextRoundTime, clampCorrection p n tr bco = .ok (bco', nextRoundTime) ∧
      (-524287 ≤ bco' ∧ bco' ≤ 524287) ∧ 0 ≤ nextRoundTime ∧ nextRoundTime < 2 ^ 20 := by
  have hmax : 0 ≤ p.bMax := by
    have := p.bMin_pos
    have := p.bMin_le
    have := p.bNominal_le
    omega
  have h0 : 0 ≤ p.bMax * n := mul_nonneg hmax hn.1
  have hle : p.bMax * n ≤ 8191 * 64 := mul_le_mul (by omega) hn.2 hn.1 (by decide)
  unfold clampCorrection
  rw [int32_of_mem (by omega), ok_bind, uint32_of_mem (by omega), ok_bind, int32_of_mem (by omega), ok_bind]
  dsimp only
  rw [int32_of_mem (by omega), ok_bind, uint32_of_mem (by omega), ok_bind]
  exact ⟨_, _, rfl, by omega, by omega⟩

/-- The state of the external regulator is small. -/
structure SmallExternal (s : FixedPointScheduler) : Prop where
  tr : 0 ≤ s.tr
  bco : -524287 ≤ s.bco ∧ s.bco ≤ 524287
  eTro : -524287 ≤ s.eTro ∧ s.eTro ≤ 524287

theorem Inv.threadInv (h : Inv p s) (ht : t ∈ s.threadList) : ThreadInv p t := ⟨h.alfa t ht, h.bounded t ht⟩

/-- The threads have been regulated. -/
theorem Inv.of_threads (h : Inv p s) (hlength : l.length = s.threadList.length) (hl : ∀ t ∈ l, ThreadInv p t)
    (tr bco eTro : ℤ) (reinit : Bool) :
    Inv p { s with threadList := l, tr := tr, bco := bco, eTro := eTro, reinitRegulator := reinit } where
  size := h.size.trans (by rw [hlength])
  length_le := hlength.trans_le h.length_le
  round := h.round.trans (by rw [hlength])
  alfa t ht := (hl t ht).1
  bounded t ht := (hl t ht).2

theorem irqRunRegulator_small (hp : p.bMax < 8192) (h : Inv p s) (he : SmallExternal s) (saturated : Bool) :
    ∃ s', irqRunRegulator p saturated s = .ok s' ∧ Inv p s' ∧ SmallExternal s' := by
  have hlen := h.length_le
  have hspTr : 0 ≤ s.spTr ∧ s.spTr ≤ 524287 := by
    have := p.bMin_pos
    have := p.bMin_le
    have := p.bNominal_le
    have hle : p.bNominal * s.threadList.length ≤ 8191 * 64 := mul_le_mul (by omega) (by omega) (by omega) (by decide)
    rw [h.round]
    exact ⟨mul_nonneg (by omega) (by omega), by omega⟩
  have htr : 0 ≤ min s.tr 524287 ∧ min s.tr 524287 ≤ 524287 := ⟨le_min he.tr (by decide), min_le_right _ _⟩
  unfold irqRunRegulator
  by_cases hreinit : s.reinitRegulator = false
  · have heTr : -524287 ≤ s.spTr - min s.tr 524287 ∧ s.spTr - min s.tr 524287 ≤ 524287 := by omega
    obtain ⟨bc, hbc⟩ := burstCorrection_small he.bco heTr he.eTro
    obtain ⟨bco, nextRoundTime, hclamp, hbco, hround⟩ := clampCorrection_small (n := s.threadListSize) hp
      (by rw [h.size]; omega) htr (if saturated then (if bc < s.bco then bc else s.bco) else bc)
    obtain ⟨l, hl, hlength, hall⟩ := mapM_total fun t ht => regulateThread_small hp (h.threadInv ht) hround
    refine ⟨_, ?_, h.of_threads hlength hall 0 bco (s.spTr - min s.tr 524287) s.reinitRegulator, le_rfl, hbco, heTr⟩
    dsimp only
    rw [if_pos hreinit, int32_of_mem (by omega), ok_bind, hbc, ok_bind, hclamp, ok_bind, hl]
    rfl
  · obtain ⟨l, hl, hlength, hall⟩ := mapM_total fun t ht => reinitThread_small (h.threadInv ht) hspTr
    refine ⟨_, ?_, h.of_threads hlength hall 0 0 0 false, le_rfl, by simp, by simp⟩
    dsimp only
    rw [if_neg hreinit, hl]
    rfl

/-! ## The regulator, with the configured bursts -/

theorem endOfRound_of_ready (h : ∃ t ∈ s.threadList, t.isReady = true) :
    ∃ saturated, endOfRound p s = irqRunRegulator p saturated s := by
  obtain ⟨t, ht, hready⟩ := h
  refine ⟨_, if_neg fun hnil => ?_⟩
  exact List.filter_eq_nil_iff.1 hnil t ht hready

/-- The set point of a thread is only computed if the product fits. -/
theorem reinitThread_lt {spTr : ℤ} {t' : ControlSchedulerData} (h : reinitThread p spTr t = .ok t') :
    t.alfa * spTr ≤ 2 ^ 31 - 1 := by
  obtain ⟨product, hproduct, -⟩ := bind_eq_ok h
  exact Int.le_sub_one_of_lt (lt_of_int32_eq_ok hproduct)

/-- The shares add up to one half, so that the products cannot all fit. -/
theorem irqRunRegulator_overflow (h : Inv controlParameters s) (hfresh : Fresh s)
    (hready : ∃ t ∈ s.threadList, t.isReady = true) (saturated : Bool) :
    irqRunRegulator controlParameters saturated s = .error .overflow := by
  obtain ⟨t, ht, htready⟩ := hready
  obtain ⟨hreinit, hhalf⟩ := hfresh (List.mem_map.2 ⟨t, ht, htready⟩)
  refine eq_error_of_ne_ok fun s' hs' => ?_
  unfold irqRunRegulator at hs'
  dsimp only at hs'
  rw [if_neg (by rw [hreinit]; decide)] at hs'
  obtain ⟨l, hl, -⟩ := bind_eq_ok hs'
  have hproduct : ∀ t ∈ s.threadList, t.alfa * s.spTr ≤ 2 ^ 31 - 1 := fun t ht => by
    obtain ⟨t', ht'⟩ := exists_of_mapM_eq_ok hl t ht
    exact reinitThread_lt ht'
  have hpos : (0 : ℤ) < s.threadList.length := by exact_mod_cast List.length_pos_of_mem ht
  have hsum : (s.threadList.map (·.alfa)).sum * s.spTr ≤ s.threadList.length * (2 ^ 31 - 1) := by
    have hle := List.sum_le_card_nsmul (s.threadList.map fun t => t.alfa * s.spTr) (2 ^ 31 - 1)
      (List.forall_mem_map.2 hproduct)
    rwa [List.sum_map_mul_right, List.length_map, nsmul_eq_mul] at hle
  have hround : s.spTr = 4000000 * s.threadList.length := h.round
  have hmul : (s.threadList.map (·.alfa)).sum * 4000000 * s.threadList.length ≤
      (2 ^ 31 - 1) * s.threadList.length := by
    rw [hround] at hsum
    linarith
  have hle := le_of_mul_le_mul_right hmul hpos
  omega

/-! ## Every run -/

theorem run_cons (h : step p s ev = .ok s') : run p s (ev :: events) = run p s' events := by rw [run, h, ok_bind]

theorem along_cons {P : FixedPointScheduler → RegulatorEvent → Prop} (h : step p s ev = .ok s') :
    Along p P s (ev :: events) ↔ P s ev ∧ Along p P s' events := by
  simp [Along, h]

theorem step_small (hp : p.bMax < 8192) (h : Inv p s) (he : SmallExternal s) (htr : s.tr + burst ev < 2 ^ 31) :
    ∃ s', step p s ev = .ok s' ∧ Inv p s' ∧ SmallExternal s' := by
  by_cases hcalls : CallsRegulator s ev
  · obtain ⟨rfl, hready⟩ := hcalls
    obtain ⟨saturated, hround⟩ := endOfRound_of_ready hready
    obtain ⟨s', hs', hinv, hsmall⟩ := irqRunRegulator_small hp h he saturated
    exact ⟨s', hround.trans hs', hinv, hsmall⟩
  · obtain ⟨s', hs', hinv, -, hout⟩ := step_quiet (by omega) h hcalls
    have hburst : 0 ≤ burst ev := by
      cases ev with
      | preempt i tp => exact tp.2.1
      | _ => exact le_rfl
    refine ⟨s', hs', hinv, ?_, hout.bco.symm ▸ he.bco, hout.eTro.symm ▸ he.eTro⟩
    rw [hout.tr he.tr htr]
    exact add_nonneg he.tr hburst

/-- **With bursts of less than 8192** nothing overflows, if the sum of the bursts between two rounds does not. -/
theorem run_fits_of_small (hp : p.bMax < 8192) (events : List RegulatorEvent)
    (htr : Along p (fun s ev => s.tr + burst ev < 2 ^ 31) (initial p) events) :
    ∃ s, run p (initial p) events = .ok s ∧ Bounded p s := by
  suffices hrun : ∀ (events : List RegulatorEvent) {s : FixedPointScheduler}, Inv p s → SmallExternal s →
      Along p (fun s ev => s.tr + burst ev < 2 ^ 31) s events → ∃ s', run p s events = .ok s' ∧ Bounded p s' by
    have hnominal : 0 ≤ p.bNominal := p.bMin_pos.le.trans p.bMin_le
    exact hrun events (initial_inv p) ⟨hnominal, by simp [initial], by simp [initial]⟩ htr
  intro events
  induction events with
  | nil => exact fun h _ _ => ⟨_, rfl, h.bounded⟩
  | cons ev events ih =>
    intro s h he hal
    obtain ⟨s', hs', hinv, hsmall⟩ := step_small hp h he hal.1
    rw [run_cons hs']
    exact ih hinv hsmall (hal.2 s' hs')

/-- **With the configured bursts** nothing overflows, and the bursts stay within the limits, exactly if the
regulator never runs. -/
theorem run_fits_iff (events : List RegulatorEvent) :
    (∃ s, run controlParameters (initial controlParameters) events = .ok s ∧ Bounded controlParameters s) ↔
      Along controlParameters (fun s ev => ¬ CallsRegulator s ev) (initial controlParameters) events := by
  suffices hrun : ∀ (events : List RegulatorEvent) {s : FixedPointScheduler}, Inv controlParameters s → Fresh s →
      ((∃ s', run controlParameters s events = .ok s' ∧ Bounded controlParameters s') ↔
        Along controlParameters (fun s ev => ¬ CallsRegulator s ev) s events) from
    hrun events (initial_inv _) (initial_fresh _)
  intro events
  induction events with
  | nil => exact fun h _ => iff_of_true ⟨_, rfl, h.bounded⟩ trivial
  | cons ev events ih =>
    intro s h hfresh
    by_cases hcalls : CallsRegulator s ev
    · refine iff_of_false ?_ fun hal => hal.1 hcalls
      obtain ⟨rfl, hready⟩ := hcalls
      obtain ⟨saturated, hround⟩ := endOfRound_of_ready (p := controlParameters) hready
      have hstep : step controlParameters s .endOfRound = .error .overflow :=
        hround.trans (irqRunRegulator_overflow h hfresh hready saturated)
      rintro ⟨s', hs', -⟩
      rw [run, hstep] at hs'
      cases hs'
    · obtain ⟨s', hs', hinv, hfresh', -⟩ := step_quiet (by decide) h hcalls
      rw [run_cons hs', along_cons hs', ih hinv (hfresh' hfresh)]
      exact (and_iff_right hcalls).symm

/-- The first round of the first thread. -/
theorem not_fits_one_thread :
    ¬ ∃ s, run controlParameters (initial controlParameters) [.add 0 ⟨⟨1, 3⟩, by decide⟩, .endOfRound] = .ok s ∧
      Bounded controlParameters s := by
  rintro ⟨s, hs, -⟩
  have hrun : run controlParameters (initial controlParameters) [.add 0 ⟨⟨1, 3⟩, by decide⟩, .endOfRound] =
      .error .overflow := rfl
  rw [hrun] at hs
  cases hs

end FixedPoint

end Miosix
