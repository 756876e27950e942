import Mathlib.Algebra.Order.Ring.Int
import Mathlib.Algebra.Order.Ring.Abs
import Mathlib.Tactic.Linarith
import Mathlib.Tactic.Ring

/-!
# The Flopsync controllers

From the synchronization error of each packet a controller computes the correction of the clock and the window in
which the receiver listens. It starts with one step of a deadbeat controller and one sample for the window.

* `Flopsync`, `computeCorrection`, `lostPacket`, `getClockCorrection`: the code;
* `correctionInts`, `run`: the results of the `int` operations, and runs without overflow;
* `neg`: the state for the errors with the other sign; `step_neg`: one step;
* **`run_symmetric_iff`**: when a run and its mirror image are treated alike.
-/

namespace Miosix

/-- The constants of a controller. -/
structure FlopsyncConstants where
  wMin : ℤ
  wMax : ℤ
  /-- Number of samples for the variance. -/
  numSamples : ℤ
  controllerScaleFactor : ℤ
  varianceScaleFactor : ℤ
  wMin_nonneg : 0 ≤ wMin
  wMin_lt : wMin < wMax
  one_lt : 1 < numSamples

def flopsync2 : FlopsyncConstants := ⟨50000, 6000000, 5, 6, 300, by decide, by decide, by decide⟩

def flopsync3 : FlopsyncConstants := ⟨50000, 6000000, 5, 6, 300, by decide, by decide, by decide⟩

/-- The state of a controller. -/
@[ext]
structure Flopsync where
  eo : ℤ
  eoo : ℤ
  uo : ℤ
  uoo : ℤ
  sum : ℤ
  squareSum : ℤ
  threeSigma : ℤ
  dw : ℤ
  count : ℤ
  init : ℕ

namespace Flopsync

variable (c : FlopsyncConstants) (s : Flopsync) (error : ℤ)

/-! ## The code -/

def reset : Flopsync := ⟨0, 0, 0, 0, 0, 0, 0, c.wMax, 0, 0⟩

/-- The window size, clamped. -/
def clamp (w : ℤ) : ℤ := max (min w c.wMax) c.wMin

/-- The sign by which a correction is rounded. -/
def sign (u : ℤ) : ℤ := if 0 ≤ u then 1 else -1

def quantize (u : ℤ) : ℤ := (u + 256 * sign u).tdiv 512 * c.controllerScaleFactor

def getClockCorrection : ℤ := quantize c s.uo

/-- The second step of the start: an overbound of the standard deviation from a single sample. -/
def preinit : Flopsync :=
  { s with
    init := 2, eo := 0, uo := s.uo.tdiv 2, dw := clamp c (30 * error), sum := 0, squareSum := 0, count := 0 }

/-- The controller, with values kept multiplied by 512. -/
def control (e : ℤ) : Flopsync :=
  { s with
    uoo := s.uo, uo := 2 * s.uo - s.uoo + 960 * e - 1320 * s.eo + 485 * s.eoo, eoo := s.eo, eo := e }

/-- A sample for the variance. -/
def sample (e : ℤ) : Flopsync :=
  { s with sum := s.sum + e, squareSum := s.squareSum + e * e, count := s.count + 1 }

/-- The Babylonian method to approximate a square root. -/
def babylonian (var : ℤ) : ℕ → ℤ → ℤ
  | 0, stddev => stddev
  | j + 1, stddev => babylonian var j (if 0 < stddev then (stddev + var.tdiv stddev).tdiv 2 else stddev)

/-- The variance, computed as `E[X²] - E[X]²`. -/
def variance : ℤ := s.squareSum.tdiv c.numSamples - s.sum.tdiv c.numSamples * s.sum.tdiv c.numSamples

def sigma : ℤ := babylonian (variance c s) 3 ((variance c s).tdiv 7)

/-- The window is set to three sigma when there are enough samples. -/
def updateWindow : Flopsync :=
  if c.numSamples ≤ s.count then
    { s with
      threeSigma := max 1 (sigma c s * 3)
      dw := clamp c (max 1 (sigma c s * 3) * c.varianceScaleFactor)
      sum := 0, squareSum := 0, count := 0 }
  else s

/-- The correction and the window, with the state afterwards. -/
def computeCorrection : (ℤ × ℤ) × Flopsync :=
  let e := error.tdiv c.controllerScaleFactor
  if s.init = 0 then
    -- one step of a deadbeat controller
    ((2 * e * c.controllerScaleFactor, c.wMax), { s with init := 1, eo := e, uo := 2 * 512 * e, uoo := 512 * e })
  else
    let s := if s.init = 1 then s.preinit c error else s
    let s := s.control e
    let uquant := quantize c s.uo
    let s := (s.sample (error.tdiv c.varianceScaleFactor)).updateWindow c
    ((uquant, s.dw), s)

/-- `grow dw` is `1.7f*dw`, converted to `int`. -/
def lostPacket (grow : ℤ → ℤ) : (ℤ × ℤ) × Flopsync :=
  let s := if s.init = 1 then { s with init := 2, eo := 0, uo := s.uo.tdiv 2 } else s
  let s := { s with dw := min (grow s.dw) c.wMax }
  ((s.getClockCorrection c, s.dw), s)

/-! ## What is computed in 32 bits -/

def quantizeInts (u : ℤ) : List ℤ := [u + 256 * sign u, quantize c u]

def controlInts (e : ℤ) : List ℤ :=
  [2 * s.uo, 2 * s.uo - s.uoo, 960 * e, 2 * s.uo - s.uoo + 960 * e, 1320 * s.eo,
    2 * s.uo - s.uoo + 960 * e - 1320 * s.eo, 485 * s.eoo, (s.control e).uo]

def sampleInts (e : ℤ) : List ℤ := [s.sum + e, e * e, s.squareSum + e * e]

def babylonianInts (var : ℤ) : ℕ → ℤ → List ℤ
  | 0, _ => []
  | j + 1, stddev =>
    if 0 < stddev then (stddev + var.tdiv stddev) :: babylonianInts var j ((stddev + var.tdiv stddev).tdiv 2)
    else babylonianInts var j stddev

def updateWindowInts : List ℤ :=
  if c.numSamples ≤ s.count then
    [s.sum.tdiv c.numSamples * s.sum.tdiv c.numSamples, variance c s] ++
      babylonianInts (variance c s) 3 ((variance c s).tdiv 7) ++
      [sigma c s * 3, max 1 (sigma c s * 3) * c.varianceScaleFactor]
  else []

/-- The results of the operations of `computeCorrection`. -/
def correctionInts : List ℤ :=
  let e := error.tdiv c.controllerScaleFactor
  if s.init = 0 then [2 * 512 * e, 512 * e, 2 * e, 2 * e * c.controllerScaleFactor]
  else
    let s₁ := if s.init = 1 then s.preinit c error else s
    let s₂ := s₁.control e
    let e' := error.tdiv c.varianceScaleFactor
    (if s.init = 1 then [30 * error] else []) ++ s₁.controlInts e ++ quantizeInts c s₂.uo ++ s₂.sampleInts e' ++
      (s₂.sample e').updateWindowInts c

/-- The results of the operations of `lostPacket`. -/
def lostInts : List ℤ := quantizeInts c (if s.init = 1 then s.uo.tdiv 2 else s.uo)

end Flopsync

/-! ## Runs -/

inductive FlopsyncEvent where
  | correction (error : ℤ)
  | lost

/-- The error with the other sign. -/
def FlopsyncEvent.neg : FlopsyncEvent → FlopsyncEvent
  | correction error => correction (-error)
  | lost => lost

namespace Flopsync

variable (c : FlopsyncConstants) (grow : ℤ → ℤ)

def step (s : Flopsync) : FlopsyncEvent → (ℤ × ℤ) × Flopsync
  | .correction error => s.computeCorrection c error
  | .lost => s.lostPacket c grow

def ints (s : Flopsync) : FlopsyncEvent → List ℤ
  | .correction error => s.correctionInts c error
  | .lost => s.lostInts c

/-- The corrections and the windows of a run. There are none if an operation overflows. -/
def run : Flopsync → List FlopsyncEvent → Option (List (ℤ × ℤ))
  | _, [] => some []
  | s, ev :: events =>
    if ∀ x ∈ s.ints c ev, -2 ^ 31 ≤ x ∧ x < 2 ^ 31 then
      ((s.step c grow ev).1 :: ·) <$> run (s.step c grow ev).2 events
    else none

/-! ## The other sign -/

/-- The state for the errors with the other sign. -/
def neg (s : Flopsync) : Flopsync :=
  { s with eo := -s.eo, eoo := -s.eoo, uo := -s.uo, uoo := -s.uoo, sum := -s.sum }

variable {c grow} {s : Flopsync} {error : ℤ} {ev : FlopsyncEvent} {events : List FlopsyncEvent}

/-- Zero is rounded to zero with either sign. -/
theorem quantize_neg (u : ℤ) : quantize c (-u) = -quantize c u := by
  have hsign : (-u + 256 * sign (-u)).tdiv 512 = -(u + 256 * sign u).tdiv 512 := by
    rw [← Int.neg_tdiv]
    rcases lt_trichotomy u 0 with hu | rfl | hu
    · rw [sign, sign, if_pos (by omega), if_neg (by omega)]
      ring_nf
    · rfl
    · rw [sign, sign, if_neg (by omega), if_pos hu.le]
      ring_nf
  rw [quantize, quantize, hsign, neg_mul]

theorem control_neg (s : Flopsync) (e : ℤ) : s.neg.control (-e) = (s.control e).neg := by
  ext <;> simp only [control, neg]
  ring

theorem sample_neg (s : Flopsync) (e : ℤ) : s.neg.sample (-e) = (s.sample e).neg := by
  ext <;> simp only [sample, neg]
  · ring
  · ring

theorem variance_neg (s : Flopsync) : variance c s.neg = variance c s := by
  simp only [variance, neg, Int.neg_tdiv, neg_mul_neg]

theorem updateWindow_neg (s : Flopsync) : s.neg.updateWindow c = (s.updateWindow c).neg := by
  have hsigma : sigma c s.neg = sigma c s := by rw [sigma, sigma, variance_neg]
  have hcount : s.neg.count = s.count := rfl
  unfold updateWindow
  rw [hsigma, hcount]
  by_cases h : c.numSamples ≤ s.count
  · rw [if_pos h, if_pos h]
    ext <;> simp [neg]
  · rw [if_neg h, if_neg h]

/-- The window of the second step is the smallest one. -/
theorem clamp_of_small {w : ℤ} (h : w ≤ c.wMin) : clamp c w = c.wMin :=
  max_eq_right ((min_le_left _ _).trans h)

theorem clamp_of_large {w : ℤ} (h : c.wMin < w) : c.wMin < clamp c w :=
  (lt_min h c.wMin_lt).trans_le (le_max_left _ _)

theorem preinit_neg (s : Flopsync) (h : 30 * |error| ≤ c.wMin) :
    s.neg.preinit c (-error) = (s.preinit c error).neg := by
  have hpos : 30 * error ≤ c.wMin := by linarith [le_abs_self error]
  have hneg : 30 * -error ≤ c.wMin := by linarith [neg_abs_le error]
  ext <;> simp only [preinit, neg, clamp_of_small hpos, clamp_of_small hneg, Int.neg_tdiv, neg_zero]

/-- The second step of the start gets an error that the window does not depend on. -/
def Small (c : FlopsyncConstants) (s : Flopsync) : FlopsyncEvent → Prop
  | .correction error => s.init = 1 → 30 * |error| ≤ c.wMin
  | .lost => True

theorem computeCorrection_neg (h : s.Small c (.correction error)) :
    s.neg.computeCorrection c (-error) =
      ((-(s.computeCorrection c error).1.1, (s.computeCorrection c error).1.2), (s.computeCorrection c error).2.neg) := by
  have hinit : s.neg.init = s.init := rfl
  unfold computeCorrection
  simp only [hinit, Int.neg_tdiv]
  by_cases h0 : s.init = 0
  · rw [if_pos h0, if_pos h0]
    ext <;> simp [neg]
  · have hpre : (if s.init = 1 then s.neg.preinit c (-error) else s.neg) =
        (if s.init = 1 then s.preinit c error else s).neg := by
      by_cases h1 : s.init = 1
      · rw [if_pos h1, if_pos h1, preinit_neg s (h h1)]
      · rw [if_neg h1, if_neg h1]
    rw [if_neg h0, if_neg h0, hpre, control_neg, sample_neg, updateWindow_neg]
    exact Prod.ext (Prod.ext (quantize_neg _) rfl) rfl

theorem lostPacket_neg (s : Flopsync) :
    s.neg.lostPacket c grow = ((-(s.lostPacket c grow).1.1, (s.lostPacket c grow).1.2), (s.lostPacket c grow).2.neg) := by
  have hinit : s.neg.init = s.init := rfl
  unfold lostPacket getClockCorrection
  simp only [hinit]
  by_cases h1 : s.init = 1
  · simp only [if_pos h1]
    have huo : s.neg.uo.tdiv 2 = -s.uo.tdiv 2 := Int.neg_tdiv _ _
    refine Prod.ext (Prod.ext ?_ rfl) ?_
    · rw [huo]
      exact quantize_neg _
    · ext <;> simp [neg, Int.neg_tdiv]
  · simp only [if_neg h1]
    exact Prod.ext (Prod.ext (quantize_neg _) rfl) rfl

/-- **One step** of the mirror image. -/
theorem step_neg (grow : ℤ → ℤ) (h : s.Small c ev) :
    s.neg.step c grow ev.neg = ((-(s.step c grow ev).1.1, (s.step c grow ev).1.2), (s.step c grow ev).2.neg) := by
  cases ev with
  | correction error => exact computeCorrection_neg h
  | lost => exact lostPacket_neg s

/-- The window of the second step. -/
theorem second_window (hinit : s.init = 1) (error : ℤ) : (s.computeCorrection c error).1.2 = clamp c (30 * error) := by
  have hcount : ¬ c.numSamples ≤ 0 + 1 := by
    have := c.one_lt
    omega
  unfold computeCorrection updateWindow
  simp only [hinit, one_ne_zero, if_false, if_true, preinit, control, sample, hcount]

/-- If the error of the second step is not small, the windows differ. -/
theorem window_ne (h : ¬ s.Small c ev) : (s.neg.step c grow ev.neg).1.2 ≠ (s.step c grow ev).1.2 := by
  cases ev with
  | lost => exact absurd trivial h
  | correction error =>
    have hsmall : s.init = 1 ∧ c.wMin < 30 * |error| := by simpa [Small] using h
    have hwindow : (s.computeCorrection c error).1.2 = clamp c (30 * error) := second_window hsmall.1 error
    have hinit : s.neg.init = 1 := hsmall.1
    have hwindow' : (s.neg.computeCorrection c (-error)).1.2 = clamp c (30 * -error) := second_window hinit (-error)
    change (s.neg.computeCorrection c (-error)).1.2 ≠ (s.computeCorrection c error).1.2
    rw [hwindow, hwindow']
    have hmin := c.wMin_nonneg
    rcases abs_cases error with ⟨habs, -⟩ | ⟨habs, -⟩ <;> rw [habs] at hsmall
    · rw [clamp_of_small (by linarith [hsmall.2] : 30 * -error ≤ c.wMin)]
      exact (clamp_of_large hsmall.2).ne
    · rw [clamp_of_small (by linarith [hsmall.2] : 30 * error ≤ c.wMin)]
      exact (clamp_of_large hsmall.2).ne'

/-! ## The window -/

def InWindow (c : FlopsyncConstants) (w : ℤ) : Prop := c.wMin ≤ w ∧ w ≤ c.wMax

theorem clamp_inWindow (w : ℤ) : InWindow c (clamp c w) :=
  ⟨le_max_right _ _, max_le (min_le_right _ _) c.wMin_lt.le⟩

theorem updateWindow_inWindow (h : InWindow c s.dw) : InWindow c (s.updateWindow c).dw := by
  unfold updateWindow
  split_ifs
  · exact clamp_inWindow _
  · exact h

theorem lostPacket_window (s : Flopsync) (c : FlopsyncConstants) (grow : ℤ → ℤ) : (s.lostPacket c grow).1.2 = min (grow s.dw) c.wMax ∧
    (s.lostPacket c grow).2.dw = min (grow s.dw) c.wMax := by
  unfold lostPacket
  by_cases h1 : s.init = 1
  · simp only [if_pos h1, and_self]
  · simp only [if_neg h1, and_self]

theorem sampled_inWindow (h : InWindow c s.dw) (e e' : ℤ) :
    InWindow c (((s.control e).sample e').updateWindow c).dw :=
  updateWindow_inWindow (s := (s.control e).sample e') h

theorem computeCorrection_inWindow (h : InWindow c s.dw) (error : ℤ) :
    InWindow c (s.computeCorrection c error).1.2 ∧ InWindow c (s.computeCorrection c error).2.dw := by
  unfold computeCorrection
  by_cases h0 : s.init = 0
  · rw [if_pos h0]
    exact ⟨⟨c.wMin_lt.le, le_rfl⟩, h⟩
  · rw [if_neg h0]
    have hpre : InWindow c (if s.init = 1 then s.preinit c error else s).dw := by
      by_cases h1 : s.init = 1
      · rw [if_pos h1]
        exact clamp_inWindow _
      · rwa [if_neg h1]
    exact ⟨sampled_inWindow hpre _ _, sampled_inWindow hpre _ _⟩

/-- **One step** keeps the window between its bounds. -/
theorem step_inWindow (hgrow : ∀ dw, 0 ≤ dw → dw ≤ grow dw) (h : InWindow c s.dw) (ev : FlopsyncEvent) :
    InWindow c (s.step c grow ev).1.2 ∧ InWindow c (s.step c grow ev).2.dw := by
  cases ev with
  | correction error => exact computeCorrection_inWindow h error
  | lost =>
    have hdw : InWindow c (min (grow s.dw) c.wMax) :=
      ⟨le_min (h.1.trans (hgrow _ (c.wMin_nonneg.trans h.1))) c.wMin_lt.le, min_le_right _ _⟩
    obtain ⟨hwindow, hstate⟩ := s.lostPacket_window c grow
    change InWindow c (s.lostPacket c grow).1.2 ∧ InWindow c (s.lostPacket c grow).2.dw
    rw [hwindow, hstate]
    exact ⟨hdw, hdw⟩

/-! ## Every run -/

/-- The answers of a run and of its mirror image: the corrections have the other sign, and the windows are the
same. -/
def Symmetric (r r' : List (ℤ × ℤ)) : Prop := List.Forall₂ (fun p q => q.1 = -p.1 ∧ q.2 = p.2) r r'

theorem run_cons {r : List (ℤ × ℤ)} (h : run c grow s (ev :: events) = some r) :
    ∃ r', run c grow (s.step c grow ev).2 events = some r' ∧ r = (s.step c grow ev).1 :: r' := by
  rw [run] at h
  split_ifs at h
  obtain ⟨r', hr', rfl⟩ := Option.map_eq_some_iff.1 h
  exact ⟨r', hr', rfl⟩

theorem run_inWindow (hgrow : ∀ dw, 0 ≤ dw → dw ≤ grow dw) : ∀ (events : List FlopsyncEvent) {s : Flopsync}
    {r : List (ℤ × ℤ)}, InWindow c s.dw → run c grow s events = some r → ∀ p ∈ r, InWindow c p.2
  | [], s, r, _, h => by
    obtain rfl := Option.some.inj h
    simp
  | ev :: events, s, r, hs, h => by
    obtain ⟨r', hr', rfl⟩ := run_cons h
    obtain ⟨hwindow, hdw⟩ := step_inWindow hgrow hs ev
    exact List.forall_mem_cons.2 ⟨hwindow, run_inWindow hgrow events hdw hr'⟩

/-- The error of the second step of the start, if no packet is lost after the first one. -/
def secondError : List FlopsyncEvent → Option ℤ
  | .lost :: events => secondError events
  | .correction _ :: .correction error :: _ => some error
  | _ => none

/-- Every step gets an error that its window does not depend on the sign of. -/
def AllSmall (c : FlopsyncConstants) (grow : ℤ → ℤ) : Flopsync → List FlopsyncEvent → Prop
  | _, [] => True
  | s, ev :: events => s.Small c ev ∧ AllSmall c grow (s.step c grow ev).2 events

theorem symmetric_iff_allSmall : ∀ (events : List FlopsyncEvent) {s : Flopsync} {r r' : List (ℤ × ℤ)},
    run c grow s events = some r → run c grow s.neg (events.map .neg) = some r' →
      (Symmetric r r' ↔ AllSmall c grow s events)
  | [], s, r, r', h, h' => by
    obtain rfl := Option.some.inj h
    obtain rfl := Option.some.inj h'
    exact iff_of_true .nil trivial
  | ev :: events, s, r, r', h, h' => by
    obtain ⟨t, ht, rfl⟩ := run_cons h
    obtain ⟨t', ht', rfl⟩ := run_cons h'
    rw [Symmetric, List.forall₂_cons, AllSmall]
    by_cases hsmall : s.Small c ev
    · have hstep := step_neg grow hsmall
      rw [hstep] at ht' ⊢
      rw [and_iff_right hsmall, and_iff_right ⟨rfl, rfl⟩]
      exact symmetric_iff_allSmall events ht ht'
    · exact iff_of_false (fun hsym => window_ne hsmall hsym.1.2) fun hall => hsmall hall.1

/-- How far the start has got after a step. -/
def nextInit (init : ℕ) : FlopsyncEvent → ℕ
  | .correction _ => if init = 0 then 1 else if init = 1 then 2 else init
  | .lost => if init = 1 then 2 else init

theorem updateWindow_init (s : Flopsync) : (s.updateWindow c).init = s.init := by
  unfold updateWindow
  split_ifs <;> rfl

theorem step_init (s : Flopsync) (c : FlopsyncConstants) (grow : ℤ → ℤ) (ev : FlopsyncEvent) :
    (s.step c grow ev).2.init = nextInit s.init ev := by
  cases ev with
  | correction error =>
    change (s.computeCorrection c error).2.init = _
    unfold computeCorrection nextInit
    by_cases h0 : s.init = 0
    · rw [if_pos h0]
      simp [h0]
    · rw [if_neg h0]
      dsimp only
      rw [updateWindow_init, if_neg h0]
      by_cases h1 : s.init = 1
      · rw [if_pos h1, if_pos h1]
        rfl
      · rw [if_neg h1, if_neg h1]
        rfl
  | lost =>
    change (s.lostPacket c grow).2.init = _
    unfold lostPacket nextInit
    split_ifs <;> rfl

/-- After the start no window depends on a sign. -/
theorem allSmall_of_two_le : ∀ (events : List FlopsyncEvent) {s : Flopsync}, 2 ≤ s.init → s.AllSmall c grow events
  | [], _, _ => trivial
  | ev :: events, s, h => by
    have hne : s.init ≠ 0 ∧ s.init ≠ 1 := by omega
    have hnext : nextInit s.init ev = s.init := by cases ev <;> simp [nextInit, hne]
    refine ⟨?_, allSmall_of_two_le events ?_⟩
    · cases ev with
      | correction error => exact fun h1 => absurd h1 hne.2
      | lost => exact trivial
    · rwa [step_init, hnext]

/-- The step after the first one is the last that matters. -/
theorem allSmall_of_one (ev : FlopsyncEvent) (events : List FlopsyncEvent) {s : Flopsync} (h : s.init = 1) :
    s.AllSmall c grow (ev :: events) ↔ s.Small c ev := by
  have hnext : (s.step c grow ev).2.init = 2 := by
    rw [step_init, h]
    cases ev <;> rfl
  exact and_iff_left (allSmall_of_two_le events hnext.ge)

theorem allSmall_iff (grow : ℤ → ℤ) (events : List FlopsyncEvent) {s : Flopsync} (h : s.init = 0) :
    s.AllSmall c grow events ↔ ∀ error ∈ secondError events, 30 * |error| ≤ c.wMin := by
  induction events generalizing s with
  | nil => simp [AllSmall, secondError]
  | cons ev events ih =>
    cases ev with
    | lost =>
      have hinit : (s.step c grow .lost).2.init = 0 := by
        rw [step_init, h]
        rfl
      rw [AllSmall, secondError, ← ih hinit]
      exact and_iff_right trivial
    | correction e =>
      have hinit : (s.step c grow (.correction e)).2.init = 1 := by
        rw [step_init, h]
        rfl
      have hsmall : s.Small c (.correction e) := fun h1 => absurd (h.symm.trans h1) (by decide)
      rw [AllSmall, and_iff_right hsmall]
      cases events with
      | nil => simp [AllSmall, secondError]
      | cons ev events =>
        rw [allSmall_of_one ev events hinit]
        cases ev with
        | lost => simp [secondError, Small]
        | correction error => simp [secondError, Small, hinit]

/-- What is claimed of a run and its mirror image. -/
structure Alike (c : FlopsyncConstants) (r r' : List (ℤ × ℤ)) : Prop where
  symmetric : Symmetric r r'
  inWindow : ∀ p ∈ r ++ r', InWindow c p.2

/-- **The two runs are treated alike** exactly if the second error, when no packet is lost after the first one, is
so small that the window is the smallest one. -/
theorem run_symmetric_iff {c : FlopsyncConstants} (hc : c = flopsync2 ∨ c = flopsync3) {grow : ℤ → ℤ}
    (hgrow : ∀ dw, 0 ≤ dw → dw ≤ grow dw ∧ grow dw ≤ 2 * dw) {events : List FlopsyncEvent} {r r' : List (ℤ × ℤ)}
    (hr : run c grow (reset c) events = some r) (hr' : run c grow (reset c) (events.map .neg) = some r') :
    Alike c r r' ↔ ∀ error ∈ secondError events, 30 * |error| ≤ 50000 := by
  have hwMin : c.wMin = 50000 := by rcases hc with rfl | rfl <;> rfl
  have hgrow' : ∀ dw, 0 ≤ dw → dw ≤ grow dw := fun dw h => (hgrow dw h).1
  have hneg : (reset c).neg = reset c := by ext <;> simp [reset, neg]
  have hdw : InWindow c (reset c).dw := ⟨c.wMin_lt.le, le_rfl⟩
  have hsym := symmetric_iff_allSmall events hr (hneg.symm ▸ hr')
  rw [← hwMin, ← allSmall_iff grow events (s := reset c) rfl, ← hsym]
  refine ⟨fun h => h.symmetric, fun h => ⟨h, fun p hp => ?_⟩⟩
  rcases List.mem_append.1 hp with hp | hp
  · exact run_inWindow hgrow' events hdw hr p hp
  · exact run_inWindow hgrow' _ hdw hr' p hp

/-- The errors 600 and -90, a lost packet and the error 45. -/
theorem run_symmetric_small :
    Alike flopsync3 [(1200, 6000000), (432, 50000), (432, 85000), (576, 85000)]
      [(-1200, 6000000), (-432, 50000), (-432, 85000), (-576, 85000)] := by
  have hgrow : ∀ dw : ℤ, 0 ≤ dw → dw ≤ dw * 17 / 10 ∧ dw * 17 / 10 ≤ 2 * dw := by omega
  have hr : run flopsync3 (fun dw => dw * 17 / 10) (reset flopsync3)
      [.correction 600, .correction (-90), .lost, .correction 45] =
        some [(1200, 6000000), (432, 50000), (432, 85000), (576, 85000)] := by
    decide +kernel
  have hr' : run flopsync3 (fun dw => dw * 17 / 10) (reset flopsync3)
      [.correction (-600), .correction 90, .lost, .correction (-45)] =
        some [(-1200, 6000000), (-432, 50000), (-432, 85000), (-576, 85000)] := by
    decide +kernel
  exact (run_symmetric_iff (.inr rfl) hgrow hr hr').2 (by simp [secondError])

/-- After an error of zero, errors of 2 μs and -2 μs get windows of 60 μs and 50 μs. -/
theorem not_alike_two_us :
    run flopsync3 (fun dw => dw * 17 / 10) (reset flopsync3) [.correction 0, .correction 2000] =
        some [(0, 6000000), (3744, 60000)] ∧
      run flopsync3 (fun dw => dw * 17 / 10) (reset flopsync3) [.correction 0, .correction (-2000)] =
        some [(0, 6000000), (-3744, 50000)] ∧
      ¬ Alike flopsync3 [(0, 6000000), (3744, 60000)] [(0, 6000000), (-3744, 50000)] := by
  refine ⟨by decide +kernel, by decide +kernel, fun h => ?_⟩
  simpa [Symmetric] using h.symmetric

end Flopsync

end Miosix
