import Mathlib.Algebra.Order.Ring.Nat
import Mathlib.Tactic.Linarith
import Mathlib.Tactic.Ring

/-!
# Extending a wrapping counter

A counter shows the time modulo a period `P`, and a flag says that it wrapped. The higher part of the time is kept
elsewhere, and is one period behind while the flag is set. Reading the counter and the flag takes time.

* `Synced`: the higher part is right, up to one wrap that is pending;
* `Synced.tick`, `Synced.handle`: time passes, and the wrap is added to the higher part;
* **`pendingBit_mem`**: the counter, the flag and again the counter give a time at which they were read;
* **`highLowHigh_mem`**: so do the two halves of a counter, read in the order high, low, high;
* `ClockRead`, `ReadsOk`: the values that were read in the course of time, and that they never decrease.
-/

namespace Lib

variable {P upper now t t₁ t₃ : ℕ} {flag : Bool}

/-! ## The higher part -/

/-- The higher part is that of the time, less one period if and only if a wrap is pending. -/
def Synced (P upper now : ℕ) (flag : Bool) : Prop := upper + (if flag then P else 0) = now / P * P

theorem Synced.dvd (h : Synced P upper now flag) : P ∣ upper := by
  have hdvd : P ∣ now / P * P := Dvd.intro_left _ rfl
  rw [← h] at hdvd
  refine (Nat.dvd_add_left ?_).mp hdvd
  split_ifs <;> simp

theorem Synced.now_eq (h : Synced P upper now flag) : now = upper + (if flag then P else 0) + now % P := by
  rw [h]
  exact (Nat.div_add_mod' _ _).symm

theorem Synced.le (h : Synced P upper now flag) : upper ≤ now := by
  have := h.now_eq
  omega

/-- The time of the next tick, when it wraps the counter and when it does not. -/
theorem succ_div_mul (n P : ℕ) : (n + 1) / P * P = n / P * P + if (n + 1) % P = 0 then P else 0 := by
  rw [Nat.succ_div]
  by_cases h : P ∣ n + 1
  · rw [if_pos h, if_pos (Nat.mod_eq_zero_of_dvd h), Nat.add_mul, Nat.one_mul]
  · rw [if_neg h, if_neg (fun e => h (Nat.dvd_of_mod_eq_zero e)), Nat.add_zero, Nat.add_zero]

/-- One tick, unless it wraps the counter again. -/
theorem Synced.tick (h : Synced P upper now flag) (hlost : (flag && decide ((now + 1) % P = 0)) = false) :
    Synced P upper (now + 1) (flag || decide ((now + 1) % P = 0)) := by
  unfold Synced at *
  rw [succ_div_mul, ← h]
  by_cases hc : (now + 1) % P = 0
  · have : flag = false := by simpa [hc] using hlost
    simp [hc, this]
  · simp [hc]

/-- The pending wrap is added to the higher part. -/
theorem Synced.handle (h : Synced P upper now true) : Synced P (upper + P) now false := by
  unfold Synced at *
  simpa using h

/-! ## Reading -/

/-- **The pending bit.** The counter is read at `t₁` and again at `t₃`, and the flag in between. It is found set
only if the counter has wrapped by `t₃`, and clear only if it had not by `t₁`. -/
theorem pendingBit_mem (hdvd : P ∣ upper) (hle : t₁ ≤ t₃) (hlo : upper ≤ t₁) (hhi : t₃ < upper + 2 * P)
    (hflag : if flag then upper + P ≤ t₃ else t₁ < upper + P) :
    t₁ ≤ upper + t₁ % P + (if flag && decide (t₁ % P ≤ t₃ % P) then P else 0) ∧
      upper + t₁ % P + (if flag && decide (t₁ % P ≤ t₃ % P) then P else 0) ≤ t₃ := by
  have hP : 0 < P := by omega
  obtain ⟨k, rfl⟩ := hdvd
  -- the residue of a time in the period of `upper` and in the next one
  have hmod : ∀ t, P * k ≤ t → t < P * k + P → t % P = t - P * k := by
    intro t h1 h2
    obtain ⟨r, rfl⟩ := Nat.exists_eq_add_of_le h1
    rw [Nat.mul_add_mod, Nat.mod_eq_of_lt (by omega)]
    omega
  have hmod' : ∀ t, P * k + P ≤ t → t < P * k + 2 * P → t % P = t - (P * k + P) := by
    intro t h1 h2
    obtain ⟨r, rfl⟩ := Nat.exists_eq_add_of_le h1
    rw [← Nat.mul_succ, Nat.mul_add_mod, Nat.mod_eq_of_lt (by omega)]
    omega
  cases flag with
  | false =>
    simp only [Bool.false_eq_true, if_false, Bool.false_and] at hflag ⊢
    rw [hmod t₁ hlo hflag]
    omega
  | true =>
    simp only [if_true, Bool.true_and, decide_eq_true_eq] at hflag ⊢
    rw [hmod' t₃ hflag hhi]
    rcases Nat.lt_or_ge t₁ (P * k + P) with h1 | h1
    · rw [hmod t₁ hlo h1]
      split_ifs <;> omega
    · rw [hmod' t₁ h1 (by omega)]
      split_ifs <;> omega

/-- **High, low, high.** The halves of a counter are read at `t₁`, `t₂` and `t₃`, and the low half again at `t₄`,
with less than one period of the low half from the first to the last. The upper half has the period `Q`. -/
theorem highLowHigh_mem {Q t₂ t₄ : ℕ} (h₁₂ : t₁ ≤ t₂) (h₂₃ : t₂ ≤ t₃) (h₃₄ : t₃ ≤ t₄) (hlt : t₄ < t₁ + P) (hQ : 1 < Q) :
    (t₁ / P % Q = t₃ / P % Q → t₁ / P % Q * P + t₂ % P = t₂ % (P * Q)) ∧
      (t₁ / P % Q ≠ t₃ / P % Q → t₃ / P % Q * P + t₄ % P = t₄ % (P * Q)) := by
  have hP : 0 < P := by omega
  have hval : ∀ t : ℕ, t % (P * Q) = t / P % Q * P + t % P := fun t => by
    rw [Nat.mod_mul, mul_comm P, add_comm]
  have m₁₂ : t₁ / P ≤ t₂ / P := Nat.div_le_div_right h₁₂
  have m₂₃ : t₂ / P ≤ t₃ / P := Nat.div_le_div_right h₂₃
  have m₃₄ : t₃ / P ≤ t₄ / P := Nat.div_le_div_right h₃₄
  -- the low half wraps at most once
  have hone : t₄ / P ≤ t₁ / P + 1 := by
    rw [← Nat.add_div_right _ hP]
    exact Nat.div_le_div_right hlt.le
  constructor
  · intro heq
    have hno : t₃ / P ≠ t₁ / P + 1 := by
      intro hc
      rw [hc] at heq
      have := Nat.add_mod (t₁ / P) 1 Q
      rw [Nat.mod_eq_of_lt hQ] at this
      rcases Nat.lt_or_ge (t₁ / P % Q + 1) Q with hl | hl
      · rw [Nat.mod_eq_of_lt hl] at this
        omega
      · have hq : t₁ / P % Q + 1 = Q := by
          have := Nat.mod_lt (t₁ / P) (by omega : 0 < Q)
          omega
        rw [hq, Nat.mod_self] at this
        omega
    rw [hval, show t₂ / P = t₁ / P by omega]
  · intro hne
    have hyes : t₃ / P ≠ t₁ / P := fun hc => hne (by rw [hc])
    rw [hval, show t₄ / P = t₃ / P by omega]

/-! ## The values read in the course of time -/

/-- A value that was read, and when the read began and ended. -/
structure ClockRead where
  start : ℕ
  value : ℕ
  finish : ℕ
deriving DecidableEq

/-- By now, each read has returned a time between its start and its end, and began after the end of the one before. -/
structure ReadsOk (reads : List ClockRead) (now : ℕ) : Prop where
  mem : ∀ r ∈ reads, r.start ≤ r.value ∧ r.value ≤ r.finish
  past : ∀ r ∈ reads, r.finish ≤ now
  ordered : reads.Pairwise fun r r' => r.finish ≤ r'.start

namespace ReadsOk

variable {reads : List ClockRead} {now' : ℕ}

theorem nil (now : ℕ) : ReadsOk [] now := ⟨by simp, by simp, .nil⟩

theorem later (h : ReadsOk reads now) (hle : now ≤ now') : ReadsOk reads now' :=
  ⟨h.mem, fun r hr => (h.past r hr).trans hle, h.ordered⟩

theorem append {v : ℕ} (h : ReadsOk reads now) (hlo : now ≤ v) (hhi : v ≤ now') :
    ReadsOk (reads ++ [⟨now, v, now'⟩]) now' := by
  refine ⟨fun r hr => ?_, fun r hr => ?_, ?_⟩
  · rcases List.mem_append.mp hr with hr | hr
    · exact h.mem r hr
    · obtain rfl := List.mem_singleton.mp hr
      exact ⟨hlo, hhi⟩
  · rcases List.mem_append.mp hr with hr | hr
    · exact (h.past r hr).trans (hlo.trans hhi)
    · obtain rfl := List.mem_singleton.mp hr
      exact le_rfl
  · refine List.pairwise_append.mpr ⟨h.ordered, List.pairwise_singleton _ _, fun r hr r' hr' => ?_⟩
    obtain rfl := List.mem_singleton.mp hr'
    exact h.past r hr

/-- The values never decrease. -/
theorem monotone (h : ReadsOk reads now) : reads.Pairwise fun r r' => r.value ≤ r'.value :=
  h.ordered.imp_of_mem fun {r r'} hr hr' hle => ((h.mem r hr).2.trans hle).trans (h.mem r' hr').1

end ReadsOk

end Lib
