import MiosixKernel.Timer.Model
import MiosixKernel.Lib.PendingBit

/-!
# The os timer: reading the time

* what time passing does to the hardware: `now_elapse`, `matchFlag_elapse_iff`, `Synced.elapse`;
* `Synced`: the software upper bits are right, up to one pending overflow;
* **`irqGetTimeTick_mem`**: the value read lies between the true time at the start of the read and
  the true time at its end.
-/

namespace Miosix

namespace HwTimer

variable {bits : ℕ}

/-! ## Time passing -/

theorem elapse_succ (n : ℕ) (hw : HwTimer) :
    hw.elapse bits (n + 1) = (hw.elapse bits n).tick bits := Function.iterate_succ_apply' _ n hw

theorem elapse_add (m n : ℕ) (hw : HwTimer) :
    (hw.elapse bits m).elapse bits n = hw.elapse bits (m + n) := by
  rw [elapse, elapse, elapse, ← Function.iterate_add_apply, add_comm]

@[simp] theorem now_elapse (n : ℕ) (hw : HwTimer) : (hw.elapse bits n).now = hw.now + n := by
  induction n with
  | zero => rfl
  | succ n ih => rw [elapse_succ, tick]; dsimp only; omega

@[simp] theorem matchReg_elapse (n : ℕ) (hw : HwTimer) :
    (hw.elapse bits n).matchReg = hw.matchReg := by
  induction n with
  | zero => rfl
  | succ n ih => rw [elapse_succ]; exact ih

@[simp] theorem forced_elapse (n : ℕ) (hw : HwTimer) : (hw.elapse bits n).forced = hw.forced := by
  induction n with
  | zero => rfl
  | succ n ih => rw [elapse_succ]; exact ih

theorem overflowFlag_elapse (n : ℕ) {hw : HwTimer} (h : hw.overflowFlag = true) :
    (hw.elapse bits n).overflowFlag = true := by
  induction n with
  | zero => exact h
  | succ n ih => rw [elapse_succ, tick]; simp [ih]

theorem lost_elapse (n : ℕ) {hw : HwTimer} (h : (hw.elapse bits n).lost = false) :
    hw.lost = false := by
  induction n with
  | zero => exact h
  | succ n ih =>
    rw [elapse_succ, tick] at h
    simp only [Bool.or_eq_false_iff] at h
    exact ih h.1

/-- The match flag is set once the time passes a tick that the match register stands for. -/
theorem matchFlag_elapse_iff (n : ℕ) (hw : HwTimer) :
    (hw.elapse bits n).matchFlag = true ↔
      hw.matchFlag = true ∨ ∃ m, hw.now < m ∧ m ≤ hw.now + n ∧ m % 2 ^ bits = hw.matchReg := by
  induction n with
  | zero =>
    refine ⟨.inl, fun h => ?_⟩
    rcases h with h | ⟨m, h0, h1, -⟩
    · exact h
    · omega
  | succ n ih =>
    rw [elapse_succ, tick]
    simp only [Bool.or_eq_true, decide_eq_true_eq, ih, now_elapse, matchReg_elapse]
    constructor
    · rintro ((h | ⟨m, h0, h1, h2⟩) | h)
      · exact .inl h
      · exact .inr ⟨m, h0, by omega, h2⟩
      · exact .inr ⟨hw.now + n + 1, by omega, by omega, h⟩
    · rintro (h | ⟨m, h0, h1, h2⟩)
      · exact .inl (.inl h)
      · rcases Nat.lt_or_ge (hw.now + n) m with hlt | hle
        · have : hw.now + n + 1 = m := by omega
          exact .inr (this ▸ h2)
        · exact .inl (.inr ⟨m, h0, hle, h2⟩)

/-! ## The software upper bits -/

/-- The upper bits `upper` are those of the true time, less one timer period if and only if an
overflow is pending. -/
def Synced (bits upper : ℕ) (hw : HwTimer) : Prop := Lib.Synced (2 ^ bits) upper hw.now hw.overflowFlag

theorem counter_lt (bits : ℕ) (hw : HwTimer) : hw.counter bits < 2 ^ bits := Nat.mod_lt _ (by positivity)

theorem Synced.tick {upper : ℕ} {hw : HwTimer} (h : Synced bits upper hw)
    (hw' : (hw.overflowFlag && decide ((hw.now + 1) % 2 ^ bits = 0)) = false) :
    Synced bits upper (hw.tick bits) := Lib.Synced.tick h hw'

/-- No overflow was lost, so the upper bits are still right. -/
theorem Synced.elapse {upper : ℕ} {hw : HwTimer} (h : Synced bits upper hw) (n : ℕ)
    (hl : (hw.elapse bits n).lost = false) : Synced bits upper (hw.elapse bits n) := by
  induction n with
  | zero => exact h
  | succ n ih =>
    rw [elapse_succ] at hl ⊢
    simp only [HwTimer.tick, Bool.or_eq_false_iff] at hl
    exact (ih hl.1).tick hl.2

/-- Fewer than `2 ^ bits` ticks passed since the pending wrap, which was at `upper + 2 ^ bits`, so the
upper bits are still right. -/
theorem Synced.elapse_of_lt {upper : ℕ} {hw : HwTimer} (h : Synced bits upper hw) (n : ℕ)
    (hn : hw.now + n < upper + 2 * 2 ^ bits) : Synced bits upper (hw.elapse bits n) := by
  induction n with
  | zero => exact h
  | succ n ih =>
    rw [elapse_succ]
    refine (ih (by omega)).tick ?_
    by_contra hc
    simp only [Bool.not_eq_false, Bool.and_eq_true, decide_eq_true_eq, now_elapse] at hc
    have hup := ih (by omega)
    rw [Synced, Lib.Synced, if_pos hc.1, now_elapse] at hup
    have hdiv := Lib.succ_div_mul (hw.now + n) (2 ^ bits)
    rw [if_pos hc.2] at hdiv
    have := Nat.div_add_mod' (hw.now + n + 1) (2 ^ bits)
    omega

end HwTimer

namespace TimerAdapter

variable {ω : Type} {bits : ℕ}

/-- `s'` is `s` after some time, with nothing written in between. -/
def Waits (bits : ℕ) (s s' : TimerAdapter ω) : Prop :=
  ∃ n l, s' = { s with hw := s.hw.elapse bits n, delays := l }

theorem Waits.refl (s : TimerAdapter ω) : Waits bits s s := ⟨0, s.delays, rfl⟩

theorem Waits.trans {a b c : TimerAdapter ω} (h : Waits bits a b) (h' : Waits bits b c) :
    Waits bits a c := by
  obtain ⟨m, l, rfl⟩ := h
  obtain ⟨n, l', rfl⟩ := h'
  exact ⟨m + n, l', by rw [HwTimer.elapse_add]⟩

theorem waits_wait (bits : ℕ) (s : TimerAdapter ω) : Waits bits s (s.wait bits) := ⟨_, _, rfl⟩

/-- Setting the low bits of a multiple of `2 ^ bits` adds them. -/
theorem or_eq_add {u c : ℕ} (hu : 2 ^ bits ∣ u) (hc : c < 2 ^ bits) : u ||| c = u + c := by
  obtain ⟨k, rfl⟩ := hu
  exact (Nat.two_pow_add_eq_or_of_lt hc k).symm

/-- The outcomes of a read: no overflow, an overflow before the first read, or one in between. -/
theorem irqGetTimeTick_cases (bits : ℕ) (s : TimerAdapter ω) :
    ((s.wait bits).wait bits).hw.overflowFlag = false ∧
        s.irqGetTimeTick bits =
          (s.upperTimeTick ||| (s.wait bits).hw.counter bits, (s.wait bits).wait bits) ∨
      ((s.wait bits).wait bits).hw.overflowFlag = true ∧
        (s.wait bits).hw.counter bits ≤ (((s.wait bits).wait bits).wait bits).hw.counter bits ∧
        s.irqGetTimeTick bits = ((s.upperTimeTick ||| (s.wait bits).hw.counter bits) + 2 ^ bits,
          ((s.wait bits).wait bits).wait bits) ∨
      ((s.wait bits).wait bits).hw.overflowFlag = true ∧
        (((s.wait bits).wait bits).wait bits).hw.counter bits < (s.wait bits).hw.counter bits ∧
        s.irqGetTimeTick bits = (s.upperTimeTick ||| (s.wait bits).hw.counter bits,
          ((s.wait bits).wait bits).wait bits) := by
  unfold irqGetTimeTick irqGetTimerCounter irqGetOverflowFlag
  dsimp only
  by_cases ho : ((s.wait bits).wait bits).hw.overflowFlag = true
  · rw [if_pos ho]
    by_cases hc : (s.wait bits).hw.counter bits ≤
        (((s.wait bits).wait bits).wait bits).hw.counter bits
    · exact .inr (.inl ⟨ho, hc, if_pos hc⟩)
    · exact .inr (.inr ⟨ho, not_le.mp hc, if_neg hc⟩)
  · exact .inl ⟨by simpa using ho, if_neg ho⟩

/-- A read writes nothing. -/
theorem waits_irqGetTimeTick (bits : ℕ) (s : TimerAdapter ω) :
    Waits bits s (s.irqGetTimeTick bits).2 := by
  have h1 := waits_wait bits s
  have h2 := h1.trans (waits_wait bits (s.wait bits))
  have h3 := h2.trans (waits_wait bits ((s.wait bits).wait bits))
  rcases irqGetTimeTick_cases bits s with ⟨-, h⟩ | ⟨-, -, h⟩ | ⟨-, -, h⟩ <;> rw [h]
  exacts [h2, h3, h3]

/-- The upper bits stay right during a read. -/
def SyncedUntil (bits : ℕ) (s s' : TimerAdapter ω) : Prop :=
  ∀ t, Waits bits s t → Waits bits t s' → t.hw.Synced bits s.upperTimeTick

/-- The counter was read at `a` and at `c`, and the flag in between, when it was set. -/
theorem mem_of_overflow {s a b c : TimerAdapter ω} (w1 : Waits bits s a) (w2 : Waits bits a b)
    (w3 : Waits bits b c) (n2 : a.hw.now ≤ b.hw.now) (n3 : b.hw.now ≤ c.hw.now)
    (ho : c.hw.overflowFlag = true) (hs : SyncedUntil bits s c) :
    a.hw.now ≤ (s.upperTimeTick ||| a.hw.counter bits) +
        (if a.hw.counter bits ≤ c.hw.counter bits then 2 ^ bits else 0) ∧
      (s.upperTimeTick ||| a.hw.counter bits) +
        (if a.hw.counter bits ≤ c.hw.counter bits then 2 ^ bits else 0) ≤ c.hw.now := by
  have s1 := hs _ w1 (w2.trans w3)
  have s3 := hs _ ((w1.trans w2).trans w3) (Waits.refl _)
  have e3 := Lib.Synced.now_eq s3
  have c3 := HwTimer.counter_lt bits c.hw
  rw [HwTimer.counter] at c3
  rw [ho, if_pos rfl] at e3
  have hm := @Lib.pendingBit_mem _ _ _ _ true (Lib.Synced.dvd s1) (n2.trans n3) (Lib.Synced.le s1)
    (by omega) (by rw [if_pos rfl]; omega)
  simp only [Bool.true_and, decide_eq_true_eq] at hm
  rw [or_eq_add (Lib.Synced.dvd s1) (HwTimer.counter_lt bits a.hw)]
  exact hm

/-- **The pending bit trick.** While the upper bits stay right, the value read lies between the true
time at the start and the true time at the end. -/
theorem irqGetTimeTick_mem (s : TimerAdapter ω)
    (hs : SyncedUntil bits s (s.irqGetTimeTick bits).2) :
    s.hw.now ≤ (s.irqGetTimeTick bits).1 ∧
      (s.irqGetTimeTick bits).1 ≤ (s.irqGetTimeTick bits).2.hw.now := by
  have w1 := waits_wait bits s
  have w2 := waits_wait bits (s.wait bits)
  have w3 := waits_wait bits ((s.wait bits).wait bits)
  have n1 : s.hw.now ≤ (s.wait bits).hw.now := by simp [wait]
  have n2 : (s.wait bits).hw.now ≤ ((s.wait bits).wait bits).hw.now := by simp [wait]
  have n3 : ((s.wait bits).wait bits).hw.now ≤ (((s.wait bits).wait bits).wait bits).hw.now := by
    simp [wait]
  have c1 := HwTimer.counter_lt bits (s.wait bits).hw
  rcases irqGetTimeTick_cases bits s with ⟨ho, h⟩ | ⟨ho, hc, h⟩ | ⟨ho, hc, h⟩ <;>
    rw [h] at hs ⊢ <;> dsimp only at hs ⊢
  · have s1 := hs _ w1 w2
    have o1 : (s.wait bits).hw.overflowFlag = false := by
      by_contra hcon
      have o2 : ((s.wait bits).wait bits).hw.overflowFlag = true :=
        HwTimer.overflowFlag_elapse _ (by simpa using hcon)
      exact Bool.false_ne_true (ho.symm.trans o2)
    have e1 := Lib.Synced.now_eq s1
    rw [o1, if_neg Bool.false_ne_true, Nat.add_zero] at e1
    rw [or_eq_add (Lib.Synced.dvd s1) c1, HwTimer.counter, ← e1]
    exact ⟨n1, n2⟩
  · have hm := mem_of_overflow w1 w2 w3 n2 n3 (HwTimer.overflowFlag_elapse _ ho) hs
    rw [if_pos hc] at hm
    exact ⟨n1.trans hm.1, hm.2⟩
  · have hm := mem_of_overflow w1 w2 w3 n2 n3 (HwTimer.overflowFlag_elapse _ ho) hs
    rw [if_neg (not_le.mpr hc), Nat.add_zero] at hm
    exact ⟨n1.trans hm.1, hm.2⟩

/-- Fewer than `2 ^ bits` ticks pass from the pending wrap, at `upperTimeTick + 2 ^ bits`, to the end. -/
theorem SyncedUntil.of_lt {s s' : TimerAdapter ω} (h : s.hw.Synced bits s.upperTimeTick)
    (hlt : s'.hw.now < s.upperTimeTick + 2 * 2 ^ bits) : SyncedUntil bits s s' := by
  rintro t ⟨m, l, rfl⟩ ⟨n, l', rfl⟩
  simp only [HwTimer.now_elapse] at hlt
  exact h.elapse_of_lt m (by omega)

/-- No overflow is lost until the end. -/
theorem SyncedUntil.of_lost {s s' : TimerAdapter ω} (h : s.hw.Synced bits s.upperTimeTick)
    (hl : s'.hw.lost = false) : SyncedUntil bits s s' := by
  rintro t ⟨m, l, rfl⟩ ⟨n, l', rfl⟩
  exact h.elapse m (HwTimer.lost_elapse n hl)

end TimerAdapter

end Miosix
