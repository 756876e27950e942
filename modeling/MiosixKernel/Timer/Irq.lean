import MiosixKernel.Timer.Run

/-!
# The os timer: no interrupt is lost or anticipated

The match register holds the low bits of the scheduled tick only, so the match flag is set once in
every timer period and the interrupt routine filters the matches with the software upper bits.

* `Quiet`: time passes and nothing that schedules the interrupt is written;
* `Scheduled`, `Watched`: the registers stand for `M`, and the time is before `M` or the interrupt
  is pending;
* `irqSetIrqTick_watched`, `irqHandler_serves`: the operations, one by one;
* **`irq_not_lost_nor_anticipated`**: every run.
-/

namespace Miosix

namespace TimerAdapter

variable {ω : Type} {bits quirkAdvance : ℕ}

/-! ## Time passing -/

/-- Time passes, and nothing that schedules the interrupt is written. -/
structure Quiet (bits : ℕ) (s s' : TimerAdapter ω) : Prop where
  now_le : s.hw.now ≤ s'.hw.now
  matchReg_eq : s'.hw.matchReg = s.hw.matchReg
  forced_eq : s'.hw.forced = s.hw.forced
  upperIrqTick_eq : s'.upperIrqTick = s.upperIrqTick
  lateIrq_eq : s'.lateIrq = s.lateIrq
  matchFlag_iff : s'.hw.matchFlag = true ↔
    s.hw.matchFlag = true ∨ ∃ m, s.hw.now < m ∧ m ≤ s'.hw.now ∧ m % 2 ^ bits = s.hw.matchReg

theorem Quiet.trans {a b c : TimerAdapter ω} (h : Quiet bits a b) (h' : Quiet bits b c) :
    Quiet bits a c where
  now_le := h.now_le.trans h'.now_le
  matchReg_eq := h'.matchReg_eq.trans h.matchReg_eq
  forced_eq := h'.forced_eq.trans h.forced_eq
  upperIrqTick_eq := h'.upperIrqTick_eq.trans h.upperIrqTick_eq
  lateIrq_eq := h'.lateIrq_eq.trans h.lateIrq_eq
  matchFlag_iff := by
    rw [h'.matchFlag_iff, h.matchFlag_iff, h.matchReg_eq]
    have hab := h.now_le
    have hbc := h'.now_le
    constructor
    · rintro ((hf | ⟨m, h0, h1, h2⟩) | ⟨m, h0, h1, h2⟩)
      · exact .inl hf
      · exact .inr ⟨m, h0, by omega, h2⟩
      · exact .inr ⟨m, by omega, h1, h2⟩
    · rintro (hf | ⟨m, h0, h1, h2⟩)
      · exact .inl (.inl hf)
      · rcases Nat.lt_or_ge b.hw.now m with hlt | hle
        · exact .inr ⟨m, hlt, h1, h2⟩
        · exact .inl (.inr ⟨m, h0, hle, h2⟩)

theorem Waits.quiet {s s' : TimerAdapter ω} (h : Waits bits s s') : Quiet bits s s' := by
  obtain ⟨n, l, rfl⟩ := h
  refine ⟨by simp, by simp, by simp, rfl, rfl, ?_⟩
  rw [HwTimer.matchFlag_elapse_iff, HwTimer.now_elapse]

theorem quiet_irqHandleOverflow (bits : ℕ) (s : TimerAdapter ω) :
    Quiet bits s (s.irqHandleOverflow bits) := by
  have q1 := (waits_wait bits s).quiet
  have q2 := q1.trans (waits_wait bits (s.wait bits)).quiet
  unfold irqHandleOverflow irqGetOverflowFlag
  dsimp only
  split_ifs with ho
  · exact ⟨q2.now_le, q2.matchReg_eq, q2.forced_eq, q2.upperIrqTick_eq, q2.lateIrq_eq,
      q2.matchFlag_iff⟩
  · exact q1

/-! ## A scheduled interrupt -/

/-- The software upper bits and the match register stand for the tick `M`. -/
def Scheduled (bits : ℕ) (s : TimerAdapter ω) (M : ℕ) : Prop :=
  s.upperIrqTick ||| s.hw.matchReg = M ∧ M % 2 ^ bits = s.hw.matchReg

/-- The time is before `M`, or the interrupt is pending. -/
def Watched (s : TimerAdapter ω) (M : ℕ) : Prop :=
  s.hw.now < M ∨ s.hw.matchFlag = true ∨ s.lateIrq = true

theorem Quiet.scheduled {s s' : TimerAdapter ω} (q : Quiet bits s s') {M : ℕ}
    (h : Scheduled bits s M) : Scheduled bits s' M := by
  unfold Scheduled at h ⊢
  rwa [q.upperIrqTick_eq, q.matchReg_eq]

theorem Quiet.watched {s s' : TimerAdapter ω} (q : Quiet bits s s') {M : ℕ}
    (hs : Scheduled bits s M) (h : Watched s M) : Watched s' M := by
  rcases h with h | h | h
  · rcases Nat.lt_or_ge s'.hw.now M with hlt | hle
    · exact .inl hlt
    · exact .inr (.inl (q.matchFlag_iff.mpr (.inr ⟨M, h, hle, hs.2⟩)))
  · exact .inr (.inl (q.matchFlag_iff.mpr (.inl h)))
  · exact .inr (.inr (q.lateIrq_eq.trans h))

theorem upperPart_or_lowerPart (x : ℕ) : upperPart bits x ||| lowerPart bits x = x := by
  rw [upperPart, lowerPart, Nat.and_two_pow_sub_one_eq_mod, Nat.shiftLeft_eq,
    Nat.shiftRight_eq_div_pow, or_eq_add (Dvd.intro_left _ rfl) (Nat.mod_lt _ (by positivity))]
  exact Nat.div_add_mod' x _

/-- A late interrupt was also forced. -/
def LateForced (s : TimerAdapter ω) : Prop := s.lateIrq = true → s.hw.forced = true

/-- **Scheduling**: afterwards the registers stand for the new tick, and it is watched. -/
theorem irqSetIrqTick_watched {s : TimerAdapter ω} (tick : ℕ)
    (hs : s.hw.Synced bits s.upperTimeTick)
    (hl : (s.irqSetIrqTick bits quirkAdvance tick).hw.lost = false) (hf : LateForced s) :
    Scheduled bits (s.irqSetIrqTick bits quirkAdvance tick) (tick + quirkAdvance) ∧
      Watched (s.irqSetIrqTick bits quirkAdvance tick) (tick + quirkAdvance) ∧
      LateForced (s.irqSetIrqTick bits quirkAdvance tick) := by
  unfold irqSetIrqTick at hl ⊢
  dsimp only at hl ⊢
  set s₀ : TimerAdapter ω := { s with upperIrqTick := upperPart bits (tick + quirkAdvance) } with h₀
  set s₁ := s₀.irqSetTimerMatchReg bits (lowerPart bits (tick + quirkAdvance)) with h₁
  have hsch : Scheduled bits s₁ (tick + quirkAdvance) :=
    ⟨upperPart_or_lowerPart _, (Nat.and_two_pow_sub_one_eq_mod _ _).symm⟩
  have q := (waits_irqGetTimeTick bits s₁).quiet
  have hlate : LateForced s₁ := by
    have q0 := (waits_wait bits s₀).quiet
    intro h
    exact q0.forced_eq.trans (hf (q0.lateIrq_eq.symm.trans h))
  split_ifs at hl ⊢ with hle
  · have q' := q.trans (waits_wait bits (s₁.irqGetTimeTick bits).2).quiet
    exact ⟨q'.scheduled hsch, .inr (.inr rfl), fun _ => rfl⟩
  · have hsync : SyncedUntil bits s₁ (s₁.irqGetTimeTick bits).2 := by
      refine .of_lost ?_ hl
      exact (keeps_irqSetTimerMatchReg s₀ _).synced ((keeps_irqGetTimeTick bits s₁).lost hl) hs
    have hnow : s₁.hw.now < tick + quirkAdvance := by
      have := (irqGetTimeTick_mem s₁ hsync).1
      omega
    exact ⟨q.scheduled hsch, q.watched hsch (.inl hnow),
      fun h => q.forced_eq.trans (hlate (q.lateIrq_eq.symm.trans h))⟩

theorem rearmAll_lateForced (rearm : List ℕ) {s : TimerAdapter ω}
    (hs : s.hw.Synced bits s.upperTimeTick) (hf : LateForced s)
    (hl : (TimerSystem.rearmAll bits quirkAdvance rearm s).hw.lost = false) :
    LateForced (TimerSystem.rearmAll bits quirkAdvance rearm s) := by
  induction rearm generalizing s with
  | nil => exact hf
  | cons tick rearm ih =>
    have hl' := (keeps_rearmAll bits quirkAdvance rearm _).lost hl
    obtain ⟨-, -, hf'⟩ := irqSetIrqTick_watched tick hs hl' hf
    exact ih ((keeps_irqSetIrqTick s tick).synced hl' hs) hf' hl

/-- The last tick that is scheduled supersedes the others. -/
theorem rearmAll_watched (rearm : List ℕ) {s : TimerAdapter ω} {tick : ℕ}
    (hlast : rearm.getLast? = some tick) (hs : s.hw.Synced bits s.upperTimeTick)
    (hf : LateForced s) (hl : (TimerSystem.rearmAll bits quirkAdvance rearm s).hw.lost = false) :
    Scheduled bits (TimerSystem.rearmAll bits quirkAdvance rearm s) (tick + quirkAdvance) ∧
      Watched (TimerSystem.rearmAll bits quirkAdvance rearm s) (tick + quirkAdvance) := by
  induction rearm generalizing s with
  | nil => cases hlast
  | cons t rearm ih =>
    have hl' := (keeps_rearmAll bits quirkAdvance rearm _).lost hl
    obtain ⟨h1, h2, hf'⟩ := irqSetIrqTick_watched t hs hl' hf
    cases rearm with
    | nil => cases hlast; exact ⟨h1, h2⟩
    | cons t' rearm =>
      exact ih (by rwa [List.getLast?_cons_cons] at hlast)
        ((keeps_irqSetIrqTick s t).synced hl' hs) hf' hl

/-! ## The interrupt routine -/

/-- The match half has cleared the flag, in the state `s₂`, and read the time `tick`, up to `s₄`. -/
structure MatchRead (bits : ℕ) (s s₂ s₄ : TimerAdapter ω) (tick : ℕ) : Prop where
  clear : s₂ = (s.wait bits).irqClearMatchFlag bits
  tick_eq : (s₂.irqGetTimeTick bits).1 = tick
  waits : Waits bits s₂ s₄
  now_le : s₂.hw.now ≤ tick
  le_now : tick ≤ s₄.hw.now
  synced : s₄.hw.Synced bits s₄.upperTimeTick

namespace MatchRead

variable {s s₂ s₄ : TimerAdapter ω} {tick : ℕ} (h : MatchRead bits s s₂ s₄ tick)
include h

theorem matchReg_eq : s₂.hw.matchReg = s.hw.matchReg := by
  have q := (waits_wait bits s).quiet.trans (waits_wait bits (s.wait bits)).quiet
  exact h.clear ▸ q.matchReg_eq

theorem forced_eq : s₂.hw.forced = s.hw.forced := by
  have q := (waits_wait bits s).quiet.trans (waits_wait bits (s.wait bits)).quiet
  exact h.clear ▸ q.forced_eq

theorem lateIrq_eq : s₄.lateIrq = s.lateIrq := by
  rw [h.waits.quiet.lateIrq_eq, h.clear]
  rfl

theorem scheduled {M : ℕ} (hM : Scheduled bits s M) : Scheduled bits s₂ M := by
  have hup : s₂.upperIrqTick = s.upperIrqTick := h.clear ▸ rfl
  unfold Scheduled
  rwa [hup, h.matchReg_eq]

end MatchRead

/-- What the match half does: nothing, or it reads the time and calls `IRQtimerInterrupt` or not. -/
theorem irqHandleMatch_read {f : ℤ → TimerAdapter ω → TimerAdapter ω}
    (hf : ∀ ns d, Keeps bits d (f ns d)) {s : TimerAdapter ω}
    (hs : s.hw.Synced bits s.upperTimeTick) (hl : (s.irqHandleMatch bits f).2.hw.lost = false) :
    (s.wait bits).hw.matchFlag = false ∧ s.lateIrq = false ∧
        s.irqHandleMatch bits f = (none, s.wait bits) ∨
      ∃ s₂ s₄ tick, MatchRead bits s s₂ s₄ tick ∧
        (tick < s.upperIrqTick ||| s.hw.matchReg ∧ s.lateIrq = false ∧
            s.irqHandleMatch bits f = (none, s₄) ∨
          (s.upperIrqTick ||| s.hw.matchReg ≤ tick ∨ s.lateIrq = true) ∧
            s.irqHandleMatch bits f = (some ⟨tick, s.lateIrq, s₄.hw.now⟩,
              f (s₄.tc.tick2ns tick) { s₄ with lateIrq := false })) := by
  rcases irqHandleMatch_cases bits f s with h | ⟨s₂, s₃, s₄, tick, hs₂, h3, hs₄, h⟩
  · exact .inl h
  · have w3 : Waits bits s₂ s₃ := by
      have := waits_irqGetTimeTick bits s₂
      rwa [h3] at this
    have w34 : Waits bits s₃ s₄ := hs₄ ▸ waits_wait bits s₃
    have k2 : Keeps bits s s₂ :=
      hs₂ ▸ (waits_wait bits s).keeps.trans (keeps_irqClearMatchFlag (s.wait bits))
    -- whatever the outcome, no overflow is lost up to `s₄`
    have hl4 : s₄.hw.lost = false := by
      rcases h with ⟨-, -, h⟩ | ⟨-, h⟩ <;> rw [h] at hl
      · exact hl
      · exact (hf _ { s₄ with lateIrq := false }).lost hl
    have hl3 := w34.keeps.lost hl4
    have hs2 := k2.synced (w3.keeps.lost hl3) hs
    have hmem := irqGetTimeTick_mem s₂ (by rw [h3]; exact .of_lost hs2 hl3)
    rw [h3] at hmem
    have hread : MatchRead bits s s₂ s₄ tick := ⟨hs₂, by rw [h3], w3.trans w34, hmem.1,
      hmem.2.trans w34.keeps.now_le, (w3.trans w34).keeps.synced hl4 hs2⟩
    have hup : s₄.upperIrqTick = s.upperIrqTick :=
      hread.waits.quiet.upperIrqTick_eq.trans (hs₂ ▸ rfl)
    have hreg : s₄.hw.matchReg = s.hw.matchReg :=
      hread.waits.quiet.matchReg_eq.trans hread.matchReg_eq
    refine .inr ⟨s₂, s₄, tick, hread, ?_⟩
    rw [← hup, ← hreg, ← hread.lateIrq_eq]
    exact h

/-- What the interrupt routine owes to a scheduled tick `M`, with the call of `IRQtimerInterrupt` that
it made: without a call `M` is still watched, and a call that is not late is not early either. -/
def Serves (bits quirkAdvance : ℕ) (rearm : List ℕ) (s s' : TimerAdapter ω) :
    Option TimerCall → Prop
  | none => ∀ M, Scheduled bits s M → Scheduled bits s' M ∧ (Watched s M → Watched s' M)
  | some c =>
    c.tick ≤ c.time ∧ (c.late = false → ∀ M, Scheduled bits s M → M ≤ c.tick) ∧
      (∀ tick ∈ rearm.getLast?,
        Scheduled bits s' (tick + quirkAdvance) ∧ Watched s' (tick + quirkAdvance)) ∧
      (rearm = [] → ∀ M, Scheduled bits s M → Scheduled bits s' M ∧ (c.time < M → Watched s' M))

theorem Serves.quiet {rearm : List ℕ} {s s' s'' : TimerAdapter ω} {call : Option TimerCall}
    (h : Serves bits quirkAdvance rearm s s' call) (q : Quiet bits s' s'') :
    Serves bits quirkAdvance rearm s s'' call := by
  cases call with
  | none =>
    intro M hM
    obtain ⟨h1, h2⟩ := h M hM
    exact ⟨q.scheduled h1, fun hw => q.watched h1 (h2 hw)⟩
  | some c =>
    obtain ⟨h1, h2, h3, h4⟩ := h
    refine ⟨h1, h2, fun tick ht => ?_, fun hr M hM => ?_⟩
    · obtain ⟨h5, h6⟩ := h3 tick ht
      exact ⟨q.scheduled h5, q.watched h5 h6⟩
    · obtain ⟨h5, h6⟩ := h4 hr M hM
      exact ⟨q.scheduled h5, fun hc => q.watched h5 (h6 hc)⟩

/-- **The match half** serves the scheduled tick, and leaves no late interrupt that is not forced. -/
theorem irqHandleMatch_serves {s : TimerAdapter ω} {rearm : List ℕ}
    (hs : s.hw.Synced bits s.upperTimeTick)
    (hl : (s.irqHandleMatch bits
      fun _ d => TimerSystem.rearmAll bits quirkAdvance rearm d).2.hw.lost = false) :
    Serves bits quirkAdvance rearm s
        (s.irqHandleMatch bits fun _ d => TimerSystem.rearmAll bits quirkAdvance rearm d).2
        (s.irqHandleMatch bits fun _ d => TimerSystem.rearmAll bits quirkAdvance rearm d).1 ∧
      LateForced
        (s.irqHandleMatch bits fun _ d => TimerSystem.rearmAll bits quirkAdvance rearm d).2 := by
  have hf := fun (_ : ℤ) d => keeps_rearmAll (ω := ω) bits quirkAdvance rearm d
  rcases irqHandleMatch_read hf hs hl with ⟨-, hlate, h⟩ | ⟨s₂, s₄, tick, hr, h⟩
  · have q := (waits_wait bits s).quiet
    rw [h]
    refine ⟨fun M hM => ⟨q.scheduled hM, q.watched hM⟩, fun hcon => ?_⟩
    rw [q.lateIrq_eq, hlate] at hcon
    cases hcon
  · have q := hr.waits.quiet
    rcases h with ⟨hlt, hno, h⟩ | ⟨hge, h⟩
    · rw [h]
      refine ⟨fun M hM => ⟨q.scheduled (hr.scheduled hM), fun _ => ?_⟩, fun hcon => ?_⟩
      · -- the flag was cleared before `M`, so a match at `M` sets it again
        have hnow : s₂.hw.now < M := by
          rw [← hM.1]
          exact lt_of_le_of_lt hr.now_le hlt
        exact q.watched (hr.scheduled hM) (.inl hnow)
      · rw [hr.lateIrq_eq, hno] at hcon
        cases hcon
    · rw [h] at hl ⊢
      have hlf : LateForced { s₄ with lateIrq := false } := fun hcon => by cases hcon
      refine ⟨⟨hr.le_now, fun hno M hM => ?_, fun t ht => ?_, fun hnil M hM => ?_⟩, ?_⟩
      · rcases hge with hge | hge
        · exact hM.1 ▸ hge
        · rw [hge] at hno
          cases hno
      · exact rearmAll_watched rearm ht hr.synced hlf hl
      · subst hnil
        exact ⟨q.scheduled (hr.scheduled hM), fun hlt => .inl hlt⟩
      · exact rearmAll_lateForced rearm hr.synced hlf hl

/-- **The interrupt routine** does too. -/
theorem irqHandler_serves {s : TimerAdapter ω} {rearm : List ℕ}
    (hs : s.hw.Synced bits s.upperTimeTick)
    (hl : (s.irqHandler bits
      fun _ d => TimerSystem.rearmAll bits quirkAdvance rearm d).2.hw.lost = false) :
    Serves bits quirkAdvance rearm s
        (s.irqHandler bits fun _ d => TimerSystem.rearmAll bits quirkAdvance rearm d).2
        (s.irqHandler bits fun _ d => TimerSystem.rearmAll bits quirkAdvance rearm d).1 ∧
      LateForced
        (s.irqHandler bits fun _ d => TimerSystem.rearmAll bits quirkAdvance rearm d).2 := by
  set s₀ : TimerAdapter ω := s.setHw fun hw => { hw with forced := false } with hs₀
  set r := s₀.irqHandleMatch bits fun _ d => TimerSystem.rearmAll bits quirkAdvance rearm d with hr
  have hl' : r.2.hw.lost = false := (keeps_irqHandleOverflow bits r.2).lost hl
  obtain ⟨h1, h2⟩ := irqHandleMatch_serves (s := s₀) hs hl'
  have q := quiet_irqHandleOverflow bits r.2
  refine ⟨h1.quiet q, fun hlate => ?_⟩
  exact q.forced_eq.trans (h2 (q.lateIrq_eq.symm.trans hlate))

end TimerAdapter

namespace TimerSystem

variable {ω : Type} {bits quirkAdvance : ℕ}

/-! ## Runs -/

/-- The scheduled tick stands in the registers, is watched until `IRQtimerInterrupt` is called for it,
and was never called for early. -/
structure IrqOk (bits quirkAdvance : ℕ) (s : TimerSystem ω) : Prop where
  synced : s.dev.hw.Synced bits s.dev.upperTimeTick
  lateForced : s.dev.LateForced
  scheduled : ∀ a ∈ s.armed, s.dev.Scheduled bits (a + quirkAdvance)
  watched : ∀ a ∈ s.armed, s.served = false → s.dev.Watched (a + quirkAdvance)
  calls : ∀ c ∈ s.calls, c.1.late = false → ∀ a ∈ c.2, a ≤ c.1.tick ∧ c.1.tick ≤ c.1.time

/-- Time passing. -/
theorem IrqOk.quiet {s : TimerSystem ω} (h : s.IrqOk bits quirkAdvance) {d : TimerAdapter ω}
    {reads : List ℕ} (q : s.dev.Quiet bits d) (hs : d.hw.Synced bits d.upperTimeTick) :
    IrqOk bits quirkAdvance { s with dev := d, reads := reads } where
  synced := hs
  lateForced hl := q.forced_eq.trans (h.lateForced (q.lateIrq_eq.symm.trans hl))
  scheduled a ha := q.scheduled (h.scheduled a ha)
  watched a ha hv := q.watched (h.scheduled a ha) (h.watched a ha hv)
  calls := h.calls

theorem IrqOk.irq {s : TimerSystem ω} (h : s.IrqOk bits quirkAdvance) (rearm delays : List ℕ)
    (hl : (s.step bits quirkAdvance (.irq rearm delays)).dev.hw.lost = false) :
    (s.step bits quirkAdvance (.irq rearm delays)).IrqOk bits quirkAdvance := by
  have hsync := (keeps_step bits quirkAdvance s (.irq rearm delays)).synced hl h.synced
  simp only [TimerSystem.step] at hl hsync ⊢
  split at hl
  · rename_i hc
    simp only [hc] at hsync ⊢
    obtain ⟨hv, hlf⟩ := TimerAdapter.irqHandler_serves
      (s := { s.dev with delays := delays }) h.synced hl
    rw [hc] at hv
    exact ⟨hsync, hlf, fun a ha => (hv _ (h.scheduled a ha)).1,
      fun a ha hs => (hv _ (h.scheduled a ha)).2 (h.watched a ha hs), h.calls⟩
  · rename_i c hc
    simp only [hc] at hsync ⊢
    obtain ⟨hv, hlf⟩ := TimerAdapter.irqHandler_serves
      (s := { s.dev with delays := delays }) h.synced hl
    rw [hc] at hv
    obtain ⟨htime, hearly, hlast, hnil⟩ := hv
    -- what is scheduled afterwards: the last tick that the call scheduled, or the old one
    have hcases : ∀ a ∈ (rearm.getLast?).or s.armed,
        a ∈ rearm.getLast? ∨ rearm = [] ∧ a ∈ s.armed := by
      intro a ha
      cases rearm with
      | nil => exact .inr ⟨rfl, ha⟩
      | cons t l => rw [List.getLast?_cons] at ha ⊢; exact .inl ha
    refine ⟨hsync, hlf, fun a ha => ?_, fun a ha hs => ?_, fun d hd hno a ha => ?_⟩
    · rcases hcases a ha with hr | ⟨hr, hr'⟩
      · exact (hlast a hr).1
      · exact (hnil hr _ (h.scheduled a hr')).1
    · rcases hcases a ha with hr | ⟨hr, hr'⟩
      · exact (hlast a hr).2
      · refine (hnil hr _ (h.scheduled a hr')).2 ?_
        have hlt : ¬ a ≤ c.time := by
          intro hle
          simp only [noteCall, hr, List.isEmpty_nil, Bool.true_and, Bool.or_eq_false_iff,
            decide_eq_false_iff_not] at hs
          exact hs.2 ⟨a, hr', hle⟩
        omega
    · rcases List.mem_append.mp hd with hd | hd
      · exact h.calls d hd hno a ha
      · rw [List.mem_singleton.mp hd] at hno ha ⊢
        have := hearly hno _ (h.scheduled a ha)
        exact ⟨by dsimp only; omega, htime⟩

theorem IrqOk.step {s : TimerSystem ω} (h : s.IrqOk bits quirkAdvance) (e : TimerEvent)
    (hl : (s.step bits quirkAdvance e).dev.hw.lost = false) :
    (s.step bits quirkAdvance e).IrqOk bits quirkAdvance := by
  have hsync := (keeps_step bits quirkAdvance s e).synced hl h.synced
  cases e with
  | elapse n =>
    have w : s.dev.Waits bits (s.dev.setHw (HwTimer.elapse bits n)) := ⟨n, s.dev.delays, rfl⟩
    exact h.quiet w.quiet hsync
  | read delays =>
    have w0 : s.dev.Waits bits { s.dev with delays := delays } := ⟨0, delays, rfl⟩
    exact h.quiet (w0.trans (TimerAdapter.waits_irqGetTimeTick bits _)).quiet hsync
  | setIrq tick delays =>
    obtain ⟨h1, h2, h3⟩ := TimerAdapter.irqSetIrqTick_watched
      (s := { s.dev with delays := delays }) tick h.synced hl h.lateForced
    refine ⟨hsync, h3, fun a ha => ?_, fun a ha _ => ?_, h.calls⟩
    · cases ha; exact h1
    · cases ha; exact h2
  | irq rearm delays => exact h.irq rearm delays hl

theorem IrqOk.run (es : List TimerEvent) {s : TimerSystem ω} (h : s.IrqOk bits quirkAdvance)
    (hl : (s.run bits quirkAdvance es).dev.hw.lost = false) :
    (s.run bits quirkAdvance es).IrqOk bits quirkAdvance := by
  induction es generalizing s with
  | nil => exact h
  | cons e es ih => exact ih (h.step e ((keeps_run es _).lost hl)) hl

/-- **No interrupt is lost or anticipated.** In every run that loses no overflow, once the true time
reaches `tick + quirkAdvance`, and until `IRQtimerInterrupt` is called at `tick` or later, the match
flag or `lateIrq` is set and the interrupt is pending. `IRQtimerInterrupt` is called early only with
`lateIrq` set. -/
theorem irq_not_lost_nor_anticipated (bits quirkAdvance : ℕ) (s : TimerSystem ω)
    (es : List TimerEvent) (hs : s.dev.hw.Synced bits s.dev.upperTimeTick)
    (harmed : s.armed = none) (hlate : s.dev.lateIrq = false) (hcalls : s.calls = [])
    (hl : (s.run bits quirkAdvance es).dev.hw.lost = false) :
    (∀ tick ∈ (s.run bits quirkAdvance es).armed, (s.run bits quirkAdvance es).served = false →
        tick + quirkAdvance ≤ (s.run bits quirkAdvance es).dev.hw.now →
        ((s.run bits quirkAdvance es).dev.hw.matchFlag = true ∨
            (s.run bits quirkAdvance es).dev.lateIrq = true) ∧
          (s.run bits quirkAdvance es).dev.hw.pending = true) ∧
      ∀ c ∈ (s.run bits quirkAdvance es).calls, c.1.late = false →
        ∀ tick ∈ c.2, tick ≤ c.1.tick ∧ c.1.tick ≤ c.1.time := by
  have h0 : s.IrqOk bits quirkAdvance := by
    refine ⟨hs, fun h => ?_, fun a ha => ?_, fun a ha => ?_, fun c hc => ?_⟩
    · rw [hlate] at h; cases h
    · rw [harmed] at ha; cases ha
    · rw [harmed] at ha; cases ha
    · rw [hcalls] at hc; cases hc
  have h := h0.run es hl
  refine ⟨fun tick ht hv hnow => ?_, h.calls⟩
  rcases h.watched tick ht hv with hlt | hm | hlt
  · omega
  · exact ⟨.inl hm, by simp [HwTimer.pending, hm]⟩
  · exact ⟨.inr hlt, by simp [HwTimer.pending, h.lateForced hlt]⟩

/-- An 8 bit timer that just started. -/
def atStart : TimerSystem Unit where
  dev :=
    { hw := ⟨0, 0, false, false, false, false⟩, delays := [], upperTimeTick := 0, upperIrqTick := 0,
      lateIrq := false, tc := .ofDefault, os := () }
  armed := none
  served := false
  reads := []
  calls := []

/-- The lower bits of tick 300 match once in the first timer period, where the interrupt routine
filters the match, and then again at 300, where the interrupt is pending. -/
theorem irq_not_lost_nor_anticipated_atStart :
    (run 8 0 atStart [.setIrq 300 [], .elapse 50, .irq [] [], .elapse 206, .irq [] [],
      .elapse 44]).dev.hw.pending = true := by
  have h := irq_not_lost_nor_anticipated 8 0 atStart
    [.setIrq 300 [], .elapse 50, .irq [] [], .elapse 206, .irq [] [], .elapse 44]
    (by simp [HwTimer.Synced, Lib.Synced, atStart]) rfl rfl rfl (by decide +kernel)
  exact (h.1 300 (by decide +kernel) (by decide +kernel) (by decide +kernel)).2

end TimerSystem

end Miosix
