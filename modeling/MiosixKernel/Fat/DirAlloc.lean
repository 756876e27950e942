import MiosixKernel.Fat.DirRun

/-!
# Entries for a new name

* `DirTable.Room`: enough blank entries in a row, up to the entry `i`;
* `allocLoop_looks`: the loop, which knows how many entries before the one it is at are blank;
* **`dirAlloc_first`**: the first room is found, or there is none in a table that can not grow.
-/

namespace Miosix

open Lib Volume DirTable

/-- An entry that `dir_alloc` may take. -/
def IsBlank (e : DirEntry) : Prop := e 0 = deletedMark ∨ e 0 = 0

namespace DirTable

variable {T : DirTable} {mem : ℕ → UInt8} {i n nent : ℕ}

/-- The `n` entries up to `i` are blank. -/
def Room (T : DirTable) (mem : ℕ → UInt8) (n i : ℕ) : Prop := n ≤ i + 1 ∧ ∀ k, i < k + n → k ≤ i → IsBlank (T.slot mem k)

/-- The `n` entries before `i` are blank, and no more than these. -/
def Blanks (T : DirTable) (mem : ℕ → UInt8) (n i : ℕ) : Prop :=
  n ≤ i ∧ (∀ k, i ≤ k + n → k < i → IsBlank (T.slot mem k)) ∧ (n < i → ¬ IsBlank (T.slot mem (i - n - 1)))

theorem Blanks.zero : T.Blanks mem 0 0 :=
  ⟨le_rfl, fun _ _ hk => absurd hk (Nat.not_lt_zero _), fun h => absurd h (lt_irrefl 0)⟩

theorem Blanks.blank (h : T.Blanks mem n i) (hb : IsBlank (T.slot mem i)) : T.Blanks mem (n + 1) (i + 1) := by
  obtain ⟨hle, hall, hmax⟩ := h
  refine ⟨Nat.succ_le_succ hle, fun k hge hlt => ?_, fun hlt => ?_⟩
  · rcases Nat.eq_or_lt_of_le (Nat.le_of_lt_succ hlt) with rfl | hk
    · exact hb
    · exact hall k (by omega) hk
  · rw [show i + 1 - (n + 1) - 1 = i - n - 1 by omega]
    exact hmax (by omega)

theorem Blanks.used (hb : ¬ IsBlank (T.slot mem i)) : T.Blanks mem 0 (i + 1) :=
  ⟨Nat.zero_le _, fun _ hge hlt => absurd hge (by omega), fun _ => hb⟩

/-- There is room up to the entry when the blank ones before it are just enough. -/
theorem Blanks.room (h : T.Blanks mem n i) (hb : IsBlank (T.slot mem i)) : T.Room mem (n + 1) i := by
  refine ⟨Nat.succ_le_succ h.1, fun k hlt hle => ?_⟩
  rcases Nat.eq_or_lt_of_le hle with rfl | hk
  · exact hb
  · exact h.2.1 k (by omega) hk

/-- There is no room for more than the blank entries. -/
theorem Blanks.le_of_room (h : T.Blanks mem n i) (hr : T.Room mem nent i) : nent ≤ n + 1 := by
  by_contra hlt
  obtain ⟨hle, hall⟩ := hr
  exact h.2.2 (by omega) (hall (i - n - 1) (by omega) (by omega))

end DirTable

namespace OpenDir

variable {d d' : OpenDir} {T : DirTable} {others : List (List ℕ)} {i n nent : ℕ} {N : ℕ} {mem : ℕ → UInt8}
  {m : DirCode Unit} {r r' e : FRESULT}

theorem instead_ok (hm : m d = some (.ok (), d')) (hr : r ≠ .FR_OK) : instead r r' m d = some (.ok (), d') := by
  have hat : attempt m d = some (.ok .FR_OK, d') := by
    unfold attempt
    rw [hm]
  unfold instead
  rw [Code.bind_ok hat, if_neg hr.symm]
  rfl

theorem instead_error (hm : m d = some (.error e, d')) (he : e ≠ .FR_OK) (hr : r' ≠ .FR_OK) :
    instead r r' m d = some (.error (if e = r then r' else e), d') := by
  have hat : attempt m d = some (.ok e, d') := by
    unfold attempt
    rw [hm]
  unfold instead check
  rw [Code.bind_ok hat]
  split_ifs <;> first | contradiction | rfl

/-- Where the loop stops: at the first entry up to which there is room, or behind a table with no room. -/
def Stops (T : DirTable) (mem : ℕ → UInt8) (nent : ℕ) (dp : DIR_) (r : Except FRESULT Unit) (dp' : DIR_) : Prop :=
  Moved dp dp' ∧
    ((r = .ok () ∧ ∃ j < T.slots, T.Room mem nent j ∧ (∀ k < j, ¬ T.Room mem nent k) ∧ T.At dp' j) ∨
      (r = .error .FR_NO_FILE ∧ ∀ k < T.slots, ¬ T.Room mem nent k))

/-- The loop goes through the table. It stretches it only when there is no room, and then it can not. -/
theorem allocLoop_looks (fuel : ℕ) (h : d.Lies T others) (hN : d.fs.drv.failures ≤ N) (hat : T.At d.dp i)
    (hi : i < T.slots) (hmem : ∀ k < T.slots, T.slot d.fs.seen k = T.slot mem k) (hb : T.Blanks mem n i)
    (hn : n < nent) (hpast : ∀ k < i, ¬ T.Room mem nent k)
    (hgrow : (∃ j < T.slots, T.Room mem nent j) ∨ T.clusters = [] ∨ T.slots = 2 ^ 16) (hfuel : T.slots ≤ i + fuel) :
    Looks N (allocLoop nent fuel n) d fun r d' => Stops T mem nent d.dp r d'.dp := by
  induction fuel generalizing d i n with
  | zero => omega
  | succ fuel ih =>
    -- the next entry, before which so many are blank
    have hnext : ∀ d', Same d d' → d'.dp = d.dp → ∀ n', n' < nent → T.Blanks mem n' (i + 1) → ¬ T.Room mem nent i →
        Looks N (dirNext true >>= fun _ => allocLoop nent fuel n') d' fun r d'' => Stops T mem nent d.dp r d''.dp := by
      intro d' hs hdp n' hn' hb' hroom
      have hat' : T.At d'.dp i := by rwa [hdp]
      have hpast' : ∀ k < i + 1, ¬ T.Room mem nent k := fun k hk => by
        rcases Nat.eq_or_lt_of_le (Nat.le_of_lt_succ hk) with rfl | hlt
        · exact hroom
        · exact hpast k hlt
      rcases Nat.eq_or_lt_of_le (Nat.succ_le_of_lt hi) with hend | hlt
      · have hnone : ∀ k < T.slots, ¬ T.Room mem nent k := fun k hk => hpast' k (by omega)
        have hfull := hgrow.resolve_left fun ⟨j, hj, hr⟩ => hnone j hj hr
        refine Looks.bind (dirNext_full (h.same hs) hat' true hend hfull) (fun _ _ _ ⟨hr, _⟩ => by cases hr)
          fun e d'' _ ⟨he, hm⟩ => ?_
        rw [hdp] at hm
        exact ⟨hm, .inr ⟨by rw [Except.error.inj he], hnone⟩⟩
      · refine Looks.bind (dirNext_looks (h.same hs) (hs.failures_le hN) hat' true hlt) (fun _ d'' hs' hr => ?_)
          fun e d'' _ ⟨he, _⟩ => by cases he
        obtain ⟨-, hat'', hm⟩ := hr
        rw [hdp] at hm
        have hs'' := hs.trans hs'
        exact (ih (h.same hs'') (hs''.failures_le hN) hat'' hlt (fun k hk => (h.slot hs'' hk).trans (hmem k hk)) hb' hn' hpast'
          (by omega)).mono fun r d₃ _ hr => ⟨hm.trans hr.1, hr.2⟩
    unfold allocLoop
    refine Looks.bind (toWindow_looks h hN hat hi) (fun _ d' hs hr => ?_) fun e d' _ ⟨he, _⟩ => by cases he
    obtain ⟨-, hdp, -, hentry⟩ := hr
    rw [hmem i hi] at hentry
    refine Looks.read_bind (Looks.ite (fun hblank => ?_) fun hused => ?_)
    · rw [hentry] at hblank
      refine Looks.ite (fun heq => ?_) fun hne => ?_
      · have hroom := hb.room hblank
        rw [heq] at hroom
        exact Looks.pure (h.same hs).alloc.valid ⟨by rw [hdp]; rfl, .inl ⟨rfl, i, hi, hroom, hpast, by rwa [hdp]⟩⟩
      · refine hnext d' hs hdp (n + 1) (by omega) (hb.blank hblank) fun hroom => ?_
        have := hb.le_of_room hroom
        omega
    · rw [hentry] at hused
      exact hnext d' hs hdp 0 (by omega) (.used hused) fun hroom => hused (hroom.2 i (by omega) le_rfl)

theorem dirAlloc_looks (h : d.Lies T others) (hN : d.fs.drv.failures ≤ N) (hn : 0 < nent)
    (hgrow : (∃ j < T.slots, T.Room d.fs.seen nent j) ∨ T.clusters = [] ∨ T.slots = 2 ^ 16) :
    Looks N (dirAlloc nent) d fun r d' => Moved d.dp d'.dp ∧
      ((r = .ok () ∧ ∃ j < T.slots, T.Room d.fs.seen nent j ∧ (∀ k < j, ¬ T.Room d.fs.seen nent k) ∧ T.At d'.dp j) ∨
        (r = .error .FR_DENIED ∧ ∀ k < T.slots, ¬ T.Room d.fs.seen nent k)) := by
  have hle := slots_le h.placed
  have hpos := slots_pos h.placed
  have hlook : Looks N (dirSdi 0 >>= fun _ => allocLoop nent (2 ^ 16) 0) d
      fun r d' => Stops T d.fs.seen nent d.dp r d'.dp := by
    refine Looks.bind (dirSdi_looks h hN hpos) (fun _ d₁ hs hr => ?_) fun e d' _ ⟨he, _⟩ => by cases he
    obtain ⟨-, hat, hm⟩ := hr
    exact (allocLoop_looks (2 ^ 16) (h.same hs) (hs.failures_le hN) hat hpos (fun k hk => h.slot hs hk) .zero hn
      (fun k hk => absurd hk (Nat.not_lt_zero k)) hgrow (by omega)).mono fun r d' _ hr => ⟨hm.trans hr.1, hr.2⟩
  obtain ⟨r, d', hrun, hs, ⟨hm, ⟨rfl, hroom⟩ | ⟨rfl, hnone⟩⟩ | ⟨rfl, hf⟩⟩ := hlook
  · exact ⟨.ok (), d', instead_ok hrun (by decide), hs, .inl ⟨hm, .inl ⟨rfl, hroom⟩⟩⟩
  · exact ⟨.error .FR_DENIED, d', instead_error hrun (by decide) (by decide), hs, .inl ⟨hm, .inr ⟨rfl, hnone⟩⟩⟩
  · exact ⟨.error .FR_DISK_ERR, d', instead_error hrun (by decide) (by decide), hs, .inr ⟨rfl, hf⟩⟩

/-- **First room.** In a table that has room for the entries, or that can not grow, `dir_alloc` stops at the last entry of
the first room, or it tells that there is none. Nothing that is seen is changed. -/
theorem dirAlloc_first (h : d.Lies T others) (hn : 0 < nent)
    (hgrow : (∃ j < T.slots, T.Room d.fs.seen nent j) ∨ T.clusters = [] ∨ T.slots = 2 ^ 16) :
    ∃ r d', dirAlloc nent d = some (r, d') ∧ Same d d' ∧
      ((r = .ok () ∧ Moved d.dp d'.dp ∧ ∃ j < T.slots, T.Room d.fs.seen nent j ∧
          (∀ k < j, ¬ T.Room d.fs.seen nent k) ∧ T.At d'.dp j) ∨
        (r = .error .FR_DENIED ∧ Moved d.dp d'.dp ∧ ∀ k < T.slots, ¬ T.Room d.fs.seen nent k) ∨
        (r = .error .FR_DISK_ERR ∧ d.fs.drv.Failed d'.fs.drv)) := by
  obtain ⟨r, d', hrun, hs, ⟨hm, ⟨rfl, hroom⟩ | ⟨rfl, hnone⟩⟩ | hfail⟩ := dirAlloc_looks h le_rfl hn hgrow
  · exact ⟨.ok (), d', hrun, hs, .inl ⟨rfl, hm, hroom⟩⟩
  · exact ⟨.error .FR_DENIED, d', hrun, hs, .inr (.inl ⟨rfl, hm, hnone⟩)⟩
  · exact ⟨r, d', hrun, hs, .inr (.inr hfail)⟩

/-- The deleted entry alone is no room for two, which is at the end. -/
theorem sample_room (o : DirObject) : sampleTable.Room (sampleDir o).fs.seen 2 9 ∧
    ∀ k < 9, ¬ sampleTable.Room (sampleDir o).fs.seen 2 k := by
  have hused : ∀ i < 8, i ≠ 4 → ¬ IsBlank (entryAt (sampleEntries.getD i fun _ => 0) 0) := by
    unfold IsBlank
    decide
  have hfree : ∀ i < 10, 8 ≤ i → IsBlank (entryAt (sampleEntries.getD i fun _ => 0) 0) := by
    unfold IsBlank
    decide
  refine ⟨⟨by decide, fun k hge hle => ?_⟩, fun k hk ⟨hge, hroom⟩ => ?_⟩
  · rw [sampleDir_slot]
    exact hfree k (by omega) (by omega)
  · obtain ⟨i, hlt, hle, hi⟩ : ∃ i, k < i + 2 ∧ i ≤ k ∧ i < 8 ∧ i ≠ 4 := by
      rcases (by omega : k = 4 ∨ k = 8 ∨ k < 8 ∧ k ≠ 4) with rfl | rfl | hk
      exacts [⟨3, by decide⟩, ⟨7, by decide⟩, ⟨k, by omega, le_rfl, hk⟩]
    have hblank := hroom i hlt hle
    rw [sampleDir_slot] at hblank
    exact hused i hi.1 hi.2 hblank

theorem dirAlloc_first_sample : ∃ d', dirAlloc 2 (sampleDir boot) = some (.ok (), d') ∧ Same (sampleDir boot) d' ∧
    Moved (sampleDir boot).dp d'.dp ∧ sampleTable.At d'.dp 9 := by
  obtain ⟨hroom, hnone⟩ := sample_room boot
  obtain ⟨r, d', hrun, hs, ⟨rfl, hm, j, -, hroom', hfirst, hat⟩ | ⟨-, -, hfull⟩ | ⟨-, hfail⟩⟩ :=
    dirAlloc_first (sampleDir_lies boot) (by decide : 0 < 2) (.inr (.inl rfl))
  · obtain rfl : j = 9 := by
      rcases Nat.lt_trichotomy j 9 with hlt | heq | hgt
      · exact absurd hroom' (hnone j hlt)
      · exact heq
      · exact absurd hroom (hfirst 9 hgt)
    exact ⟨d', hrun, hs, hm, hat⟩
  · exact absurd hroom (hfull 9 (by decide))
  · exact absurd rfl hfail.ne_nil

end OpenDir

end Miosix
