import MiosixKernel.Process.Pool
import Mathlib

/-!
# The process pool: correctness of the allocator

The scan of `allocate` looks at every slot that starts at or before the end of the pool, so it can
leave the array of the bitmap, which has a bit only for each whole group of 32 blocks. A call is right
exactly when the scan stops before that.

* `Good`: the blocks are aligned, inside the pool and disjoint, and the bitmap says which they are;
* `CallCorrect`: what a call promises; `MeetsBitmap`: the condition under which it keeps it;
* `scan_cases`: the three ways in which the scan ends;
* **`run_correct`**: in every run of calls that meet the condition the state is good, and the next
  call is right if and only if it meets the condition.
-/

namespace Miosix

open Lib

namespace ProcessPool

variable {s : ProcessPool} {size sizeBit i j p q n m : ℕ}

/-! ## Specification -/

/-- The two ranges of bytes share a byte. -/
def Overlap (p n q m : ℕ) : Prop := ∃ a, (p ≤ a ∧ a < p + n) ∧ q ≤ a ∧ a < q + m

/-- No allocated block has a byte of the range. -/
def Free (s : ProcessPool) (p n : ℕ) : Prop :=
  ∀ q m, s.allocatedBlocks q = some m → ¬Overlap p n q m

/-- The range lies inside the pool. -/
def Inside (s : ProcessPool) (p n : ℕ) : Prop :=
  s.poolBase ≤ p ∧ p + n ≤ s.poolBase + s.poolSize

/-- The block that a bit stands for belongs to an allocated one. -/
def Covered (s : ProcessPool) (b : ℕ) : Prop :=
  ∃ q m, s.allocatedBlocks q = some m ∧ q ≤ s.poolBase + b * 1024 ∧ s.poolBase + b * 1024 < q + m

/-- What the pool keeps true between calls. -/
structure Good (s : ProcessPool) : Prop where
  whole : ∀ p n, s.allocatedBlocks p = some n → 1024 ∣ n ∧ 0 < n
  aligned : ∀ p n, s.allocatedBlocks p = some n → n ∣ p
  inside : ∀ p n, s.allocatedBlocks p = some n → s.Inside p n
  disjoint : ∀ p n q m, s.allocatedBlocks p = some n → s.allocatedBlocks q = some m → p ≠ q →
    ¬Overlap p n q m
  covered : ∀ b, s.bitmap.has b = true ↔ s.Covered b
  array : s.bitmap.size = 32 * (s.poolSize / blockSize / 8 / 4)

/-- What a call promises. -/
structure CallCorrect (s : ProcessPool) (c : Call) : Prop where
  /-- A pointer returned by `allocate` is aligned, in the pool, and of free memory. -/
  block : ∀ size p s', c = .allocate size → c.exec s = .ok (some p) s' →
    size ∣ p ∧ s.Inside p size ∧ s.Free p size ∧ s'.allocatedBlocks p = some size
  /-- It gives up only when the pool has no room. -/
  badAlloc : ∀ size s', c = .allocate size → c.exec s = .error .badAlloc s' →
    ¬∃ p, size ∣ p ∧ s.Inside p size ∧ s.Free p size
  /-- The bits it uses are in the array, and its loops end. -/
  bounds : ∀ e s', c.exec s = .error e s' → e = .runtimeError ∨ e = .badAlloc
  unchanged : ∀ e s', c.exec s = .error e s' →
    s'.bitmap = s.bitmap ∧ s'.allocatedBlocks = s.allocatedBlocks

/-- The size passes the test of `allocate`. -/
def ValidSize (s : ProcessPool) (size : ℕ) : Prop :=
  size &&& (size - 1) = 0 ∧ size ≤ s.poolSize ∧ 1024 ≤ size

/-- Where the part of the pool that the bitmap has bits for ends. -/
def mappedEnd (s : ProcessPool) : ℕ :=
  s.poolBase + 32 * (s.poolSize / blockSize / 8 / 4) * 1024

/-- The condition: some aligned slot is free in the part of the pool that the bitmap has bits for, or
every aligned slot that starts at or before the end of the pool has an allocated block in that
part. -/
def MeetsBitmap (s : ProcessPool) : Call → Prop
  | .deallocate _ => True
  | .allocate size => s.ValidSize size →
    (∃ p, size ∣ p ∧ s.poolBase ≤ p ∧ p + size ≤ s.mappedEnd ∧ s.Free p size) ∨
    ∀ p, size ∣ p → s.poolBase ≤ p → p ≤ s.poolBase + s.poolSize →
      ¬s.Free p (min size (s.mappedEnd - p))

/-- Every call of the run meets the condition where it is made. -/
def RunMeetsBitmap : ProcessPool → List Call → Prop
  | _, [] => True
  | s, c :: calls => s.MeetsBitmap c ∧ RunMeetsBitmap (s.after c) calls

/-! ## Slots -/

/-- The aligned addresses of the pool are those of the slots that the scan visits. -/
theorem slot_iff (hb : 1024 ∣ s.poolBase) (hn : 1024 ∣ size) (hpos : 0 < size) :
    (size ∣ p ∧ s.poolBase ≤ p) ↔
      ∃ t, p = s.poolBase + (startBit s.poolBase size + t * (size / 1024)) * 1024 := by
  set base := s.poolBase with hbase
  obtain ⟨off, hoff, hlt, hdvd, hstart⟩ : ∃ off, size ∣ base + off ∧ off < size ∧ 1024 ∣ off ∧
      startBit base size = off / 1024 := by
    have hmod : 1024 ∣ base % size := (Nat.dvd_mod_iff hn).mpr hb
    have hltmod := Nat.mod_lt base hpos
    by_cases h : base % size = 0
    · exact ⟨0, by simpa using Nat.dvd_of_mod_eq_zero h, hpos, by simp, by simp [startBit, h]⟩
    · refine ⟨size - base % size, ?_, by omega, Nat.dvd_sub hn hmod, by
        simp [startBit, h, blockSize_eq]⟩
      have heq : base + (size - base % size) = size * (base / size + 1) := by
        have hdiv := Nat.div_add_mod base size
        rw [Nat.mul_add, Nat.mul_one]
        omega
      exact ⟨_, heq⟩
  obtain ⟨k, hk⟩ := hn
  obtain ⟨o, ho⟩ := hdvd
  have hkdiv : size / 1024 = k := by omega
  have hodiv : off / 1024 = o := by omega
  rw [hstart, hkdiv, hodiv]
  constructor
  · rintro ⟨⟨c, rfl⟩, hle⟩
    obtain ⟨d, hd⟩ := hoff
    have hdc : d ≤ c := by
      by_contra hlt'
      have hmul : size * (c + 1) ≤ size * d := Nat.mul_le_mul_left size (by omega)
      rw [Nat.mul_add, Nat.mul_one] at hmul
      omega
    obtain ⟨t, rfl⟩ := Nat.exists_eq_add_of_le hdc
    refine ⟨t, ?_⟩
    rw [Nat.mul_add, ← hd, ho, Nat.add_mul, hk]
    ring
  · rintro ⟨t, rfl⟩
    refine ⟨?_, Nat.le_add_right _ _⟩
    have heq : base + (o + t * k) * 1024 = base + off + size * t := by
      rw [ho, hk]
      ring
    rw [heq]
    exact Nat.dvd_add hoff (Nat.dvd_mul_right _ _)

/-- A bit in the range is set exactly when the memory of the range is not free. -/
theorem blocked_iff (hs : s.Good) :
    (∃ j < n, s.bitmap.has (i + j) = true) ↔ ¬s.Free (s.poolBase + i * 1024) (n * 1024) := by
  constructor
  · rintro ⟨j, hj, hbit⟩ hfree
    obtain ⟨q, m, hq, hle, hlt⟩ := (hs.covered _).mp hbit
    apply hfree q m hq
    exact ⟨s.poolBase + (i + j) * 1024, by omega, hle, hlt⟩
  · intro hfree
    simp only [Free, Overlap, not_forall, not_not] at hfree
    obtain ⟨q, m, hq, a, ⟨ha₁, ha₂⟩, ha₃, ha₄⟩ := hfree
    have hbase := s.base_dvd
    obtain ⟨hm, _⟩ := hs.whole q m hq
    have hqdvd : 1024 ∣ q := Dvd.dvd.trans hm (hs.aligned q m hq)
    have hin := (hs.inside q m hq).1
    -- the block of the pool that has the byte `a`
    obtain ⟨b, hb⟩ : ∃ b, s.poolBase + b * 1024 ≤ a ∧ a < s.poolBase + b * 1024 + 1024 :=
      ⟨(a - s.poolBase) / 1024, by omega⟩
    have hib : i + (b - i) = b := by omega
    refine ⟨b - i, by omega, (hs.covered _).mpr ⟨q, m, hq, ?_⟩⟩
    rw [hib]
    omega

/-- No block starts where memory is free. -/
theorem Free.eq_none (hfree : s.Free p n) (hs : s.Good) (hn : 0 < n) : s.allocatedBlocks p = none := by
  by_contra hne
  obtain ⟨m, hm⟩ := Option.ne_none_iff_exists'.mp hne
  have hpos := (hs.whole p m hm).2
  exact hfree p m hm ⟨p, ⟨le_refl p, by omega⟩, le_refl p, by omega⟩

/-! ## The scan -/

/-- Some bit of the slot is set. -/
def Blocked (s : ProcessPool) (i sizeBit : ℕ) : Prop := ∃ j < sizeBit, s.bitmap.has (i + j) = true

/-- The state after a slot was taken. -/
def take (s : ProcessPool) (bitmap : Bitmap) (i size : ℕ) : ProcessPool :=
  { s with
    bitmap := bitmap
    allocatedBlocks := Function.update s.allocatedBlocks (s.poolBase + i * blockSize) (some size) }

section Scan

variable {fuel : ℕ} (hi : i ≤ s.poolSize / blockSize)
include hi

theorem scan_blocked (h : s.bitmap.anySet i sizeBit = some true) :
    scan size sizeBit (fuel + 1) i s = scan size sizeBit fuel (i + sizeBit) s := by
  simp [scan, notEmpty, bits, bind, EStateM.bind, get, getThe, MonadStateOf.get, EStateM.get, hi, h,
    pure, EStateM.pure]

theorem scan_outOfBounds (h : s.bitmap.anySet i sizeBit = none) :
    scan size sizeBit (fuel + 1) i s = .error .outOfBounds s := by
  simp [scan, notEmpty, bits, bind, EStateM.bind, get, getThe, MonadStateOf.get, EStateM.get, hi, h,
    throw, throwThe, MonadExceptOf.throw, EStateM.throw]

theorem scan_free {b : Bitmap} (h : s.bitmap.anySet i sizeBit = some false)
    (hset : s.bitmap.setRange i sizeBit = some b) :
    scan size sizeBit (fuel + 1) i s = .ok (s.poolBase + i * blockSize) (s.take b i size) := by
  simp [scan, notEmpty, setBits, bits, bind, EStateM.bind, get, getThe, MonadStateOf.get,
    EStateM.get, hi, h, hset, modify, modifyGet, MonadStateOf.modifyGet, EStateM.modifyGet, pure,
    EStateM.pure, take]

end Scan

theorem scan_end {fuel : ℕ} (hi : s.poolSize / blockSize < i) :
    scan size sizeBit (fuel + 1) i s = .error .badAlloc s := by
  simp [scan, bind, EStateM.bind, get, getThe, MonadStateOf.get, EStateM.get, Nat.not_le.mpr hi,
    throw, throwThe, MonadExceptOf.throw, EStateM.throw]

/-- **The scan** takes the first slot with no bit set, or finds a bit set in every slot, or runs off
the end of the array in the first slot with no bit set. -/
theorem scan_cases (s : ProcessPool) (size : ℕ) (hpos : 0 < sizeBit) (fuel i : ℕ) (h0 : 0 < fuel)
    (hfuel : s.poolSize / blockSize + 1 < fuel + i) :
    (∃ t b, scan size sizeBit fuel i s =
        .ok (s.poolBase + (i + t * sizeBit) * blockSize) (s.take b (i + t * sizeBit) size) ∧
      s.bitmap.setRange (i + t * sizeBit) sizeBit = some b ∧
      i + t * sizeBit + sizeBit ≤ s.bitmap.size ∧ ¬s.Blocked (i + t * sizeBit) sizeBit) ∨
    (scan size sizeBit fuel i s = .error .badAlloc s ∧
      ∀ t, i + t * sizeBit ≤ s.poolSize / blockSize → s.Blocked (i + t * sizeBit) sizeBit) ∨
    (scan size sizeBit fuel i s = .error .outOfBounds s ∧
      ∃ t, i + t * sizeBit ≤ s.poolSize / blockSize ∧
        s.bitmap.size < i + t * sizeBit + sizeBit ∧ ¬s.Blocked (i + t * sizeBit) sizeBit ∧
        ∀ u < t, s.Blocked (i + u * sizeBit) sizeBit) := by
  induction fuel generalizing i with
  | zero => exact absurd h0 (lt_irrefl 0)
  | succ fuel ih =>
    rcases Nat.lt_or_ge (s.poolSize / blockSize) i with hend | hi
    · right; left
      refine ⟨scan_end hend, fun t ht => ?_⟩
      exact absurd (Nat.le_trans (Nat.le_add_right i _) ht) (Nat.not_le.mpr hend)
    rcases s.bitmap.anySet_cases i sizeBit with ⟨he, hset⟩ | ⟨he, hfit, hno⟩ | ⟨he, hout, hno⟩
    · -- the slots from the next one on are those from this one on, less this one
      have hshift : ∀ t, i + sizeBit + t * sizeBit = i + (t + 1) * sizeBit := fun t => by ring
      have hcons : ∀ u, (∀ v, u = v + 1 → s.Blocked (i + (v + 1) * sizeBit) sizeBit) →
          s.Blocked (i + u * sizeBit) sizeBit := by
        intro u hu
        cases u with
        | zero => simpa [Blocked] using hset
        | succ v => exact hu v rfl
      rw [scan_blocked hi he]
      have h := ih (i + sizeBit) (by omega) (by omega)
      simp only [hshift] at h
      rcases h with ⟨t, b, h⟩ | ⟨hbad, hall⟩ | ⟨hoob, t, hle, hout, hno, hall⟩
      · exact .inl ⟨t + 1, b, h⟩
      · refine .inr (.inl ⟨hbad, fun u hu => hcons u fun v hv => ?_⟩)
        exact hall v (hv ▸ hu)
      · refine .inr (.inr ⟨hoob, t + 1, hle, hout, hno, fun u hu => hcons u fun v hv => ?_⟩)
        exact hall v (by omega)
    · have hfit' : i + sizeBit ≤ s.bitmap.size := hfit.resolve_left (by omega)
      obtain ⟨b, hb, _⟩ := s.bitmap.setRange_spec hfit'
      refine .inl ⟨0, b, ?_, ?_, ?_, ?_⟩
      · simpa using scan_free hi he hb
      · simpa using hb
      · simpa using hfit'
      · simpa [Blocked] using hno
    · refine .inr (.inr ⟨scan_outOfBounds hi he, 0, by simpa using hi, by simpa using hout, ?_, ?_⟩)
      · simpa [Blocked] using hno
      · simp

/-! ## One call -/

theorem ValidSize.dvd (h : s.ValidSize size) : 1024 ∣ size := by
  obtain ⟨hpow, _, hge⟩ := h
  obtain ⟨k, rfl⟩ := (Nat.and_sub_one_eq_zero_iff_isPowerOfTwo (by omega)).mp hpow
  have hk : 10 ≤ k := by
    by_contra hlt
    have hle : 2 ^ k ≤ 2 ^ 9 := Nat.pow_le_pow_right (by norm_num) (by omega)
    norm_num at hle
    omega
  exact pow_dvd_pow 2 hk

theorem allocate_valid (h : s.ValidSize size) :
    allocate size s = scan size (size / 1024) (s.poolSize / 1024 + 2) (startBit s.poolBase size) s := by
  obtain ⟨hpow, hle, hge⟩ := h
  simp [allocate, bind, EStateM.bind, get, getThe, MonadStateOf.get, EStateM.get, blockSize_eq, hpow,
    Nat.not_lt.mpr hle, Nat.not_lt.mpr hge]

theorem allocate_invalid (h : ¬s.ValidSize size) : allocate size s = .error .runtimeError s := by
  have h' : size &&& (size - 1) ≠ 0 ∨ size > s.poolSize ∨ size < blockSize := by
    rw [blockSize_eq]
    unfold ValidSize at h
    omega
  simp [allocate, bind, EStateM.bind, get, getThe, MonadStateOf.get, EStateM.get, h', throw,
    throwThe, MonadExceptOf.throw, EStateM.throw]

/-- The part of a slot that the bitmap has bits for has all the bits of the slot that can be set. -/
theorem blocked_min_iff (hs : s.Good) (hk : size = sizeBit * 1024) :
    s.Blocked i sizeBit ↔ ¬s.Free (s.poolBase + i * 1024)
      (min size (s.mappedEnd - (s.poolBase + i * 1024))) := by
  have hmin : min size (s.mappedEnd - (s.poolBase + i * 1024)) =
      min sizeBit (s.bitmap.size - i) * 1024 := by
    rw [hs.array, mappedEnd]
    omega
  rw [hmin, ← blocked_iff hs]
  constructor
  · rintro ⟨j, hj, hbit⟩
    have hlt := Bitmap.has_lt hbit
    exact ⟨j, by omega, hbit⟩
  · rintro ⟨j, hj, hbit⟩
    exact ⟨j, by omega, hbit⟩

/-- **How `allocate` ends**, in terms of memory. -/
theorem allocate_cases (hs : s.Good) (hv : s.ValidSize size) :
    (∃ i b, allocate size s = .ok (s.poolBase + i * 1024) (s.take b i size) ∧
      s.bitmap.setRange i (size / 1024) = some b ∧ i + size / 1024 ≤ s.bitmap.size ∧
      size ∣ s.poolBase + i * 1024 ∧ s.Free (s.poolBase + i * 1024) size) ∨
    (allocate size s = .error .badAlloc s ∧
      ∀ p, size ∣ p → s.poolBase ≤ p → p ≤ s.poolBase + s.poolSize →
        ¬s.Free p (min size (s.mappedEnd - p))) ∨
    (allocate size s = .error .outOfBounds s ∧
      ∃ p, size ∣ p ∧ s.poolBase ≤ p ∧ p ≤ s.poolBase + s.poolSize ∧ s.mappedEnd < p + size ∧
        s.Free p (min size (s.mappedEnd - p)) ∧
        ∀ q, size ∣ q → s.poolBase ≤ q → q < p → ¬s.Free q (min size (s.mappedEnd - q))) := by
  have hdvd := hv.dvd
  obtain ⟨hpow, hle, hge⟩ := hv
  have hslot : ∀ p, (size ∣ p ∧ s.poolBase ≤ p) ↔ _ := fun p =>
    slot_iff (s := s) (p := p) s.base_dvd hdvd (by omega)
  have hk : size = size / 1024 * 1024 := by omega
  have hpos : 0 < size / 1024 := by omega
  have hpool := s.size_dvd
  have hend : s.mappedEnd = s.poolBase + s.bitmap.size * 1024 := by rw [hs.array]; rfl
  rw [allocate_valid ⟨hpow, hle, hge⟩]
  have h := scan_cases s size hpos (s.poolSize / 1024 + 2)
    (startBit s.poolBase size) (by omega) (by rw [blockSize_eq]; omega)
  rw [blockSize_eq] at h
  rcases h with ⟨t, b, he, hb, hfit, hno⟩ | ⟨he, hall⟩ | ⟨he, t, hle', hout, hno, hall⟩
  · left
    refine ⟨_, b, he, hb, hfit, ((hslot _).mpr ⟨t, rfl⟩).1, ?_⟩
    rw [Blocked, blocked_iff hs, not_not, ← hk] at hno
    exact hno
  · right; left
    refine ⟨he, fun p hp hbase hpend => ?_⟩
    obtain ⟨t, rfl⟩ := (hslot p).mp ⟨hp, hbase⟩
    exact (blocked_min_iff hs hk).mp (hall t (by omega))
  · right; right
    obtain ⟨hp, hbase⟩ := (hslot _).mpr ⟨t, rfl⟩
    refine ⟨he, _, hp, hbase, by omega, by omega, ?_, fun q hq hqbase hlt => ?_⟩
    · rw [blocked_min_iff hs hk, not_not] at hno
      exact hno
    · obtain ⟨u, rfl⟩ := (hslot q).mp ⟨hq, hqbase⟩
      refine (blocked_min_iff hs hk).mp (hall u ?_)
      by_contra hge'
      have hmul : t * (size / 1024) ≤ u * (size / 1024) := Nat.mul_le_mul_right _ (by omega)
      omega

/-- The state after a block was given back. -/
def release (s : ProcessPool) (bitmap : Bitmap) (ptr : ℕ) : ProcessPool :=
  { s with
    bitmap := bitmap
    allocatedBlocks := Function.update s.allocatedBlocks ptr none }

theorem deallocate_none (h : s.allocatedBlocks p = none) :
    deallocate p s = .error .runtimeError s := by
  simp [deallocate, bind, EStateM.bind, get, getThe, MonadStateOf.get, EStateM.get, h, throw,
    throwThe, MonadExceptOf.throw, EStateM.throw]

/-- The bits of an allocated block are in the array. -/
theorem Good.bits_le (hs : s.Good) (h : s.allocatedBlocks p = some n) :
    ∃ i k, p = s.poolBase + i * 1024 ∧ n = k * 1024 ∧ 0 < k ∧ i + k ≤ s.bitmap.size := by
  obtain ⟨⟨k, hk⟩, hpos⟩ := hs.whole p n h
  have hp : 1024 ∣ p := Dvd.dvd.trans ⟨k, hk⟩ (hs.aligned p n h)
  have hin := hs.inside p n h
  have hbase := s.base_dvd
  obtain ⟨i, hi⟩ : ∃ i, p = s.poolBase + i * 1024 := by
    refine ⟨(p - s.poolBase) / 1024, ?_⟩
    have := hin.1
    omega
  have hlast : s.bitmap.has (i + k - 1) = true :=
    (hs.covered _).mpr ⟨p, n, h, by omega, by omega⟩
  have hlt := Bitmap.has_lt hlast
  exact ⟨i, k, hi, by omega, by omega, by omega⟩

theorem deallocate_some (hs : s.Good) (h : s.allocatedBlocks p = some n) :
    ∃ b, deallocate p s = .ok () (s.release b p) ∧ b.size = s.bitmap.size ∧
      ∀ j, b.has j = true ↔ ¬(p ≤ s.poolBase + j * 1024 ∧ s.poolBase + j * 1024 < p + n) ∧
        s.bitmap.has j = true := by
  obtain ⟨i, k, hi, hk, hpos, hle⟩ := hs.bits_le h
  obtain ⟨b, hb, hsize, hhas⟩ := Bitmap.clearRange_spec hle
  have hfirst : (p - s.poolBase) / blockSize = i := by rw [blockSize_eq]; omega
  have hcount : n / blockSize = k := by rw [blockSize_eq]; omega
  refine ⟨b, ?_, hsize, fun j => ?_⟩
  · simp [deallocate, clearBits, bits, bind, EStateM.bind, get, getThe, MonadStateOf.get,
      EStateM.get, h, hfirst, hcount, hb, modify, modifyGet, MonadStateOf.modifyGet,
      EStateM.modifyGet, pure, EStateM.pure, release]
  · rw [hhas j]
    have hiff : (i ≤ j ∧ j < i + k) ↔
        (p ≤ s.poolBase + j * 1024 ∧ s.poolBase + j * 1024 < p + n) := by omega
    rw [hiff]

/-! ## The invariant -/

theorem new_good (r : PoolRegion) : (new r).Good where
  whole := fun _ _ h => by cases h
  aligned := fun _ _ h => by cases h
  inside := fun _ _ h => by cases h
  disjoint := fun _ _ _ _ h => by cases h
  covered := fun b => by simp [new, Covered]
  array := by simp [new]

theorem Overlap.symm (h : Overlap p n q m) : Overlap q m p n := by
  obtain ⟨a, hp, hq⟩ := h
  exact ⟨a, hq, hp⟩

theorem take_good (hs : s.Good) (hv : s.ValidSize size) {b : Bitmap}
    (hb : s.bitmap.setRange i (size / 1024) = some b) (hfit : i + size / 1024 ≤ s.bitmap.size)
    (hal : size ∣ s.poolBase + i * 1024) (hfree : s.Free (s.poolBase + i * 1024) size) :
    (s.take b i size).Good := by
  have hdvd := hv.dvd
  obtain ⟨b', hb', hsize, hhas⟩ := Bitmap.setRange_spec hfit
  obtain rfl : b' = b := Option.some.inj (hb'.symm.trans hb)
  have hpos : 0 < size := by have := hv.2.2; omega
  -- an allocated block is the new one, or it was allocated before
  have hold : ∀ q m, (s.take b' i size).allocatedBlocks q = some m →
      (q = s.poolBase + i * 1024 ∧ m = size) ∨ s.allocatedBlocks q = some m := by
    intro q m h
    by_cases hq : q = s.poolBase + i * 1024
    · left
      subst hq
      exact ⟨rfl, by simpa [take, blockSize_eq] using h.symm⟩
    · right
      simpa [take, blockSize_eq, Function.update_of_ne hq] using h
  have hne : ∀ q m, s.allocatedBlocks q = some m → q ≠ s.poolBase + i * 1024 := by
    rintro q m h rfl
    rw [hfree.eq_none hs hpos] at h
    cases h
  refine ⟨?_, ?_, ?_, ?_, ?_, hsize.trans hs.array⟩
  · intro q m h
    rcases hold q m h with ⟨_, rfl⟩ | h
    · exact ⟨hdvd, hpos⟩
    · exact hs.whole q m h
  · intro q m h
    rcases hold q m h with ⟨rfl, rfl⟩ | h
    · exact hal
    · exact hs.aligned q m h
  · intro q m h
    rcases hold q m h with ⟨rfl, rfl⟩ | h
    · have harr := hs.array
      rw [blockSize_eq] at harr
      refine ⟨Nat.le_add_right _ _, ?_⟩
      show _ ≤ s.poolBase + s.poolSize
      omega
    · exact hs.inside q m h
  · intro q m q' m' h h' hqq
    rcases hold q m h with ⟨rfl, rfl⟩ | h₁ <;> rcases hold q' m' h' with ⟨rfl, rfl⟩ | h₂
    · exact absurd rfl hqq
    · exact hfree q' m' h₂
    · exact fun ho => hfree q m h₁ ho.symm
    · exact hs.disjoint q m q' m' h₁ h₂ hqq
  · intro j
    show b'.has j = true ↔ _
    rw [hhas j, hs.covered j]
    constructor
    · rintro (⟨h₁, h₂⟩ | ⟨q, m, h, hle, hlt⟩)
      · refine ⟨s.poolBase + i * 1024, size, by simp [take, blockSize_eq], ?_, ?_⟩
        · show _ ≤ s.poolBase + j * 1024
          omega
        · show s.poolBase + j * 1024 < _
          omega
      · refine ⟨q, m, ?_, hle, hlt⟩
        simpa [take, blockSize_eq, Function.update_of_ne (hne q m h)] using h
    · rintro ⟨q, m, h, hle, hlt⟩
      change q ≤ s.poolBase + j * 1024 at hle
      change s.poolBase + j * 1024 < q + m at hlt
      rcases hold q m h with ⟨rfl, rfl⟩ | h
      · left
        omega
      · exact .inr ⟨q, m, h, hle, hlt⟩

theorem release_good (hs : s.Good) (h : s.allocatedBlocks p = some n) {b : Bitmap}
    (hsize : b.size = s.bitmap.size)
    (hhas : ∀ j, b.has j = true ↔
      ¬(p ≤ s.poolBase + j * 1024 ∧ s.poolBase + j * 1024 < p + n) ∧ s.bitmap.has j = true) :
    (s.release b p).Good := by
  -- an allocated block was allocated before, and is not the one given back
  have hold : ∀ q m, (s.release b p).allocatedBlocks q = some m ↔
      q ≠ p ∧ s.allocatedBlocks q = some m := by
    intro q m
    by_cases hq : q = p
    · simp [release, hq]
    · simp [release, hq]
  refine ⟨?_, ?_, ?_, ?_, ?_, hsize.trans hs.array⟩
  · exact fun q m h' => hs.whole q m ((hold q m).mp h').2
  · exact fun q m h' => hs.aligned q m ((hold q m).mp h').2
  · exact fun q m h' => hs.inside q m ((hold q m).mp h').2
  · exact fun q m q' m' h₁ h₂ => hs.disjoint q m q' m' ((hold q m).mp h₁).2 ((hold q' m').mp h₂).2
  · intro j
    show b.has j = true ↔ _
    rw [hhas j, hs.covered j]
    constructor
    · rintro ⟨hnot, q, m, h', hle, hlt⟩
      refine ⟨q, m, (hold q m).mpr ⟨?_, h'⟩, hle, hlt⟩
      rintro rfl
      obtain rfl : m = n := Option.some.inj (h'.symm.trans h)
      exact hnot ⟨hle, hlt⟩
    · rintro ⟨q, m, h', hle, hlt⟩
      obtain ⟨hne, h'⟩ := (hold q m).mp h'
      refine ⟨fun hin => ?_, q, m, h', hle, hlt⟩
      exact hs.disjoint q m p n h' h hne ⟨_, ⟨hle, hlt⟩, hin⟩

/-! ## Calls and runs -/

theorem exec_allocate (s : ProcessPool) (size : ℕ) :
    (Call.allocate size).exec s = match allocate size s with
      | .ok p s' => .ok (some p) s'
      | .error e s' => .error e s' := by
  cases h : allocate size s <;> simp [Call.exec, bind, EStateM.bind, pure, EStateM.pure, h]

theorem exec_deallocate (s : ProcessPool) (ptr : ℕ) :
    (Call.deallocate ptr).exec s = match deallocate ptr s with
      | .ok _ s' => .ok none s'
      | .error e s' => .error e s' := by
  cases h : deallocate ptr s <;> simp [Call.exec, bind, EStateM.bind, pure, EStateM.pure, h]

/-- A call that throws an exception without touching the state is right, as long as it does not give
up while there is room. -/
theorem callCorrect_of_error {c : Call} {e : PoolError} (he : c.exec s = .error e s)
    (hexc : e = .runtimeError ∨ e = .badAlloc)
    (hbad : ∀ size, c = .allocate size → e = .badAlloc →
      ¬∃ p, size ∣ p ∧ s.Inside p size ∧ s.Free p size) : s.CallCorrect c where
  block := by
    intro size p s' _ h
    rw [he] at h
    cases h
  badAlloc := by
    intro size s' hc h
    rw [he] at h
    cases h
    exact hbad size hc rfl
  bounds := by
    intro e' s' h
    rw [he] at h
    cases h
    exact hexc
  unchanged := by
    intro e' s' h
    rw [he] at h
    cases h
    exact ⟨rfl, rfl⟩

theorem callCorrect_of_ok {c : Call} {r : Option ℕ} {s' : ProcessPool} (hok : c.exec s = .ok r s')
    (hblock : ∀ size p, c = .allocate size → r = some p →
      size ∣ p ∧ s.Inside p size ∧ s.Free p size ∧ s'.allocatedBlocks p = some size) :
    s.CallCorrect c where
  block := by
    intro size p s'' hc h
    rw [hok] at h
    cases h
    exact hblock size p hc rfl
  badAlloc := by
    intro size s'' _ h
    rw [hok] at h
    cases h
  bounds := by
    intro e' s'' h
    rw [hok] at h
    cases h
  unchanged := by
    intro e' s'' h
    rw [hok] at h
    cases h

theorem Free.mono {n' : ℕ} (h : s.Free p n) (hle : n' ≤ n) : s.Free p n' := by
  rintro q m hq ⟨a, ⟨ha₁, ha₂⟩, ha₃⟩
  exact h q m hq ⟨a, ⟨ha₁, by omega⟩, ha₃⟩

/-- A slot that has all its bits lies in the part of the pool that the bitmap has bits for. -/
theorem slot_le_mappedEnd (hs : s.Good) (hv : s.ValidSize size)
    (hfit : i + size / 1024 ≤ s.bitmap.size) :
    s.poolBase + i * 1024 + size ≤ s.mappedEnd ∧ s.mappedEnd ≤ s.poolBase + s.poolSize := by
  have hdvd := hv.dvd
  have harr := hs.array
  rw [mappedEnd]
  rw [blockSize_eq] at harr ⊢
  constructor <;> omega

/-- A scan that leaves the array is one of a call that does not meet the condition. -/
theorem not_meetsBitmap_of_outOfBounds (hv : s.ValidSize size) (hp : size ∣ p)
    (hbase : s.poolBase ≤ p) (hend : p ≤ s.poolBase + s.poolSize) (hout : s.mappedEnd < p + size)
    (hfree : s.Free p (min size (s.mappedEnd - p)))
    (hall : ∀ q, size ∣ q → s.poolBase ≤ q → q < p → ¬s.Free q (min size (s.mappedEnd - q))) :
    ¬s.MeetsBitmap (.allocate size) := by
  intro hmeets
  rcases hmeets hv with ⟨q, hq, hqbase, hqend, hqfree⟩ | hblocked
  · exact hall q hq hqbase (by omega) (hqfree.mono (min_le_left _ _))
  · exact hblocked p hp hbase hend hfree

theorem allocate_callCorrect_iff (hs : s.Good) (size : ℕ) :
    s.CallCorrect (.allocate size) ↔ s.MeetsBitmap (.allocate size) := by
  have hexec := exec_allocate s size
  by_cases hv : s.ValidSize size
  · rcases allocate_cases hs hv with ⟨i, b, he, -, hfit, hal, hfree⟩ | ⟨he, hall⟩ |
      ⟨he, p, hp, hbase, hend, hout, hfree, hall⟩ <;> rw [he] at hexec
    · obtain ⟨hle, hmapped⟩ := slot_le_mappedEnd hs hv hfit
      have hcorrect : s.CallCorrect (.allocate size) := by
        refine callCorrect_of_ok hexec fun size' p hc hp => ?_
        cases hc
        cases hp
        exact ⟨hal, ⟨Nat.le_add_right _ _, by omega⟩, hfree, by simp [take, blockSize_eq]⟩
      exact iff_of_true hcorrect fun _ => .inl ⟨_, hal, Nat.le_add_right _ _, hle, hfree⟩
    · have hcorrect : s.CallCorrect (.allocate size) := by
        refine callCorrect_of_error hexec (.inr rfl) fun size' hc _ => ?_
        cases hc
        rintro ⟨p, hp, ⟨hbase, hend⟩, hfree⟩
        exact hall p hp hbase (by omega) (hfree.mono (min_le_left _ _))
      exact iff_of_true hcorrect fun _ => .inr hall
    · refine iff_of_false (fun h => ?_) (not_meetsBitmap_of_outOfBounds hv hp hbase hend hout hfree hall)
      rcases h.bounds _ _ hexec with h' | h' <;> cases h'
  · rw [allocate_invalid hv] at hexec
    exact iff_of_true (callCorrect_of_error hexec (.inl rfl) fun _ _ h => by cases h)
      fun hv' => absurd hv' hv

/-- **One call** on a good state is right if and only if it meets the condition. -/
theorem callCorrect_iff (hs : s.Good) (c : Call) : s.CallCorrect c ↔ s.MeetsBitmap c := by
  cases c with
  | allocate size => exact allocate_callCorrect_iff hs size
  | deallocate ptr =>
    refine iff_of_true ?_ trivial
    have hexec := exec_deallocate s ptr
    cases hptr : s.allocatedBlocks ptr with
    | none =>
      rw [deallocate_none hptr] at hexec
      exact callCorrect_of_error hexec (.inl rfl) fun _ hc => by cases hc
    | some n =>
      obtain ⟨b, he, -⟩ := deallocate_some hs hptr
      rw [he] at hexec
      exact callCorrect_of_ok hexec fun _ _ hc => by cases hc

/-- **One call** that meets the condition leaves a good state. -/
theorem after_good (hs : s.Good) (c : Call) (hc : s.MeetsBitmap c) : (s.after c).Good := by
  unfold after
  cases c with
  | allocate size =>
    rw [exec_allocate]
    by_cases hv : s.ValidSize size
    · rcases allocate_cases hs hv with ⟨i, b, he, hb, hfit, hal, hfree⟩ | ⟨he, -⟩ |
        ⟨-, p, hp, hbase, hend, hout, hfree, hall⟩
      · rw [he]
        exact take_good hs hv hb hfit hal hfree
      · rw [he]
        exact hs
      · exact absurd hc (not_meetsBitmap_of_outOfBounds hv hp hbase hend hout hfree hall)
    · rw [allocate_invalid hv]
      exact hs
  | deallocate ptr =>
    rw [exec_deallocate]
    cases hptr : s.allocatedBlocks ptr with
    | none =>
      rw [deallocate_none hptr]
      exact hs
    | some n =>
      obtain ⟨b, he, hsize, hhas⟩ := deallocate_some hs hptr
      rw [he]
      exact release_good hs hptr hsize hhas

/-- **The process pool is a correct allocator as long as the scan stops in time.** In every run whose
calls all meet the condition, the blocks are aligned, inside the pool, disjoint and those of the
bitmap, and the next call is right exactly when it meets the condition too. -/
theorem run_correct (r : PoolRegion) (calls : List Call) (h : RunMeetsBitmap (new r) calls) :
    (run (new r) calls).Good ∧
      ∀ c, (run (new r) calls).CallCorrect c ↔ (run (new r) calls).MeetsBitmap c := by
  have hgood : ∀ (s : ProcessPool) (calls : List Call), s.Good → RunMeetsBitmap s calls →
      (run s calls).Good := by
    intro s calls hs h
    induction calls generalizing s with
    | nil => exact hs
    | cons c calls ih => exact ih (s.after c) (after_good hs c h.1) h.2
  have hrun := hgood (new r) calls (new_good r) h
  exact ⟨hrun, callCorrect_iff hrun⟩

/-- A pool of 32 KBytes. -/
def region32K : PoolRegion :=
  ⟨0x20008000, 0x8000, by decide, by decide, by norm_num, by norm_num⟩

theorem run_correct_region32K :
    RunMeetsBitmap (new region32K) [.allocate 1024, .deallocate 0x20008000] ∧
      (run (new region32K) [.allocate 1024, .deallocate 0x20008000]).Good := by
  have hmeets : RunMeetsBitmap (new region32K) [.allocate 1024, .deallocate 0x20008000] := by
    refine ⟨fun _ => .inl ⟨0x20008000, by decide, by decide, by decide, ?_⟩, trivial, trivial⟩
    intro q m hq
    cases hq
  exact ⟨hmeets, (run_correct region32K _ hmeets).1⟩

/-- When the 32 KBytes are all taken, the next allocation reads the bit after the last one, which is
not in the array. -/
theorem not_callCorrect_full : ¬∀ (r : PoolRegion) (calls : List Call) (c : Call),
    (run (new r) calls).CallCorrect c := by
  intro h
  have hout : ∀ x, (Call.allocate 1024).exec (run (new region32K) [.allocate 0x8000]) = x →
      (match x with | .error e _ => some e | .ok _ _ => none) = some PoolError.outOfBounds := by
    rintro x rfl
    decide
  cases hx : (Call.allocate 1024).exec (run (new region32K) [.allocate 0x8000]) with
  | ok p s' => cases hout _ hx
  | error e s' =>
    cases hout _ hx
    rcases (h region32K [.allocate 0x8000] (.allocate 1024)).bounds _ _ hx with h' | h' <;> cases h'

end ProcessPool

end Miosix
