import MiosixKernel.Process.Mpu
import Mathlib.Order.Interval.Set.Basic

/-!
# Access checks

Before the kernel touches the memory of a process it asks the MPU configuration. The configuration stands for
two regions, and a check is exact if it lets through the ranges and the strings that lie in a region, and no
others.

* `MpuRegion`: a region that the registers can hold;
* `Access.Permitted`, `Access.Early`: what may be accessed, and the condition under which the check says so;
* `roundSizeForMPU_isLeast`: the size of a region is the least power of two;
* **`checks_exact_iff`**: when a check is exact.
-/

namespace Miosix

/-- A region of a size that is a power of two, aligned to it, in a memory of 2³² bytes. -/
structure MpuRegion where
  base : ℕ
  exponent : ℕ
  le : 5 ≤ exponent
  lt : exponent < 32
  aligned : 2 ^ exponent ∣ base
  inMemory : base + 2 ^ exponent ≤ 2 ^ 32

namespace MpuRegion

variable (r : MpuRegion)

def size : ℕ := 2 ^ r.exponent

/-- One past the last address. -/
def finish : ℕ := r.base + r.size

def addresses : Set ℕ := Set.Ico r.base r.finish

end MpuRegion

namespace MPUConfiguration

/-- The configuration of a process with two regions. -/
def ofRegions (code data : MpuRegion) : MPUConfiguration := new code.base code.size data.base data.size

/-! ## The specification -/

/-- What the kernel asks for. -/
inductive Access where
  | writing (ptr size : BitVec 32)
  | reading (ptr size : BitVec 32)
  | readingStr (str : BitVec 32)

namespace Access

/-- At least one byte. -/
def Nonempty : Access → Prop
  | writing _ size | reading _ size => size ≠ 0
  | readingStr _ => True

/-- What the code answers. -/
def check (c : MPUConfiguration) (mem : ℕ → UInt8) : Access → Bool
  | writing ptr size => c.withinForWriting ptr size
  | reading ptr size => c.withinForReading ptr size
  | readingStr str => c.withinForReadingStr mem str

/-- The range does not wrap around and lies in the region. -/
def Inside (r : MpuRegion) (ptr size : BitVec 32) : Prop :=
  ptr.toNat + size.toNat ≤ 2 ^ 32 ∧ Set.Ico ptr.toNat (ptr.toNat + size.toNat) ⊆ r.addresses

/-- The string ends in the region. -/
def EndsIn (r : MpuRegion) (mem : ℕ → UInt8) (str : BitVec 32) : Prop :=
  ∃ a, str.toNat ≤ a ∧ a ∈ r.addresses ∧ mem a = 0

/-- What the process may access. The region of a string is the code if it contains the string, or else the
data. -/
def Permitted (code data : MpuRegion) (mem : ℕ → UInt8) : Access → Prop
  | writing ptr size => Inside data ptr size
  | reading ptr size => Inside code ptr size ∨ Inside data ptr size
  | readingStr str => (str.toNat ∈ code.addresses ∧ EndsIn code mem str) ∨
    (str.toNat ∉ code.addresses ∧ str.toNat ∈ data.addresses ∧ EndsIn data mem str)

/-- The region does not end with the range, nor with the memory. -/
def EndsBefore (r : MpuRegion) (ptr size : BitVec 32) : Prop :=
  ptr.toNat + size.toNat ≠ r.finish ∧ r.finish ≠ 2 ^ 32

/-- The condition. A range that lies in a region ends before it, and the region ends before the memory. So
does the region of a string that ends in it (or the data, if the string is in both regions). -/
def Early (code data : MpuRegion) (mem : ℕ → UInt8) : Access → Prop
  | writing ptr size => Inside data ptr size → EndsBefore data ptr size
  | reading ptr size => Inside code ptr size ∨ Inside data ptr size →
    (Inside code ptr size ∧ EndsBefore code ptr size) ∨ (Inside data ptr size ∧ EndsBefore data ptr size)
  | readingStr str =>
    (str.toNat ∈ code.addresses → EndsIn code mem str → code.finish ≠ 2 ^ 32 ∨
      (str.toNat ∈ data.addresses ∧ EndsIn data mem str ∧ data.finish ≠ 2 ^ 32)) ∧
    (str.toNat ∉ code.addresses → str.toNat ∈ data.addresses → EndsIn data mem str → data.finish ≠ 2 ^ 32)

end Access

/-! ## Sizes -/

theorem sizeToMpu_eq {n : ℕ} (h32 : 32 ≤ n) (hn : n ≤ 2 ^ 31) :
    sizeToMpu n < 31 ∧ n ≤ 2 ^ (sizeToMpu n + 1) ∧ 2 ^ sizeToMpu n < n := by
  have hpos : n ≠ 0 := by omega
  have hle := Nat.log2_self_le hpos
  have hlt := Nat.lt_log2_self (n := n)
  have h5 : 5 ≤ n.log2 := (Nat.le_log2 hpos).2 (by omega)
  have h31 : n.log2 ≤ 31 := by
    by_contra hc
    have : 2 ^ 32 ≤ 2 ^ n.log2 := Nat.pow_le_pow_right (by omega) (by omega)
    omega
  have hhalf : 2 ^ n.log2 = 2 * 2 ^ (n.log2 - 1) := by
    rw [← Nat.pow_succ', Nat.succ_eq_add_one, Nat.sub_add_cancel (by omega)]
  have hresult : 30 - clz n = n.log2 - 1 := by
    unfold clz
    omega
  unfold sizeToMpu
  simp only [hresult]
  split_ifs with hpow
  · have hne : n ≠ 2 ^ n.log2 := fun he =>
      hpow ((Nat.and_sub_one_eq_zero_iff_isPowerOfTwo hpos).2 ⟨n.log2, he⟩)
    have hlog : n.log2 ≠ 31 := fun he => by
      rw [he] at hle hne
      omega
    rw [Nat.sub_add_cancel (show 1 ≤ n.log2 by omega)]
    exact ⟨by omega, hlt.le, lt_of_le_of_ne hle hne.symm⟩
  · obtain ⟨k, rfl⟩ := (Nat.and_sub_one_eq_zero_iff_isPowerOfTwo hpos).1 (not_not.1 hpow)
    rw [Nat.log2_two_pow] at *
    rw [Nat.sub_add_cancel (show 1 ≤ k by omega)]
    exact ⟨by omega, le_rfl, by omega⟩

theorem roundSizeForMPU_eq {n : ℕ} (h32 : 32 ≤ n) (hn : n ≤ 2 ^ 31) :
    roundSizeForMPU n = 2 ^ (sizeToMpu n + 1) := by
  have hlt := (sizeToMpu_eq h32 hn).1
  have hpow : 2 ^ (sizeToMpu n + 1) < 2 ^ 32 := Nat.pow_lt_pow_right (by omega) (by omega)
  rw [roundSizeForMPU, Nat.one_shiftLeft, Nat.mod_eq_of_lt hpow]

theorem roundSizeForMPU_isLeast {n : ℕ} (h32 : 32 ≤ n) (hn : n ≤ 2 ^ 31) :
    IsLeast {m | m.isPowerOfTwo ∧ n ≤ m} (roundSizeForMPU n) := by
  obtain ⟨-, hle, hlt⟩ := sizeToMpu_eq h32 hn
  rw [roundSizeForMPU_eq h32 hn]
  refine ⟨⟨⟨_, rfl⟩, hle⟩, ?_⟩
  rintro m ⟨⟨k, rfl⟩, hnk⟩
  exact Nat.pow_le_pow_right (by omega)
    ((Nat.pow_lt_pow_iff_right (show 1 < 2 by omega)).1 (hlt.trans_le hnk))

/-! ## The registers -/

/-- The size field survives being stored with the attributes of the code. -/
theorem sizeField_encode_code {n : ℕ} (hn : n < 32) :
    (((2#32 <<< mpuRasrApPos) ||| mpuRasrC ||| 1#32 ||| (BitVec.ofNat 32 n <<< 1)) >>> 1) &&& 31#32 =
      BitVec.ofNat 32 n := by
  interval_cases n <;> decide

theorem sizeField_new (elfBase elfSize imageBase imageSize : ℕ) :
    ((new elfBase elfSize imageBase imageSize).regValues 1 >>> 1) &&& 31#32 =
        BitVec.ofNat 32 (sizeToMpu elfSize) ∧
      ((new elfBase elfSize imageBase imageSize).regValues 3 >>> 1) &&& 31#32 =
        BitVec.ofNat 32 (sizeToMpu imageSize) :=
  ⟨sizeField_encode_code (sizeToMpu_lt elfSize), sizeField_encode (sizeToMpu_lt imageSize)⟩

theorem regionSize_of_sizeField {rasr : BitVec 32} {n : ℕ} (hn : n < 32)
    (h : (rasr >>> 1) &&& 31#32 = BitVec.ofNat 32 n) : regionSize rasr = 2 ^ (n + 1) := by
  rw [regionSize, h, BitVec.toNat_ofNat, Nat.mod_eq_of_lt (by omega)]

theorem rounded {n : ℕ} (h32 : 32 ≤ n) (hn : n ≤ 2 ^ 31) : Rounded n := by
  refine ⟨roundSizeForMPU_isLeast h32 hn, fun base other size => ?_⟩
  obtain ⟨hcode, -⟩ := sizeField_new base n other size
  obtain ⟨-, hdata⟩ := sizeField_new other size base n
  rw [roundSizeForMPU_eq h32 hn]
  exact ⟨regionSize_of_sizeField (sizeToMpu_lt n) hcode, regionSize_of_sizeField (sizeToMpu_lt n) hdata⟩

/-- A pair of registers from which the code reads the bounds of a region. Its end is zero if the region ends
with the memory. -/
structure Holds (r : MpuRegion) (rbar rasr : BitVec 32) : Prop where
  start_eq : (start rbar).toNat = r.base
  end_eq : (regionEnd (start rbar) rasr).toNat = r.finish % 2 ^ 32

theorem Holds.of_fields {r : MpuRegion} {rbar rasr : BitVec 32} (hbase : start rbar = BitVec.ofNat 32 r.base)
    (hsize : (rasr >>> 1) &&& 31#32 = BitVec.ofNat 32 (sizeToMpu r.size)) : Holds r rbar rasr := by
  have hle := r.le
  have hlt := r.lt
  have hmem := r.inMemory
  have hpos : 0 < 2 ^ r.exponent := by positivity
  have hstart : (start rbar).toNat = r.base := by
    rw [hbase, BitVec.toNat_ofNat, Nat.mod_eq_of_lt (by omega)]
  have hfield : sizeToMpu r.size = r.exponent - 1 := sizeToMpu_two_pow (by omega) hlt
  have hshift : (1#32 <<< (BitVec.ofNat 32 (r.exponent - 1) + 1#32)).toNat = 2 ^ r.exponent := by
    generalize r.exponent = k at hle hlt
    interval_cases k <;> decide
  refine ⟨hstart, ?_⟩
  rw [regionEnd, hsize, hfield, BitVec.toNat_add, hshift, hstart]
  rfl

theorem holds_ofRegions (code data : MpuRegion) :
    Holds code ((ofRegions code data).regValues 0) ((ofRegions code data).regValues 1) ∧
      Holds data ((ofRegions code data).regValues 2) ((ofRegions code data).regValues 3) := by
  have h32 (r : MpuRegion) : 32 ∣ r.base := (pow_dvd_pow 2 r.le : 2 ^ 5 ∣ 2 ^ r.exponent).trans r.aligned
  obtain ⟨hcode, hdata⟩ := sizeField_new code.base code.size data.base data.size
  exact ⟨.of_fields (start_encode (h32 code) (by decide)) hcode,
    .of_fields (start_encode (h32 data) (by decide)) hdata⟩

/-! ## The checks -/

section Checks

variable {r : MpuRegion} {rbar rasr : BitVec 32}

/-- A range is found in a region if it is there and ends early. -/
theorem Holds.range_iff (h : Holds r rbar rasr) (ptr : BitVec 32) {size : BitVec 32} (hsize : size ≠ 0) :
    ((start rbar ≤ ptr ∧ ptr + size < regionEnd (start rbar) rasr) ∧ ptr ≤ ptr + size) ↔
      Access.Inside r ptr size ∧ Access.EndsBefore r ptr size := by
  have hpos : 0 < size.toNat := Nat.pos_of_ne_zero fun h0 => hsize (BitVec.eq_of_toNat_eq h0)
  have hfin : r.finish ≤ 2 ^ 32 := r.inMemory
  have hptr := ptr.isLt
  have hlt := size.isLt
  rw [Access.Inside, Access.EndsBefore, MpuRegion.addresses, Set.Ico_subset_Ico_iff (by omega)]
  simp only [BitVec.le_def, BitVec.lt_def, BitVec.toNat_add, h.start_eq, h.end_eq]
  generalize r.finish = e at hfin
  omega

theorem Holds.mem_iff (h : Holds r rbar rasr) (str : BitVec 32) :
    (start rbar ≤ str ∧ str < regionEnd (start rbar) rasr) ↔
      str.toNat ∈ r.addresses ∧ r.finish ≠ 2 ^ 32 := by
  have hfin : r.finish ≤ 2 ^ 32 := r.inMemory
  have hstr := str.isLt
  rw [MpuRegion.addresses, Set.mem_Ico]
  simp only [BitVec.le_def, BitVec.lt_def, h.start_eq, h.end_eq]
  generalize r.finish = e at hfin
  omega

theorem strnlen_lt_iff (mem : ℕ → UInt8) : ∀ n str : ℕ,
    strnlen mem str n < n ↔ ∃ a, str ≤ a ∧ a < str + n ∧ mem a = 0
  | 0, _ => ⟨fun h => absurd h (lt_irrefl 0), fun ⟨_, h1, h2, _⟩ => absurd h2 (not_lt.2 h1)⟩
  | n + 1, str => by
    rw [strnlen]
    split_ifs with h0
    · exact ⟨fun _ => ⟨str, le_rfl, by omega, h0⟩, fun _ => by omega⟩
    · rw [Nat.succ_lt_succ_iff, strnlen_lt_iff mem n (str + 1)]
      constructor
      · rintro ⟨a, h1, h2, h3⟩
        exact ⟨a, by omega, by omega, h3⟩
      · rintro ⟨a, h1, h2, h3⟩
        have hne : a ≠ str := fun he => h0 (he ▸ h3)
        exact ⟨a, by omega, by omega, h3⟩

/-- The rest of the region is searched for the end of the string. -/
theorem Holds.strnlen_iff (h : Holds r rbar rasr) (mem : ℕ → UInt8) {str : BitVec 32}
    (hmem : str.toNat ∈ r.addresses) (hfin : r.finish ≠ 2 ^ 32) :
    strnlen mem str.toNat (regionEnd (start rbar) rasr - str).toNat <
        (regionEnd (start rbar) rasr - str).toNat ↔ Access.EndsIn r mem str := by
  have hle : r.finish ≤ 2 ^ 32 := r.inMemory
  obtain ⟨hbase, hlt⟩ := Set.mem_Ico.1 hmem
  have hend : (regionEnd (start rbar) rasr).toNat = r.finish := by
    rw [h.end_eq, Nat.mod_eq_of_lt (by omega)]
  have hsub : (regionEnd (start rbar) rasr - str).toNat = r.finish - str.toNat := by
    rw [BitVec.toNat_sub_of_le (by rw [BitVec.le_def, hend]; omega), hend]
  rw [strnlen_lt_iff, hsub, Access.EndsIn, MpuRegion.addresses]
  refine exists_congr fun a => ?_
  rw [Set.mem_Ico]
  constructor
  · rintro ⟨h1, h2, h3⟩
    exact ⟨h1, ⟨by omega, by omega⟩, h3⟩
  · rintro ⟨h1, ⟨-, h2⟩, h3⟩
    exact ⟨h1, by omega, h3⟩

end Checks

variable (code data : MpuRegion) (mem : ℕ → UInt8)

theorem withinForWriting_eq_true_iff {ptr size : BitVec 32} (h : size ≠ 0) :
    (ofRegions code data).withinForWriting ptr size = true ↔
      Access.Inside data ptr size ∧ Access.EndsBefore data ptr size := by
  rw [← (holds_ofRegions code data).2.range_iff ptr h]
  simp [withinForWriting]

theorem withinForReading_eq_true_iff {ptr size : BitVec 32} (h : size ≠ 0) :
    (ofRegions code data).withinForReading ptr size = true ↔
      (Access.Inside code ptr size ∧ Access.EndsBefore code ptr size) ∨
        (Access.Inside data ptr size ∧ Access.EndsBefore data ptr size) := by
  obtain ⟨hcode, hdata⟩ := holds_ofRegions code data
  rw [← hcode.range_iff ptr h, ← hdata.range_iff ptr h, ← or_and_right]
  simp [withinForReading]

theorem withinForReadingStr_eq_true_iff (str : BitVec 32) :
    (ofRegions code data).withinForReadingStr mem str = true ↔
      ((str.toNat ∈ code.addresses ∧ code.finish ≠ 2 ^ 32) ∧ Access.EndsIn code mem str) ∨
        (¬ (str.toNat ∈ code.addresses ∧ code.finish ≠ 2 ^ 32) ∧
          (str.toNat ∈ data.addresses ∧ data.finish ≠ 2 ^ 32) ∧ Access.EndsIn data mem str) := by
  obtain ⟨hcode, hdata⟩ := holds_ofRegions code data
  rw [withinForReadingStr]
  split_ifs with h1 h2 <;>
    simp only [Bool.and_eq_true, decide_eq_true_eq, hcode.mem_iff, hdata.mem_iff] at *
  · rw [hcode.strnlen_iff mem h1.1 h1.2]
    tauto
  · rw [hdata.strnlen_iff mem h2.1 h2.2]
    tauto
  · simp only [false_iff]
    tauto

/-- **When the access checks are exact.** The sizes of regions always are; a check says what may be accessed
exactly when the range or the string meets the condition. -/
theorem checks_exact_iff (a : Access) (ha : a.Nonempty) :
    ((∀ n, 32 ≤ n → n ≤ 2 ^ 31 → Rounded n) ∧
      (a.check (ofRegions code data) mem = true ↔ a.Permitted code data mem)) ↔
      a.Early code data mem := by
  rw [and_iff_right fun n h32 hn => rounded h32 hn]
  cases a with
  | writing ptr size =>
    rw [Access.check, withinForWriting_eq_true_iff code data ha, Access.Permitted, Access.Early]
    tauto
  | reading ptr size =>
    rw [Access.check, withinForReading_eq_true_iff code data ha, Access.Permitted, Access.Early]
    tauto
  | readingStr str =>
    have hsub : code.finish = 2 ^ 32 → str.toNat ∈ code.addresses → Access.EndsIn data mem str →
        data.finish ≠ 2 ^ 32 → Access.EndsIn code mem str := by
      rintro hfin hmem ⟨a, h1, h2, h3⟩ -
      have hle : data.finish ≤ 2 ^ 32 := data.inMemory
      obtain ⟨hbase, -⟩ := Set.mem_Ico.1 hmem
      obtain ⟨-, hlt⟩ := Set.mem_Ico.1 h2
      exact ⟨a, h1, Set.mem_Ico.2 ⟨by omega, by omega⟩, h3⟩
    rw [Access.check, withinForReadingStr_eq_true_iff, Access.Permitted, Access.Early]
    by_cases hA : str.toNat ∈ code.addresses <;> by_cases hB : code.finish = 2 ^ 32
    · have hsub := hsub hB hA
      simp only [hA, hB, ne_eq, not_true, and_false, false_and, false_or, not_false_iff, true_and, or_false,
        forall_const, false_imp_iff, and_true]
      tauto
    · simp only [hA, hB, ne_eq, not_false_iff, and_true, true_and, not_true, false_and, or_false, true_or,
        imp_true_iff, false_imp_iff]
    · simp only [hA, ne_eq, false_and, not_false_iff, true_and, false_or, false_imp_iff, forall_const]
      tauto
    · simp only [hA, ne_eq, false_and, not_false_iff, true_and, false_or, false_imp_iff, forall_const]
      tauto

/-- The code in flash memory and 1024 bytes of data. -/
def flashRegion : MpuRegion := ⟨0x08000000, 16, by decide, by decide, by decide, by decide⟩

def ramRegion : MpuRegion := ⟨0x20000400, 10, by decide, by decide, by decide, by decide⟩

theorem checks_exact_half :
    ((∀ n, 32 ≤ n → n ≤ 2 ^ 31 → Rounded n) ∧
      ((Access.writing 0x20000400 512).check (ofRegions flashRegion ramRegion) (fun _ => 0) = true ↔
        (Access.writing 0x20000400 512).Permitted flashRegion ramRegion fun _ => 0)) :=
  (checks_exact_iff flashRegion ramRegion (fun _ => 0) (.writing 0x20000400 512)
    (show (512 : BitVec 32) ≠ 0 by decide)).2
    fun _ => ⟨by decide, by decide⟩

/-- The whole data region may be written, and the check says no. -/
theorem not_exact_whole : ¬ ((ofRegions flashRegion ramRegion).withinForWriting 0x20000400 1024 = true ↔
    (Access.writing 0x20000400 1024).Permitted flashRegion ramRegion fun _ => 0) := by
  have hperm : (Access.writing 0x20000400 1024).Permitted flashRegion ramRegion fun _ => 0 :=
    ⟨by decide, fun _ h => h⟩
  intro h
  exact absurd (h.2 hperm) (by decide)

end MPUConfiguration

end Miosix
