import Mathlib.Data.Nat.Bitwise
import Mathlib.Data.Set.Basic
import Mathlib.Order.Bounds.Defs
import Mathlib.Tactic.IntervalCases
import Mathlib.Tactic.NormNum

/-!
# The memory protection unit

A process has two regions: the code, which it may read, and its image, which it may write. A region
is a pair of registers, the base address with a region number and the size with attributes.

* `sizeToMpu`, `roundSizeForMPU`: sizes rounded up to what a region can have;
* `MPUConfiguration`, `withinForReading`, `withinForReadingStr`, `withinForWriting`;
* `region`, `writable`: the memory that the registers stand for;
* **`withinForWriting_iff`**, **`writable_eq`**: for an aligned image both are the image.
-/

namespace Miosix

/-- The leading zero bits of a word. -/
def clz (x : ℕ) : ℕ := 31 - Nat.log2 x

/-- The size field of a region, for a size of at least 32 bytes. -/
def sizeToMpu (size : ℕ) : ℕ :=
  let result := 30 - clz size
  if size &&& (size - 1) ≠ 0 then result + 1 else result

/-- The size of the region for a given size. -/
def roundSizeForMPU (size : ℕ) : ℕ := (1 <<< (sizeToMpu size + 1)) % 2 ^ 32

def mpuRbarValid : BitVec 32 := 1#32 <<< 4

def mpuRasrC : BitVec 32 := 1#32 <<< 17

def mpuRasrXn : BitVec 32 := 1#32 <<< 28

def mpuRasrApPos : ℕ := 24

/-- The length of a string, looking at no more than `n` bytes. -/
def strnlen (mem : ℕ → UInt8) : ℕ → ℕ → ℕ
  | _, 0 => 0
  | str, n + 1 => if mem str = 0 then 0 else strnlen mem (str + 1) n + 1

/-- The values copied into the registers. -/
structure MPUConfiguration where
  regValues : Fin 4 → BitVec 32

namespace MPUConfiguration

/-- The low bits of a base address register. -/
def baseMask : BitVec 32 := ~~~0x1f#32

def new (elfBase elfSize imageBase imageSize : ℕ) : MPUConfiguration where
  regValues
    | 0 => (BitVec.ofNat 32 elfBase &&& baseMask) ||| mpuRbarValid ||| 6#32
    -- privileged: RW, unprivileged: RO
    | 1 => (2#32 <<< mpuRasrApPos) ||| mpuRasrC ||| 1#32 ||| (BitVec.ofNat 32 (sizeToMpu elfSize) <<< 1)
    | 2 => (BitVec.ofNat 32 imageBase &&& baseMask) ||| mpuRbarValid ||| 7#32
    -- privileged: RW, unprivileged: RW
    | 3 => (3#32 <<< mpuRasrApPos) ||| mpuRasrXn ||| mpuRasrC ||| 1#32 |||
      (BitVec.ofNat 32 (sizeToMpu imageSize) <<< 1)

variable (c : MPUConfiguration)

/-- The base address that a pair of registers holds. -/
def start (rbar : BitVec 32) : BitVec 32 := rbar &&& baseMask

/-- The end of the region that starts at `base`, which wraps around at the end of memory. -/
def regionEnd (base rasr : BitVec 32) : BitVec 32 :=
  base + (1#32 <<< (((rasr >>> 1) &&& 31#32) + 1#32))

def withinForReading (ptr size : BitVec 32) : Bool :=
  let codeStart := start (c.regValues 0)
  let codeEnd := regionEnd codeStart (c.regValues 1)
  let dataStart := start (c.regValues 2)
  let dataEnd := regionEnd dataStart (c.regValues 3)
  -- the last check is to prevent a wraparound to be considered valid
  ((codeStart ≤ ptr && ptr + size < codeEnd) || (dataStart ≤ ptr && ptr + size < dataEnd)) &&
    ptr ≤ ptr + size

/-- A string is readable if it ends in the region where it starts. -/
def withinForReadingStr (mem : ℕ → UInt8) (str : BitVec 32) : Bool :=
  let codeStart := start (c.regValues 0)
  let codeEnd := regionEnd codeStart (c.regValues 1)
  let dataStart := start (c.regValues 2)
  let dataEnd := regionEnd dataStart (c.regValues 3)
  if codeStart ≤ str && str < codeEnd then
    strnlen mem str.toNat (codeEnd - str).toNat < (codeEnd - str).toNat
  else if dataStart ≤ str && str < dataEnd then
    strnlen mem str.toNat (dataEnd - str).toNat < (dataEnd - str).toNat
  else false

def withinForWriting (ptr size : BitVec 32) : Bool :=
  let dataStart := start (c.regValues 2)
  let dataEnd := regionEnd dataStart (c.regValues 3)
  -- the last check is to prevent a wraparound to be considered valid
  dataStart ≤ ptr && ptr + size < dataEnd && ptr ≤ ptr + size

/-! ## What the registers stand for -/

/-- How many bytes a region has. -/
def regionSize (rasr : BitVec 32) : ℕ := 2 ^ (((rasr >>> 1) &&& 31#32).toNat + 1)

/-- The size of a region is the least power of two that is not smaller, and the registers hold it. -/
def Rounded (n : ℕ) : Prop :=
  IsLeast {m | m.isPowerOfTwo ∧ n ≤ m} (roundSizeForMPU n) ∧
    ∀ base other size, regionSize ((new base n other size).regValues 1) = roundSizeForMPU n ∧
      regionSize ((new other size base n).regValues 3) = roundSizeForMPU n

/-- The addresses of a region. The hardware ignores the bits of the base below the size. -/
def region (rbar rasr : BitVec 32) : Set ℕ :=
  {a | (start rbar).toNat / regionSize rasr * regionSize rasr ≤ a ∧
    a < (start rbar).toNat / regionSize rasr * regionSize rasr + regionSize rasr}

/-- The region is enabled, and unprivileged code may write it. -/
def isWritable (rasr : BitVec 32) : Bool :=
  rasr &&& 1#32 == 1#32 && (rasr >>> mpuRasrApPos) &&& 7#32 == 3#32

/-- The memory that the process may read and execute. -/
def code : Set ℕ := region (c.regValues 0) (c.regValues 1)

/-- The memory that the process may write. -/
def writable : Set ℕ :=
  {a | (isWritable (c.regValues 1) = true ∧ a ∈ region (c.regValues 0) (c.regValues 1)) ∨
    (isWritable (c.regValues 3) = true ∧ a ∈ region (c.regValues 2) (c.regValues 3))}

/-! ## Encoding and decoding -/

theorem sizeToMpu_lt (size : ℕ) : sizeToMpu size < 32 := by
  unfold sizeToMpu
  simp only
  split_ifs <;> omega

/-- A power of two is encoded exactly. -/
theorem sizeToMpu_two_pow {k : ℕ} (h1 : 1 ≤ k) (hk : k < 32) : sizeToMpu (2 ^ k) = k - 1 := by
  have hpow : 2 ^ k &&& (2 ^ k - 1) = 0 :=
    (Nat.and_sub_one_eq_zero_iff_isPowerOfTwo (by positivity)).mpr ⟨k, rfl⟩
  rw [sizeToMpu, hpow]
  simp only [ne_eq, not_true, if_false, clz, Nat.log2_two_pow]
  omega

theorem and_baseMask_of_dvd {base : ℕ} (h : 32 ∣ base) :
    BitVec.ofNat 32 base &&& baseMask = BitVec.ofNat 32 base := by
  apply BitVec.eq_of_getLsbD_eq
  intro i hi
  rw [BitVec.getLsbD_and]
  by_cases h5 : i < 5
  · obtain ⟨b, rfl⟩ := h
    have hbit : (BitVec.ofNat 32 (32 * b)).getLsbD i = false := by
      rw [BitVec.getLsbD_ofNat, show 32 * b = 2 ^ 5 * b by rfl, Nat.testBit_two_pow_mul]
      simp [Nat.not_le.mpr h5]
    rw [hbit, Bool.false_and]
  · have hmask : baseMask.getLsbD i = true := by
      interval_cases i <;> decide
    rw [hmask, Bool.and_true]

/-- The base address survives being stored with the region number. -/
theorem start_encode {base : ℕ} (h : 32 ∣ base) {n : BitVec 32} (hn : n &&& baseMask = 0#32) :
    start ((BitVec.ofNat 32 base &&& baseMask) ||| mpuRbarValid ||| n) = BitVec.ofNat 32 base := by
  have hvalid : mpuRbarValid &&& baseMask = 0#32 := by decide
  rw [start, and_baseMask_of_dvd h, BitVec.and_or_distrib_right, BitVec.and_or_distrib_right, hn,
    hvalid, and_baseMask_of_dvd h]
  simp

/-- The size field survives being stored with the attributes. -/
theorem sizeField_encode {n : ℕ} (hn : n < 32) :
    (((3#32 <<< mpuRasrApPos) ||| mpuRasrXn ||| mpuRasrC ||| 1#32 ||| (BitVec.ofNat 32 n <<< 1)) >>> 1)
      &&& 31#32 = BitVec.ofNat 32 n := by
  interval_cases n <;> decide

theorem isWritable_image {n : ℕ} (hn : n < 32) :
    isWritable ((3#32 <<< mpuRasrApPos) ||| mpuRasrXn ||| mpuRasrC ||| 1#32 |||
      (BitVec.ofNat 32 n <<< 1)) = true := by
  interval_cases n <;> decide

theorem isWritable_code {n : ℕ} (hn : n < 32) :
    isWritable ((2#32 <<< mpuRasrApPos) ||| mpuRasrC ||| 1#32 ||| (BitVec.ofNat 32 n <<< 1)) =
      false := by
  interval_cases n <;> decide

section Image

variable {elfBase elfSize imageBase k : ℕ}

theorem start_image (h5 : 5 ≤ k) (hal : 2 ^ k ∣ imageBase) :
    start ((new elfBase elfSize imageBase (2 ^ k)).regValues 2) = BitVec.ofNat 32 imageBase := by
  have h32 : 32 ∣ imageBase := Dvd.dvd.trans (pow_dvd_pow 2 h5 : 2 ^ 5 ∣ 2 ^ k) hal
  exact start_encode h32 (by decide)

variable (h5 : 5 ≤ k) (hk : k < 32)
include h5 hk

theorem sizeField_image :
    ((new elfBase elfSize imageBase (2 ^ k)).regValues 3 >>> 1) &&& 31#32 = BitVec.ofNat 32 (k - 1) := by
  have hsize : sizeToMpu (2 ^ k) = k - 1 := sizeToMpu_two_pow (by omega) hk
  show (((3#32 <<< mpuRasrApPos) ||| mpuRasrXn ||| mpuRasrC ||| 1#32 |||
    (BitVec.ofNat 32 (sizeToMpu (2 ^ k)) <<< 1)) >>> 1) &&& 31#32 = _
  rw [hsize]
  exact sizeField_encode (by omega)

theorem regionSize_image :
    regionSize ((new elfBase elfSize imageBase (2 ^ k)).regValues 3) = 2 ^ k := by
  rw [regionSize, sizeField_image h5 hk, BitVec.toNat_ofNat, Nat.mod_eq_of_lt (by omega)]
  congr 1
  omega

theorem regionEnd_image :
    (regionEnd (BitVec.ofNat 32 imageBase)
      ((new elfBase elfSize imageBase (2 ^ k)).regValues 3)).toNat =
      (imageBase + 2 ^ k) % 2 ^ 32 := by
  have hshift : (1#32 <<< (BitVec.ofNat 32 (k - 1) + 1#32)).toNat = 2 ^ k := by
    interval_cases k <;> decide
  rw [regionEnd, sizeField_image h5 hk, BitVec.toNat_add, hshift, BitVec.toNat_ofNat, Nat.mod_add_mod]

variable (hal : 2 ^ k ∣ imageBase)
include hal

/-- **The writable memory of a process** is its image. -/
theorem writable_eq (hlt : imageBase < 2 ^ 32) :
    (new elfBase elfSize imageBase (2 ^ k)).writable =
      {a | imageBase ≤ a ∧ a < imageBase + 2 ^ k} := by
  have hcode : isWritable ((new elfBase elfSize imageBase (2 ^ k)).regValues 1) = false :=
    isWritable_code (sizeToMpu_lt elfSize)
  have himage : isWritable ((new elfBase elfSize imageBase (2 ^ k)).regValues 3) = true :=
    isWritable_image (sizeToMpu_lt (2 ^ k))
  have hbase : (BitVec.ofNat 32 imageBase).toNat / 2 ^ k * 2 ^ k = imageBase := by
    rw [BitVec.toNat_ofNat, Nat.mod_eq_of_lt hlt, Nat.div_mul_cancel hal]
  ext a
  rw [writable, region, region, hcode, himage, start_image h5 hal, regionSize_image h5 hk, hbase]
  simp

/-- **The check before the kernel writes for a process** lets through exactly the ranges that end
before the last byte of its image. -/
theorem withinForWriting_iff (hend : imageBase + 2 ^ k ≤ 2 ^ 32) (ptr size : BitVec 32) :
    (new elfBase elfSize imageBase (2 ^ k)).withinForWriting ptr size = true ↔
      imageBase ≤ ptr.toNat ∧ ptr.toNat + size.toNat < imageBase + 2 ^ k ∧
        imageBase + 2 ^ k < 2 ^ 32 := by
  have hpos : 0 < 2 ^ k := by positivity
  have hptr := ptr.isLt
  have hsize := size.isLt
  have hstart : (BitVec.ofNat 32 imageBase).toNat = imageBase := by
    rw [BitVec.toNat_ofNat, Nat.mod_eq_of_lt (by omega)]
  rw [withinForWriting, start_image h5 hal]
  simp only [Bool.and_eq_true, decide_eq_true_eq, BitVec.le_def, BitVec.lt_def, hstart,
    BitVec.toNat_add, regionEnd_image h5 hk]
  generalize 2 ^ k = n at hpos hend ⊢
  omega

end Image

end MPUConfiguration

end Miosix
