import MiosixKernel.Lib.Word
import MiosixKernel.Util.Errno

/-!
# Device files

A `DevFsFile` keeps the position at which its device is read or written. Positions are signed 64 bit words,
lengths unsigned 32 bit words, and a sum of the two can wrap around: then the length is reduced.

* `DevFsFile`, `transfer`, `lseek`: the code; `read` and `write` are the same but for a flag;
* `Call.Correct`: what a call promises; `Call.Fits`: the condition under which it keeps it;
* `correct_iff`: one call; **`run_correct_iff`**: a run.
-/

namespace Miosix

open Lib

/-- The largest position. -/
def offMax : ℤ := 2 ^ 63 - 1

/-- A sum or difference of positions wraps around. -/
def off (x : ℤ) : ℤ := i64 (u64 x)

structure DevFsFile where
  seekPoint : ℤ
  flags : ℕ

/-- `readBlock` or `writeBlock`: the result for a length and a position, never more than the length. -/
structure Block where
  result : ℕ → ℤ → ℤ
  le : ∀ len pos, result len pos ≤ len

namespace DevFsFile

def flagRead : ℕ := 1

def flagWrite : ℕ := 2

def flagNoSeek : ℕ := 0x20000

def SEEK_SET : ℤ := 0

def SEEK_CUR : ℤ := 1

def opened (flags : ℕ) : DevFsFile := ⟨0, flags⟩

/-- The length that is passed to the device. -/
def clamp (f : DevFsFile) (len : ℕ) : ℕ :=
  if off (f.seekPoint + len) < 0 then u32 (off (off (offMax - f.seekPoint) - len)) else len

/-- `read` and `write`, with the flag that they need: the result, and the length passed to the device if it
was called. -/
def transfer (flag : ℕ) (f : DevFsFile) (len : UInt32) (dev : Block) : DevFsFile × ℤ × Option ℕ :=
  if f.flags &&& flag = 0 then (f, -EINVAL, none)
  else
    let len := f.clamp len.toNat
    let result := dev.result len f.seekPoint
    if 0 < result ∧ f.flags &&& flagNoSeek = 0 then
      ({ f with seekPoint := off (f.seekPoint + result) }, result, some len)
    else (f, result, some len)

def write : DevFsFile → UInt32 → Block → DevFsFile × ℤ × Option ℕ := transfer flagWrite

def read : DevFsFile → UInt32 → Block → DevFsFile × ℤ × Option ℕ := transfer flagRead

def lseek (f : DevFsFile) (pos : Int64) (whence : ℤ) : DevFsFile × ℤ :=
  let seek (newSeekPoint : ℤ) : DevFsFile × ℤ :=
    if newSeekPoint < 0 then (f, -EOVERFLOW)
    else ({ f with seekPoint := newSeekPoint }, newSeekPoint)
  if f.flags &&& flagNoSeek ≠ 0 then (f, -EBADF)
  else if whence = SEEK_CUR then seek (off (f.seekPoint + pos.toInt))
  else if whence = SEEK_SET then seek pos.toInt
  else (f, -EINVAL)

/-! ## Calls -/

inductive Call where
  | read (len : UInt32) (dev : Block)
  | write (len : UInt32) (dev : Block)
  | lseek (pos : Int64) (whence : ℤ)

/-- A call: the file after it, the result, and the length passed to the device. -/
def exec (f : DevFsFile) : Call → DevFsFile × ℤ × Option ℕ
  | .read len dev => f.read len dev
  | .write len dev => f.write len dev
  | .lseek pos whence => ((f.lseek pos whence).1, (f.lseek pos whence).2, none)

def after (f : DevFsFile) (c : Call) : DevFsFile := (f.exec c).1

/-- The length that the caller asks for, and the flag that the file needs for it. -/
def Call.request : Call → Option (ℕ × ℕ)
  | .read len _ => some (len.toNat, flagRead)
  | .write len _ => some (len.toNat, flagWrite)
  | .lseek _ _ => none

def Call.isSeek : Call → Bool
  | .lseek _ _ => true
  | _ => false

/-- The file has a position. -/
def Valid (f : DevFsFile) : Prop := 0 ≤ f.seekPoint ∧ f.seekPoint ≤ offMax

/-- The length passed to the device is at most the one asked for, the device does not go past the last
position, and the length is reduced only to what is left before it, when that is less. -/
structure Clamped (f : DevFsFile) (len passed : ℕ) : Prop where
  le : passed ≤ len
  inRange : f.seekPoint + passed ≤ offMax
  reduced : passed ≠ len → offMax < f.seekPoint + len ∧ (passed : ℤ) = offMax - f.seekPoint

/-- What a call promises. -/
structure Correct (f : DevFsFile) (c : Call) : Prop where
  valid : (f.after c).Valid
  clamped : ∀ len flag passed, c.request = some (len, flag) → (f.exec c).2.2 = some passed →
    f.Clamped len passed
  unchanged : c.isSeek = true → (f.exec c).2.1 < 0 → f.after c = f

/-- The condition: no transfer that the flags allow asks for more than is left before the last position. -/
def Fits (f : DevFsFile) (c : Call) : Prop :=
  ∀ len flag, c.request = some (len, flag) → f.flags &&& flag ≠ 0 → f.seekPoint + len ≤ offMax

/-- Something holds of every call of a run, where it is made. -/
def Along (P : DevFsFile → Call → Prop) : DevFsFile → List Call → Prop
  | _, [] => True
  | f, c :: calls => P f c ∧ Along P (f.after c) calls

/-! ## One call -/

variable {f : DevFsFile} {c : Call}

theorem off_of_mem {x : ℤ} (h0 : -2 ^ 63 ≤ x) (h1 : x ≤ offMax) : off x = x :=
  i64_u64 h0 (by unfold offMax at h1; omega)

theorem clamp_of_fits (hf : f.Valid) {len : ℕ} (h : f.seekPoint + len ≤ offMax) : f.clamp len = len := by
  obtain ⟨h0, -⟩ := hf
  rw [clamp, off_of_mem (by omega) h, if_neg (by omega)]

/-- A length that is too large is reduced to another one than what is left. -/
theorem clamp_of_not_fits (hf : f.Valid) {len : ℕ} (hlen : len < 2 ^ 32)
    (h : offMax < f.seekPoint + len) : (f.clamp len : ℤ) = offMax - f.seekPoint - len + 2 ^ 32 := by
  obtain ⟨h0, h1⟩ := hf
  have hneg : off (f.seekPoint + len) < 0 := by
    unfold off i64 u64 offMax at *
    split_ifs <;> omega
  have hleft : off (offMax - f.seekPoint) = offMax - f.seekPoint := off_of_mem (by omega) (by omega)
  have hdiff : off (offMax - f.seekPoint - len) = offMax - f.seekPoint - len :=
    off_of_mem (by unfold offMax at *; omega) (by unfold offMax at *; omega)
  rw [clamp, if_pos hneg, hleft, hdiff]
  unfold u32 offMax at *
  omega

theorem off_nonneg_le (x : ℤ) : off x ≤ offMax := by
  unfold off i64 u64 offMax
  split_ifs <;> omega

/-- A transfer that needs a flag is clamped, and leaves a valid position, exactly when it fits. -/
theorem transfer_correct_iff (hf : f.Valid) (flag : ℕ) (len : UInt32) (dev : Block) :
    ((transfer flag f len dev).1.Valid ∧
        ∀ passed, (transfer flag f len dev).2.2 = some passed → f.Clamped len.toNat passed) ↔
      (f.flags &&& flag ≠ 0 → f.seekPoint + len.toNat ≤ offMax) := by
  have hlen : len.toNat < 2 ^ 32 := len.toNat_lt
  have hle := dev.le (f.clamp len.toNat) f.seekPoint
  by_cases hflag : f.flags &&& flag = 0
  · simp [transfer, hflag, hf]
  have hpassed : (transfer flag f len dev).2.2 = some (f.clamp len.toNat) := by
    simp only [transfer, if_neg hflag]
    split_ifs <;> rfl
  simp only [hpassed, Option.some.injEq, forall_eq', ne_eq, hflag, not_false_iff, forall_const]
  constructor
  · rintro ⟨-, hclamped⟩
    by_contra hlt
    have hclamp := clamp_of_not_fits hf hlen (not_le.1 hlt)
    have hinRange := hclamped.inRange
    obtain ⟨h0, h1⟩ := hf
    unfold offMax at *
    omega
  · intro hfits
    have hclamp := clamp_of_fits hf hfits
    rw [hclamp] at hle ⊢
    refine ⟨?_, le_rfl, hfits, fun hne => absurd rfl hne⟩
    simp only [transfer, if_neg hflag, hclamp]
    split_ifs with hpos
    · obtain ⟨h0, h1⟩ := hf
      have hoff : off (f.seekPoint + dev.result len.toNat f.seekPoint) =
          f.seekPoint + dev.result len.toNat f.seekPoint := off_of_mem (by omega) (by omega)
      exact ⟨by simp only [hoff]; omega, by simp only [hoff]; omega⟩
    · exact hf

theorem lseek_spec (hf : f.Valid) (pos : Int64) (whence : ℤ) :
    (f.lseek pos whence).1.Valid ∧ ((f.lseek pos whence).2 < 0 → (f.lseek pos whence).1 = f) := by
  have hpos : pos.toInt ≤ offMax := by
    have := pos.toInt_lt
    unfold offMax
    omega
  have hoff := off_nonneg_le (f.seekPoint + pos.toInt)
  simp only [lseek]
  split_ifs with hseek hcur hneg hset hneg
  · exact ⟨hf, fun _ => rfl⟩
  · exact ⟨hf, fun _ => rfl⟩
  · exact ⟨⟨not_lt.1 hneg, hoff⟩, fun h => absurd h hneg⟩
  · exact ⟨hf, fun _ => rfl⟩
  · exact ⟨⟨not_lt.1 hneg, hpos⟩, fun h => absurd h hneg⟩
  · exact ⟨hf, fun _ => rfl⟩

/-- **One call** is correct exactly when it fits. -/
theorem correct_iff (hf : f.Valid) (c : Call) : f.Correct c ↔ f.Fits c := by
  have htransfer : ∀ (flag : ℕ) (len : UInt32) (dev : Block), c.request = some (len.toNat, flag) →
      f.exec c = transfer flag f len dev → c.isSeek = false → (f.Correct c ↔ f.Fits c) := by
    intro flag len dev hreq hexec hseek
    have hiff := transfer_correct_iff hf flag len dev
    have hfits : f.Fits c ↔ (f.flags &&& flag ≠ 0 → f.seekPoint + len.toNat ≤ offMax) := by
      simp [Fits, hreq]
    rw [hfits, ← hiff]
    constructor
    · intro h
      exact ⟨hexec ▸ h.valid, fun passed hp => h.clamped _ _ _ hreq (hexec ▸ hp)⟩
    · rintro ⟨hvalid, hclamped⟩
      refine ⟨by rwa [after, hexec], fun len' flag' passed hr hp => ?_, fun h => by simp [hseek] at h⟩
      obtain ⟨rfl, rfl⟩ := Prod.mk.inj (Option.some.inj (hreq.symm.trans hr))
      exact hclamped passed (hexec ▸ hp)
  cases c with
  | read len dev => exact htransfer flagRead len dev rfl rfl rfl
  | write len dev => exact htransfer flagWrite len dev rfl rfl rfl
  | lseek pos whence =>
    obtain ⟨hvalid, hfail⟩ := lseek_spec hf pos whence
    exact iff_of_true ⟨hvalid, nofun, fun _ => hfail⟩ nofun

/-! ## A run -/

theorem valid_opened (flags : ℕ) : (opened flags).Valid := ⟨le_rfl, show 0 ≤ offMax by decide⟩

theorem along_correct_iff : ∀ (calls : List Call) {f : DevFsFile}, f.Valid →
    (Along Correct f calls ↔ Along Fits f calls)
  | [], _, _ => Iff.rfl
  | c :: calls, f, hf => by
    rw [Along, Along, correct_iff hf]
    exact and_congr_right fun hfits =>
      along_correct_iff calls ((correct_iff hf c).2 hfits).valid

/-- **When the positions of a device file are right**: in a run of reads, writes and seeks on a file that
was just opened, all calls are correct exactly when every transfer ends before the last position. -/
theorem run_correct_iff (flags : ℕ) (calls : List Call) :
    Along Correct (opened flags) calls ↔ Along Fits (opened flags) calls :=
  along_correct_iff calls (valid_opened flags)

/-- A device that transfers all it is asked for. -/
def wholeBlock : Block := ⟨fun len _ => len, fun _ _ => le_rfl⟩

/-- Ten bytes before the last position, a write of 100 bytes is passed on as one of 4294967206. -/
theorem not_correct_write : ¬ ∀ (flags : ℕ) (calls : List Call), Along Correct (opened flags) calls := by
  intro h
  have hfits := (along_correct_iff [.lseek (Int64.ofInt (2 ^ 63 - 11)) SEEK_SET, .write 100 wholeBlock]
    (valid_opened flagWrite)).1 (h _ _)
  exact absurd (hfits.2.1 100 flagWrite rfl (by decide)) (by decide)

end DevFsFile

end Miosix
