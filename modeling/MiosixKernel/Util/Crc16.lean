import MiosixKernel.Lib.Crc

/-!
# The 16 bit CRC

`crc16` handles a byte at a time, with a few shifts in place of a table.

* `crc16Update`, `crc16`: the code;
* `crc16Update_eq`: a byte is eight steps of the division by `x¹⁶ + x¹² + x⁵ + 1`;
* **`crc16_eq_bitwise`**: the value is the one of the division bit by bit;
* **`crc16_eq_modByMonic`**: the value is the remainder.
-/

namespace Miosix

open Lib Polynomial

/-- The polynomial `x¹⁶ + x¹² + x⁵ + 1`, without its highest power. -/
def ccitt : BitVec 16 := 0x1021#16

/-- What is computed with `int` is cut to 16 bits when it is stored. -/
def crc16Update (crc : BitVec 16) (data : BitVec 8) : BitVec 16 :=
  let x := (((crc >>> 8).setWidth 32 ^^^ data.setWidth 32) &&& 0xff#32).setWidth 16
  let x := x ^^^ (x >>> 4)
  (crc.setWidth 32 <<< 8 ^^^ x.setWidth 32 <<< 12 ^^^ x.setWidth 32 <<< 5 ^^^ x.setWidth 32).setWidth 16

def crc16 (message : List (BitVec 8)) : BitVec 16 := message.foldl crc16Update 0xffff#16

/-! ## One byte -/

/-- The shifts of `crc16Update`, for a byte at the top of the register. -/
def crc16Shifts (x : BitVec 8) : BitVec 16 :=
  let x := x.setWidth 16 ^^^ (x.setWidth 16 >>> 4)
  x <<< 12 ^^^ x <<< 5 ^^^ x

/-- They are the eight steps of the division. -/
theorem crcShift_byte : ∀ x : BitVec 8, crcShift ccitt (x.setWidth 16 <<< 8) 8 = crc16Shifts x := by
  decide +kernel

/-- The byte at the top of the register when `data` is added. -/
def topByte (crc : BitVec 16) (data : BitVec 8) : BitVec 8 := (crc >>> 8).setWidth 8 ^^^ data

theorem getLsbD_byteMask (i : ℕ) : (0xff#32).getLsbD i = decide (i < 8) := by
  rw [BitVec.getLsbD_ofNat, show (0xff : ℕ) = 2 ^ 8 - 1 from rfl, Nat.testBit_two_pow_sub_one]
  by_cases h : i < 8
  · simp [h, show i < 32 by omega]
  · simp [h]

theorem masked_eq (crc : BitVec 16) (data : BitVec 8) :
    (((crc >>> 8).setWidth 32 ^^^ data.setWidth 32) &&& 0xff#32).setWidth 16 = (topByte crc data).setWidth 16 := by
  ext i hi
  simp only [topByte, BitVec.getElem_setWidth, BitVec.getLsbD_and, BitVec.getLsbD_xor, BitVec.getLsbD_setWidth,
    getLsbD_byteMask]
  by_cases h : i < 8
  · simp [h, show i < 32 by omega]
  · simp [h, BitVec.getLsbD_of_ge data i (not_lt.1 h)]

/-- The shifts of `int`, cut to 16 bits. -/
theorem stored_eq (crc x : BitVec 16) :
    (crc.setWidth 32 <<< 8 ^^^ x.setWidth 32 <<< 12 ^^^ x.setWidth 32 <<< 5 ^^^ x.setWidth 32).setWidth 16 =
      crc <<< 8 ^^^ (x <<< 12 ^^^ x <<< 5 ^^^ x) := by
  ext i hi
  simp

theorem crc16Update_eq_shifts (crc : BitVec 16) (data : BitVec 8) :
    crc16Update crc data = crc <<< 8 ^^^ crc16Shifts (topByte crc data) := by
  rw [crc16Update, masked_eq, stored_eq, crc16Shifts]

/-- The register after a byte was added to its top, in two parts. -/
theorem added_eq (crc : BitVec 16) (data : BitVec 8) :
    crc ^^^ data.setWidth 16 <<< 8 = (topByte crc data).setWidth 16 <<< 8 ^^^ (crc.setWidth 8).setWidth 16 := by
  ext i hi
  by_cases h : i < 8
  · simp [h, hi]
  · simp [h, hi, topByte, show i - 8 < 8 by omega, show 8 + (i - 8) = i by omega]

/-- **A byte** is eight steps of the division. -/
theorem crc16Update_eq (crc : BitVec 16) (data : BitVec 8) :
    crc16Update crc data = crcBits ccitt crc (msbFirst data) := by
  have hlow : ∀ i < 8, ((crc.setWidth 8).setWidth 16).getMsbD i = false := by
    intro i hi
    simp [BitVec.getMsbD_setWidth, hi]
  have hshift : ((crc.setWidth 8).setWidth 16) <<< 8 = crc <<< 8 := by
    ext i hi
    by_cases h : i < 8
    · simp [h]
    · simp [h, show i - 8 < 8 by omega, BitVec.getLsbD_eq_getElem (show i - 8 < 16 by omega)]
  calc
    crc16Update crc data = crc16Shifts (topByte crc data) ^^^ crc <<< 8 := by
      rw [crc16Update_eq_shifts, BitVec.xor_comm]
    _ = crcShift ccitt ((topByte crc data).setWidth 16 <<< 8) 8 ^^^
        crcShift ccitt ((crc.setWidth 8).setWidth 16) 8 := by
      rw [crcShift_byte, crcShift_eq_shiftLeft _ 8 hlow, hshift]
    _ = crcShift ccitt (crc ^^^ data.setWidth 16 <<< 8) 8 := by rw [added_eq, crcShift_xor]
    _ = crcBits ccitt crc (msbFirst data) := (crcBits_msbFirst (by decide) crc data).symm

/-! ## A message -/

/-- The bits of a message in the order in which they are handled. -/
def messageBits (message : List (BitVec 8)) : List Bool := message.flatMap msbFirst

theorem foldl_crc16Update (crc : BitVec 16) (message : List (BitVec 8)) :
    message.foldl crc16Update crc = crcBits ccitt crc (messageBits message) := by
  induction message generalizing crc with
  | nil => rfl
  | cons data message ih =>
    rw [List.foldl_cons, ih, crc16Update_eq, messageBits, messageBits, List.flatMap_cons, crcBits_append]

/-- **`crc16` is the CRC** with the polynomial `x¹⁶ + x¹² + x⁵ + 1` and the initial value `0xffff`, the most
significant bit of each byte first and with nothing done to the result. -/
theorem crc16_eq_bitwise (message : List (BitVec 8)) :
    crc16 message = crcBits ccitt 0xffff#16 (messageBits message) := foldl_crc16Update _ _

example : crc16 [0x31#8, 0x32#8, 0x33#8, 0x34#8, 0x35#8, 0x36#8, 0x37#8, 0x38#8, 0x39#8] = 0x29b1#16 := by
  decide +kernel

theorem generator_ccitt : generator ccitt = X ^ 16 + X ^ 12 + X ^ 5 + 1 := by
  have hbits : ∀ i < 16, coeffBit (ccitt.getLsbD i) = if i = 0 ∨ i = 5 ∨ i = 12 then 1 else 0 := by decide
  rw [generator, toPolynomial, Finset.sum_congr rfl fun i hi => by rw [hbits i (Finset.mem_range.1 hi)]]
  simp [Finset.sum_range_succ]
  ring

/-- **`crc16` is a remainder** of the division by that polynomial. The initial value is added to the first 16
bits of the message. -/
theorem crc16_eq_modByMonic (message : List (BitVec 8)) :
    toPolynomial (crc16 message) =
      (X ^ (8 * message.length) * toPolynomial (0xffff#16) + X ^ 16 * bitsPolynomial (messageBits message)) %ₘ
        (X ^ 16 + X ^ 12 + X ^ 5 + 1) := by
  have hlen : (messageBits message).length = 8 * message.length := by
    induction message with
    | nil => rfl
    | cons data message ih =>
      rw [messageBits, List.flatMap_cons, List.length_append, length_msbFirst, ← messageBits, ih, List.length_cons]
      omega
  rw [crc16_eq_bitwise, crcBits_eq_modByMonic, generator_ccitt, hlen]

end Miosix
