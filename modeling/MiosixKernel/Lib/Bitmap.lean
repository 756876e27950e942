import Mathlib.Data.Nat.Bitwise
import Mathlib.Tactic.Linarith
import Mathlib.Tactic.Ring

/-!
# Bitmaps stored in an array of words

A bitmap is a list of 32 bit words. Bit `i` lives in word `i / 32`; touching a bit whose word is not
there gives `none`.

* `Bitmap.has`: the logical view, the set of bits that are set;
* `Bitmap.anySet`, `Bitmap.setRange`, `Bitmap.clearRange`: the loops over `n` consecutive bits;
* **`Bitmap.anySet_cases`**: what the search for a set bit can find, and when it leaves the array;
* **`Bitmap.setRange_spec`**, **`Bitmap.clearRange_spec`**: a range that lies in the array is written
  exactly.
-/

namespace Lib

/-- An array of words read as bits. -/
structure Bitmap where
  words : List (BitVec 32)
deriving DecidableEq

namespace Bitmap

variable {b b' : Bitmap} {i j n first : ℕ}

/-- How many bits the array has. -/
def size (b : Bitmap) : ℕ := 32 * b.words.length

/-- Bit `i`, with nothing set outside the array. -/
def has (b : Bitmap) (i : ℕ) : Bool := (b.words.getD (i / 32) 0).getLsbD (i % 32)

/-- All bits clear. -/
def zero (n : ℕ) : Bitmap := ⟨List.replicate n 0⟩

def testBit (b : Bitmap) (i : ℕ) : Option Bool :=
  b.words[i / 32]?.map fun w => w &&& (1#32 <<< (i % 32)) != 0#32

def modifyWord (b : Bitmap) (i : ℕ) (f : BitVec 32 → BitVec 32) : Option Bitmap :=
  b.words[i / 32]?.map fun w => ⟨b.words.set (i / 32) (f w)⟩

def setBit (b : Bitmap) (i : ℕ) : Option Bitmap :=
  b.modifyWord i fun w => w ||| (1#32 <<< (i % 32))

def clearBit (b : Bitmap) (i : ℕ) : Option Bitmap :=
  b.modifyWord i fun w => w &&& ~~~(1#32 <<< (i % 32))

/-! ## One bit -/

theorem word_lt (h : i < b.size) : i / 32 < b.words.length := by
  unfold size at h
  omega

@[simp] theorem size_zero (n : ℕ) : (zero n).size = 32 * n := by
  simp [zero, size]

@[simp] theorem has_zero (n i : ℕ) : (zero n).has i = false := by
  unfold zero has
  rw [List.getD_eq_getElem?_getD, List.getElem?_replicate]
  split_ifs <;> simp

/-- No bit is set outside the array. -/
theorem has_lt (h : b.has i = true) : i < b.size := by
  by_contra hi
  have hle : b.words.length ≤ i / 32 := by
    unfold size at hi
    omega
  rw [has, List.getD_eq_default b.words 0 hle] at h
  simp at h

theorem getLsbD_one_shiftLeft {k m : ℕ} (hm : m < 32) :
    (1#32 <<< k).getLsbD m = decide (m = k) := by
  rw [BitVec.getLsbD_shiftLeft, BitVec.getLsbD_one]
  by_cases hk : m = k
  · simp [hk, show k < 32 by omega]
  · rw [decide_eq_false hk, Bool.and_eq_false_imp]
    intro hlt
    have hge : ¬m < k := by simpa using (Bool.and_eq_true_iff.mp hlt).2
    exact decide_eq_false (by omega)

theorem and_one_shiftLeft_bne_zero (w : BitVec 32) {k : ℕ} (hk : k < 32) :
    (w &&& (1#32 <<< k) != 0#32) = w.getLsbD k := by
  rw [Bool.eq_iff_iff, bne_iff_ne]
  constructor
  · intro h
    by_contra hw
    apply h
    apply BitVec.eq_of_getLsbD_eq
    intro m hm
    rw [BitVec.getLsbD_and, getLsbD_one_shiftLeft hm]
    by_cases hmk : m = k
    · simpa [hmk] using hw
    · simp [hmk]
  · intro hw h
    have hbit : (w &&& (1#32 <<< k)).getLsbD k = true := by
      rw [BitVec.getLsbD_and, getLsbD_one_shiftLeft hk, hw]
      simp
    rw [h] at hbit
    simp at hbit

theorem testBit_of_lt (h : i < b.size) : b.testBit i = some (b.has i) := by
  have hw := word_lt h
  unfold testBit has
  rw [List.getD_eq_getElem?_getD, List.getElem?_eq_getElem hw]
  simp [and_one_shiftLeft_bne_zero _ (Nat.mod_lt i (by norm_num : 0 < 32))]

theorem testBit_of_ge (h : b.size ≤ i) : b.testBit i = none := by
  have hw : b.words.length ≤ i / 32 := by
    unfold size at h
    omega
  rw [testBit, List.getElem?_eq_none hw]
  rfl

/-- Changing the word of bit `i` leaves the bits of the other words alone. -/
theorem modifyWord_spec (f : BitVec 32 → BitVec 32) (h : i < b.size) :
    ∃ b', b.modifyWord i f = some b' ∧ b'.size = b.size ∧
      ∀ j, b'.has j = if j / 32 = i / 32 then
        (f (b.words.getD (i / 32) 0)).getLsbD (j % 32) else b.has j := by
  have hw := word_lt h
  refine ⟨⟨b.words.set (i / 32) (f (b.words.getD (i / 32) 0))⟩, ?_, ?_, ?_⟩
  · rw [modifyWord, List.getElem?_eq_getElem hw, List.getD_eq_getElem b.words 0 hw]
    rfl
  · simp [size]
  · intro j
    unfold has
    rw [List.getD_eq_getElem?_getD, List.getElem?_set]
    by_cases hj : j / 32 = i / 32
    · simp [hj, hw]
    · rw [if_neg (Ne.symm hj), if_neg hj, ← List.getD_eq_getElem?_getD]

theorem same_word_iff {i j : ℕ} (h : j / 32 = i / 32) : j % 32 = i % 32 ↔ j = i := by
  omega

theorem setBit_spec (h : i < b.size) :
    ∃ b', b.setBit i = some b' ∧ b'.size = b.size ∧
      ∀ j, b'.has j = (decide (j = i) || b.has j) := by
  obtain ⟨b', hb', hsize, hhas⟩ := modifyWord_spec (fun w => w ||| (1#32 <<< (i % 32))) h
  refine ⟨b', hb', hsize, fun j => ?_⟩
  rw [hhas]
  by_cases hj : j / 32 = i / 32
  · rw [if_pos hj, BitVec.getLsbD_or, getLsbD_one_shiftLeft (Nat.mod_lt j (by norm_num)),
      Bool.or_comm, has, hj]
    simp [same_word_iff hj]
  · have hne : j ≠ i := by rintro rfl; exact hj rfl
    simp [hj, hne]

theorem clearBit_spec (h : i < b.size) :
    ∃ b', b.clearBit i = some b' ∧ b'.size = b.size ∧
      ∀ j, b'.has j = (!decide (j = i) && b.has j) := by
  obtain ⟨b', hb', hsize, hhas⟩ := modifyWord_spec (fun w => w &&& ~~~(1#32 <<< (i % 32))) h
  refine ⟨b', hb', hsize, fun j => ?_⟩
  rw [hhas]
  by_cases hj : j / 32 = i / 32
  · have hlt : j % 32 < 32 := Nat.mod_lt j (by norm_num)
    rw [if_pos hj, BitVec.getLsbD_and, BitVec.getLsbD_not, getLsbD_one_shiftLeft hlt, has, hj]
    simp [hlt, Bool.and_comm, same_word_iff hj]
  · have hne : j ≠ i := by rintro rfl; exact hj rfl
    simp [hj, hne]

/-! ## Ranges of bits -/

/-- Look for a set bit among `n` bits, stopping at the first one. -/
def anySet (b : Bitmap) : ℕ → ℕ → Option Bool
  | _, 0 => some false
  | first, n + 1 =>
    match b.testBit first with
    | none => none
    | some true => some true
    | some false => anySet b (first + 1) n

def setRange (b : Bitmap) : ℕ → ℕ → Option Bitmap
  | _, 0 => some b
  | first, n + 1 => (b.setBit first).bind fun b' => setRange b' (first + 1) n

def clearRange (b : Bitmap) : ℕ → ℕ → Option Bitmap
  | _, 0 => some b
  | first, n + 1 => (b.clearBit first).bind fun b' => clearRange b' (first + 1) n

/-- **The search for a set bit** finds one, or finds none in a range that lies in the array, or runs
off the end of the array without having found one. -/
theorem anySet_cases (b : Bitmap) (first n : ℕ) :
    (b.anySet first n = some true ∧ ∃ j < n, b.has (first + j) = true) ∨
    (b.anySet first n = some false ∧ (n = 0 ∨ first + n ≤ b.size) ∧
      ∀ j < n, b.has (first + j) = false) ∨
    (b.anySet first n = none ∧ b.size < first + n ∧ ∀ j < n, b.has (first + j) = false) := by
  induction n generalizing first with
  | zero =>
    right; left
    exact ⟨rfl, .inl rfl, by simp⟩
  | succ n ih =>
    rcases Nat.lt_or_ge first b.size with hlt | hge
    · rw [anySet, testBit_of_lt hlt]
      cases hhas : b.has first with
      | true =>
        left
        exact ⟨rfl, 0, by omega, hhas⟩
      | false =>
        have hcons : (∀ j < n, b.has (first + 1 + j) = false) →
            ∀ j < n + 1, b.has (first + j) = false := by
          intro h j hj
          cases j with
          | zero => exact hhas
          | succ j =>
            rw [show first + (j + 1) = first + 1 + j by ring]
            exact h j (by omega)
        rcases ih (first + 1) with ⟨he, j, hj, hb⟩ | ⟨he, hfit, hb⟩ | ⟨he, hfit, hb⟩
        · left
          exact ⟨he, j + 1, by omega, by rw [← hb]; congr 1; ring⟩
        · right; left
          exact ⟨he, .inr (by omega), hcons hb⟩
        · right; right
          exact ⟨he, by omega, hcons hb⟩
    · right; right
      rw [anySet, testBit_of_ge hge]
      refine ⟨rfl, by omega, fun j _ => ?_⟩
      by_contra hb
      have hlt := has_lt (Bool.eq_true_of_not_eq_false hb)
      omega

theorem setRange_spec (h : first + n ≤ b.size) :
    ∃ b', b.setRange first n = some b' ∧ b'.size = b.size ∧
      ∀ j, b'.has j = true ↔ (first ≤ j ∧ j < first + n) ∨ b.has j = true := by
  induction n generalizing first b with
  | zero => exact ⟨b, rfl, rfl, fun j => by constructor <;> intro hj <;> grind⟩
  | succ n ih =>
    obtain ⟨b₁, he₁, hs₁, hh₁⟩ := setBit_spec (b := b) (i := first) (by omega)
    obtain ⟨b₂, he₂, hs₂, hh₂⟩ := ih (show first + 1 + n ≤ b₁.size by omega)
    refine ⟨b₂, by rw [setRange, he₁]; exact he₂, by omega, fun j => ?_⟩
    rw [hh₂, hh₁]
    by_cases hj : j = first
    · simp [hj]
    · simp only [hj, decide_false, Bool.false_or]
      grind

theorem clearRange_spec (h : first + n ≤ b.size) :
    ∃ b', b.clearRange first n = some b' ∧ b'.size = b.size ∧
      ∀ j, b'.has j = true ↔ ¬(first ≤ j ∧ j < first + n) ∧ b.has j = true := by
  induction n generalizing first b with
  | zero => exact ⟨b, rfl, rfl, fun j => by constructor <;> intro hj <;> grind⟩
  | succ n ih =>
    obtain ⟨b₁, he₁, hs₁, hh₁⟩ := clearBit_spec (b := b) (i := first) (by omega)
    obtain ⟨b₂, he₂, hs₂, hh₂⟩ := ih (show first + 1 + n ≤ b₁.size by omega)
    refine ⟨b₂, by rw [clearRange, he₁]; exact he₂, by omega, fun j => ?_⟩
    rw [hh₂, hh₁]
    by_cases hj : j = first
    · simp [hj]
    · simp only [hj, decide_false, Bool.not_false, Bool.true_and]
      grind

end Bitmap

end Lib
