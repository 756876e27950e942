import Mathlib.Data.List.Basic

/-!
# Files as lists with a position

* `ByteFile`: the contents, and a position in them;
* `ByteFile.write`, `ByteFile.read`, `ByteFile.seek`: the operations;
* **`getD_write`**: what a file holds after it was written.
-/

namespace Lib

variable {α : Type}

structure ByteFile (α : Type) where
  bytes : List α
  pos : ℕ
  le : pos ≤ bytes.length

namespace ByteFile

variable {b : ByteFile α} {data : List α} {d : α} {n o : ℕ}

/-- The data is put over what is there, and the file gets longer if it has to. -/
def write (b : ByteFile α) (data : List α) : ByteFile α where
  bytes := b.bytes.take b.pos ++ (data ++ b.bytes.drop (b.pos + data.length))
  pos := b.pos + data.length
  le := by
    have := b.le
    rw [List.length_append, List.length_append, List.length_take]
    omega

/-- The position is moved, at most to the end. -/
def seek (b : ByteFile α) (n : ℕ) : ByteFile α where
  bytes := b.bytes
  pos := min n b.bytes.length
  le := Nat.min_le_right _ _

/-- At most `n` elements from the position on. -/
def read (b : ByteFile α) (n : ℕ) : List α := (b.bytes.drop b.pos).take n

theorem length_write : (b.write data).bytes.length = max b.bytes.length (b.pos + data.length) := by
  have := b.le
  rw [write, List.length_append, List.length_append, List.length_take, List.length_drop]
  omega

/-- What is written is there, and the rest is as it was. -/
theorem getD_write : (b.write data).bytes.getD o d =
    if b.pos ≤ o ∧ o < b.pos + data.length then data.getD (o - b.pos) d else b.bytes.getD o d := by
  have hle := b.le
  have htake : (b.bytes.take b.pos).length = b.pos := List.length_take_of_le hle
  simp only [write, List.getD_eq_getElem?_getD]
  split_ifs with ho
  · rw [List.getElem?_append_right (by omega), htake, List.getElem?_append_left (by omega)]
  · rcases Nat.lt_or_ge o b.pos with hlt | hge
    · rw [List.getElem?_append_left (by omega), List.getElem?_take_of_lt hlt]
    · rw [List.getElem?_append_right (by omega), htake, List.getElem?_append_right (by omega), List.getElem?_drop]
      congr 2
      omega

end ByteFile

end Lib
