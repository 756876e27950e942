import MiosixKernel.Util.UnicodeConvert

/-!
# Validation of UTF-8

`validateUtf8` reads code points up to the nul, and returns how far it has read. The nul is then behind the
iterator already, and is counted.

* `validateUtf8`: the code; `WellFormed`: the strings that are encodings;
* `validateUtf8_spec`: what is returned for every string;
* **`validateUtf8_exact_iff`**: when the result is what is documented.
-/

namespace Miosix

open Lib

namespace Unicode

variable {l r src str : List ℕ}

/-- The loop of `validateUtf8`. The difference of the pointers is stored in an `int`. A loop that goes on for
ever is `none`. -/
def validateUtf8Loop (str : List ℕ) : ℕ → List ℕ → Option (Bool × ℤ)
  | 0, _ => none
  | fuel + 1, iter => do
    let (codePoint, iter) ← nextUtf8 false iter
    if codePoint = 0 then some (true, Int.bmod (str.length - iter.length) (2 ^ 32))
    else if codePoint = invalid then some (false, Int.bmod (str.length - iter.length) (2 ^ 32))
    else validateUtf8Loop str fuel iter

def validateUtf8 (str : List ℕ) : Option (Bool × ℤ) := validateUtf8Loop str str.length str

/-- A string that is the encoding of a text. -/
def WellFormed (src : List ℕ) : Prop := ∃ l : List ℕ, (∀ c ∈ l, Valid c) ∧ src = l.flatMap utf8

/-- The result is there, without a byte read after the nul; the flag says whether the string is well-formed, and
the number is its length if it is. -/
def Exact (src : List ℕ) (result : Option (Bool × ℤ)) : Prop :=
  ∃ valid n, result = some (valid, n) ∧ (valid = true ↔ WellFormed src) ∧ (valid = true → n = src.length)

/-- A text is read, and what follows it decides. -/
theorem validateUtf8Loop_text (hl : ∀ c ∈ l, Valid c) (rest : List ℕ) (fuel : ℕ) :
    validateUtf8Loop str (fuel + l.length) (l.flatMap utf8 ++ rest) = validateUtf8Loop str fuel rest := by
  induction l with
  | nil => rfl
  | cons c l ih =>
    have hc := hl c List.mem_cons_self
    obtain ⟨h0, hmax⟩ := valid_bounds hc
    have hinv : c ≠ invalid := by
      unfold invalid
      omega
    rw [List.flatMap_cons, List.append_assoc, List.length_cons, ← Nat.add_assoc, validateUtf8Loop,
      nextUtf8_utf8 hc.2]
    simp only [Option.bind_eq_bind, Option.bind_some, if_neg h0.ne', if_neg hinv]
    exact ih fun d hd => hl d (List.mem_cons_of_mem _ hd)

/-- **The result for every string.** The length that is returned for a well-formed string counts the nul. -/
theorem validateUtf8_spec (hsrc : ∀ b ∈ src, b ≠ 0 ∧ b < 2 ^ 8) :
    (WellFormed src ∧ validateUtf8 (src ++ [0]) = some (true, Int.bmod (src.length + 1) (2 ^ 32))) ∨
      ¬ WellFormed src ∧ ∃ n, validateUtf8 (src ++ [0]) = some (false, n) := by
  obtain ⟨l, r, hl, hr, rfl⟩ := prefixCode_utf8.exists_split src
  have hle := prefixCode_utf8.length_le hl
  have hfuel : (l.flatMap utf8 ++ r ++ [0]).length = (l.flatMap utf8 ++ r).length - l.length + 1 + l.length := by
    simp only [List.length_append, List.length_singleton]
    omega
  rw [validateUtf8, hfuel]
  generalize (l.flatMap utf8 ++ r).length - l.length = fuel
  rw [List.append_assoc, validateUtf8Loop_text hl, validateUtf8Loop]
  by_cases hne : r = []
  · subst hne
    refine .inl ⟨⟨l, hl, List.append_nil _⟩, ?_⟩
    simp [nextUtf8]
  · obtain ⟨it, hrun⟩ := nextUtf8_stuck hr hne fun b hb => hsrc b (List.mem_append_right _ hb)
    refine .inr ⟨?_, _, by rw [hrun]; rfl⟩
    rintro ⟨l', hl', heq⟩
    exact hne (prefixCode_utf8.split_unique hl hl' hr prefixCode_utf8.stuck_nil (by rw [heq, List.append_nil])).2

/-- A number and its successor are not the same `int`. -/
theorem bmod_succ_ne (n : ℕ) : Int.bmod (n + 1) (2 ^ 32) ≠ n := by
  intro h
  have hmod := Int.bmod_emod (x := (n : ℤ) + 1) (m := 2 ^ 32)
  rw [h] at hmod
  omega

/-- **The validation** always ends, without a byte read after the nul, and it is exact only for strings that are
not well-formed: for the others the nul is counted too. -/
theorem validateUtf8_exact_iff (src : List ℕ) (hsrc : ∀ b ∈ src, b ≠ 0 ∧ b < 2 ^ 8) :
    Exact src (validateUtf8 (src ++ [0])) ↔ ¬ WellFormed src := by
  rcases validateUtf8_spec hsrc with ⟨hwf, hrun⟩ | ⟨hwf, n, hrun⟩
  · refine iff_of_false ?_ (not_not.2 hwf)
    rintro ⟨valid, n, hres, -, hlen⟩
    obtain ⟨rfl, rfl⟩ : true = valid ∧ Int.bmod (src.length + 1) (2 ^ 32) = n := by
      simpa using hrun.symm.trans hres
    exact bmod_succ_ne _ (hlen rfl)
  · exact iff_of_true ⟨false, n, hrun, by simpa using hwf, by simp⟩ hwf

/-- A byte that continues a character that was not begun. -/
theorem validateUtf8_exact_continuation : Exact [0x80] (validateUtf8 ([0x80] ++ [0])) := by
  have hsrc : ∀ b ∈ [0x80], b ≠ 0 ∧ b < 2 ^ 8 := by decide
  refine (validateUtf8_exact_iff [0x80] hsrc).2 ?_
  rcases validateUtf8_spec hsrc with ⟨-, hrun⟩ | ⟨hwf, -⟩
  · exact absurd hrun (by decide +kernel)
  · exact hwf

/-- For the string "A" the length 2 is returned. -/
theorem not_exact_one_character : ¬ Exact [0x41] (validateUtf8 ([0x41] ++ [0])) := by
  have hrun : validateUtf8 ([0x41] ++ [0]) = some (true, 2) := by decide +kernel
  rintro ⟨valid, n, hres, -, hlen⟩
  obtain ⟨rfl, rfl⟩ : true = valid ∧ (2 : ℤ) = n := by simpa using hrun.symm.trans hres
  exact absurd (hlen rfl) (by decide)

end Unicode

end Miosix
