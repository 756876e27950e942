import MiosixKernel.Util.Unicode

/-!
# Conversion between UTF-8 and UTF-16: code points

* `prefixCode_utf8`, `prefixCode_utf16`: both encodings are prefix codes;
* **`nextUtf8_utf8`**, **`nextUtf8_cases`**: `nextUtf8` reads exactly the shortest forms of code points;
* `put_spec`, **`putUtf8_eq`**: what is written, and what is not for lack of space.
-/

namespace Miosix

open Lib

namespace Unicode

/-! ## Bits -/

theorem and_0xc0_iff {b : ℕ} (hb : b < 256) : b &&& 0xc0 = 0x80 ↔ 0x80 ≤ b ∧ b < 0xc0 := by
  revert b
  decide +kernel

theorem lead_cases {c : ℕ} (hc : c < 256) :
    (c &&& 0xe0 = 0xc0 ↔ 0xc0 ≤ c ∧ c < 0xe0) ∧ (c &&& 0xf0 = 0xe0 ↔ 0xe0 ≤ c ∧ c < 0xf0) ∧
      (c &&& 0xf8 = 0xf0 ↔ 0xf0 ≤ c ∧ c < 0xf8) := by
  revert c
  decide +kernel

theorem and_0x3f (x : ℕ) : x &&& 0x3f = x % 64 := Nat.and_two_pow_sub_one_eq_mod x 6

theorem and_0x3ff (x : ℕ) : x &&& 0x3ff = x % 1024 := Nat.and_two_pow_sub_one_eq_mod x 10

theorem and_0x1f (x : ℕ) : x &&& 0x1f = x % 32 := Nat.and_two_pow_sub_one_eq_mod x 5

theorem and_0x0f (x : ℕ) : x &&& 0x0f = x % 16 := Nat.and_two_pow_sub_one_eq_mod x 4

theorem and_0x07 (x : ℕ) : x &&& 0x07 = x % 8 := Nat.and_two_pow_sub_one_eq_mod x 3

/-- The bits of a continuation byte are appended. -/
theorem shiftLeft_or (c : ℕ) {x : ℕ} (hx : x < 64) : c <<< 6 ||| x = c * 64 + x := by
  rw [← Nat.shiftLeft_add_eq_or_of_lt (i := 6) hx, Nat.shiftLeft_eq]

/-- The marker of a continuation byte is set. -/
theorem mod_or_0x80 (x : ℕ) : x % 64 ||| 0x80 = 0x80 + x % 64 := by
  have hx : x % 64 < 64 := Nat.mod_lt _ (by decide)
  generalize x % 64 = y at hx ⊢
  revert y
  decide +kernel

theorem or_0xc0 {x : ℕ} (hx : x < 32) : x ||| 0xc0 = 0xc0 + x := by
  revert x
  decide +kernel

theorem or_0xe0 {x : ℕ} (hx : x < 16) : x ||| 0xe0 = 0xe0 + x := by
  revert x
  decide +kernel

theorem or_0xf0 {x : ℕ} (hx : x < 8) : x ||| 0xf0 = 0xf0 + x := by
  revert x
  decide +kernel

/-! ## Reading -/

variable {c b i : ℕ} {it it' : List ℕ}

/-- A continuation byte. -/
theorem nextUtf8Loop_cont (hb : 0x80 ≤ b) (hb' : b < 0xc0) : nextUtf8Loop false (i + 1) c (b :: it) =
    nextUtf8Loop false i (c * 64 + b % 64) it := by
  have h : b &&& 0xc0 = 0x80 := (and_0xc0_iff (by omega)).2 ⟨hb, hb'⟩
  rw [nextUtf8Loop, if_neg (not_not.2 h), and_0x3f, shiftLeft_or _ (Nat.mod_lt _ (by decide))]

/-- Reading `i` continuation bytes: they are there, or the code point is invalid. -/
theorem nextUtf8Loop_cases (i c : ℕ) (it : List ℕ) (hit : ∀ b ∈ it, b < 256) (hz : 0 ∈ it) :
    ∃ c' it', nextUtf8Loop false i c it = some (c', it') ∧
      (c' = invalid ∨ ∃ bs, bs.length = i ∧ it = bs ++ it' ∧ (∀ b ∈ bs, 0x80 ≤ b ∧ b < 0xc0) ∧
        c' = bs.foldl (fun c b => c * 64 + b % 64) c) := by
  induction i generalizing c it with
  | zero => exact ⟨c, it, rfl, Or.inr ⟨[], rfl, rfl, by simp, rfl⟩⟩
  | succ i ih =>
    cases it with
    | nil => cases hz
    | cons b it =>
      have hb := hit b List.mem_cons_self
      by_cases hcont : 0x80 ≤ b ∧ b < 0xc0
      · have hz' : 0 ∈ it := (List.mem_cons.1 hz).resolve_left (by omega)
        obtain ⟨c', it', hrun, hres⟩ := ih (c * 64 + b % 64) it
          (fun x hx => hit x (List.mem_cons_of_mem _ hx)) hz'
        refine ⟨c', it', (nextUtf8Loop_cont hcont.1 hcont.2).trans hrun, hres.imp_right ?_⟩
        rintro ⟨bs, hlen, rfl, hbs, rfl⟩
        refine ⟨b :: bs, by rw [List.length_cons, hlen], rfl, fun x hx => ?_, rfl⟩
        rcases List.mem_cons.1 hx with rfl | hx
        · exact hcont
        · exact hbs x hx
      · refine ⟨invalid, it, ?_, Or.inl rfl⟩
        rw [nextUtf8Loop, if_pos fun h => hcont ((and_0xc0_iff hb).1 h)]

/-- The checks reject exactly the code points that are not valid, or not in the shortest form. -/
theorem checkCodePoint_eq (n c : ℕ) : checkCodePoint n c =
    if Scalar c ∧ (n = 1 → 0x80 ≤ c) ∧ (n = 2 → 0x800 ≤ c) ∧ (n = 3 → 0x10000 ≤ c) then c
    else invalid := by
  unfold checkCodePoint Scalar
  split_ifs <;> first | rfl | (exfalso; omega)

theorem nextUtf8Tail_eq {n c c' : ℕ} (h : nextUtf8Loop false n c it = some (c', it'))
    (hc' : c' < invalid) : nextUtf8Tail false n c it = some (checkCodePoint n c', it') := by
  rw [nextUtf8Tail, h]
  exact if_neg hc'.ne

/-- **A code point is read** from its encoding. -/
theorem nextUtf8_utf8 (hc : Scalar c) (rest : List ℕ) :
    nextUtf8 false (utf8 c ++ rest) = some (c, rest) := by
  have hmax : c ≤ 0x10ffff := by
    rcases hc with h | h <;> omega
  have hinv : c < invalid := by
    unfold invalid
    omega
  unfold utf8
  split_ifs with h1 h2 h3
  · exact if_pos h1
  · obtain ⟨hl, -, -⟩ := lead_cases (c := 0xc0 + c / 64) (by omega)
    have hrun : nextUtf8Loop false 1 (0xc0 + c / 64 &&& 0x1f) ((0x80 + c % 64) :: rest) =
        some (c, rest) := by
      rw [nextUtf8Loop_cont (by omega) (by omega), nextUtf8Loop, and_0x1f]
      congr 2
      omega
    rw [List.cons_append, List.cons_append, List.nil_append, nextUtf8, if_neg (by omega),
      if_pos (hl.2 (by omega)), nextUtf8Tail_eq hrun hinv, checkCodePoint_eq, if_pos]
    exact ⟨hc, by omega, by omega, by omega⟩
  · obtain ⟨hl, hl', -⟩ := lead_cases (c := 0xe0 + c / 4096) (by omega)
    have hrun : nextUtf8Loop false 2 (0xe0 + c / 4096 &&& 0x0f)
        ((0x80 + c / 64 % 64) :: (0x80 + c % 64) :: rest) = some (c, rest) := by
      rw [nextUtf8Loop_cont (by omega) (by omega), nextUtf8Loop_cont (by omega) (by omega), nextUtf8Loop,
        and_0x0f]
      congr 2
      omega
    simp only [List.cons_append, List.nil_append]
    rw [nextUtf8, if_neg (by omega), if_neg fun h => by have := hl.1 h; omega, if_pos (hl'.2 (by omega)),
      nextUtf8Tail_eq hrun hinv, checkCodePoint_eq, if_pos]
    exact ⟨hc, by omega, by omega, by omega⟩
  · obtain ⟨hl, hl', hl''⟩ := lead_cases (c := 0xf0 + c / 262144) (by omega)
    have hrun : nextUtf8Loop false 3 (0xf0 + c / 262144 &&& 0x07)
        ((0x80 + c / 4096 % 64) :: (0x80 + c / 64 % 64) :: (0x80 + c % 64) :: rest) = some (c, rest) := by
      rw [nextUtf8Loop_cont (by omega) (by omega), nextUtf8Loop_cont (by omega) (by omega),
        nextUtf8Loop_cont (by omega) (by omega), nextUtf8Loop, and_0x07]
      congr 2
      omega
    simp only [List.cons_append, List.nil_append]
    rw [nextUtf8, if_neg (by omega), if_neg fun h => by have := hl.1 h; omega,
      if_neg fun h => by have := hl'.1 h; omega, if_pos (hl''.2 (by omega)),
      nextUtf8Tail_eq hrun hinv, checkCodePoint_eq, if_pos]
    exact ⟨hc, by omega, by omega, by omega⟩

/-- Each continuation byte adds six bits. -/
theorem appendBits_lt (bs : List ℕ) (c : ℕ) :
    bs.foldl (fun c b => c * 64 + b % 64) c < (c + 1) * 64 ^ bs.length := by
  induction bs generalizing c with
  | nil => simp
  | cons b bs ih =>
    have hstep : c * 64 + b % 64 + 1 ≤ (c + 1) * 64 := by omega
    calc (b :: bs).foldl (fun c b => c * 64 + b % 64) c
        < (c * 64 + b % 64 + 1) * 64 ^ bs.length := ih _
      _ ≤ (c + 1) * 64 * 64 ^ bs.length := Nat.mul_le_mul_right _ hstep
      _ = (c + 1) * 64 ^ (b :: bs).length := by rw [List.length_cons, pow_succ', mul_assoc]

/-- What was read after the first byte of a code point. -/
theorem nextUtf8Tail_cases {n c : ℕ} (hn : n ≤ 3) (hc : c < 32) (hit : ∀ b ∈ it, b < 256) (hz : 0 ∈ it) :
    ∃ c' it', nextUtf8Tail false n c it = some (c', it') ∧ (c' = invalid ∨
      Scalar c' ∧ (n = 1 → 0x80 ≤ c') ∧ (n = 2 → 0x800 ≤ c') ∧ (n = 3 → 0x10000 ≤ c') ∧
        ∃ bs, bs.length = n ∧ it = bs ++ it' ∧ (∀ b ∈ bs, 0x80 ≤ b ∧ b < 0xc0) ∧
          c' = bs.foldl (fun c b => c * 64 + b % 64) c) := by
  obtain ⟨c', it', hrun, rfl | ⟨bs, hlen, heq, hbs, hc'⟩⟩ := nextUtf8Loop_cases n c it hit hz
  · refine ⟨invalid, it', ?_, Or.inl rfl⟩
    rw [nextUtf8Tail, hrun]
    rfl
  · have hlt : c' < invalid := by
      have hpow : (64 : ℕ) ^ n ≤ 64 ^ 3 := Nat.pow_le_pow_right (by decide) hn
      calc c' < (c + 1) * 64 ^ n := by rw [hc', ← hlen]; exact appendBits_lt bs c
        _ ≤ 32 * 64 ^ 3 := Nat.mul_le_mul (by omega) hpow
        _ ≤ invalid := by decide
    refine ⟨_, it', nextUtf8Tail_eq hrun hlt, ?_⟩
    rw [checkCodePoint_eq]
    split_ifs with hok
    · exact Or.inr ⟨hok.1, hok.2.1, hok.2.2.1, hok.2.2.2, bs, hlen, heq, hbs, hc'⟩
    · exact Or.inl rfl

/-- **What is read is the encoding of a code point**, or invalid. Nothing is read after a nul. -/
theorem nextUtf8_cases (hit : ∀ b ∈ it, b < 256) (hz : 0 ∈ it) :
    ∃ c it', nextUtf8 false it = some (c, it') ∧ (c = invalid ∨ Scalar c ∧ it = utf8 c ++ it') := by
  cases it with
  | nil => cases hz
  | cons b it =>
    have hb := hit b List.mem_cons_self
    obtain ⟨h2, h3, h4⟩ := lead_cases hb
    rw [nextUtf8]
    by_cases h1 : b < 0x80
    · refine ⟨b, it, if_pos h1, Or.inr ⟨Or.inl (by omega), ?_⟩⟩
      rw [utf8, if_pos h1]
      rfl
    · have hz' : 0 ∈ it := (List.mem_cons.1 hz).resolve_left (by omega)
      have hit' : ∀ x ∈ it, x < 256 := fun x hx => hit x (List.mem_cons_of_mem _ hx)
      simp only [if_neg h1, h2, h3, h4, and_0x1f, and_0x0f, and_0x07]
      split_ifs with hlead hlead hlead
      · obtain ⟨c, it', hrun, hc⟩ := nextUtf8Tail_cases (n := 1) (c := b % 32) (by omega) (by omega) hit' hz'
        refine ⟨c, it', hrun, hc.imp_right ?_⟩
        rintro ⟨hs, hmin, -, -, bs, hlen, rfl, hbs, hval⟩
        obtain ⟨b₁, rfl⟩ := List.length_eq_one_iff.1 hlen
        obtain ⟨hb₁, hb₁'⟩ := hbs b₁ (by simp)
        simp only [List.foldl_cons, List.foldl_nil] at hval
        have := hmin rfl
        refine ⟨hs, ?_⟩
        rw [utf8, if_neg (by omega), if_pos (by omega)]
        simp only [List.cons_append, List.nil_append, List.cons.injEq, and_true]
        omega
      · obtain ⟨c, it', hrun, hc⟩ := nextUtf8Tail_cases (n := 2) (c := b % 16) (by omega) (by omega) hit' hz'
        refine ⟨c, it', hrun, hc.imp_right ?_⟩
        rintro ⟨hs, -, hmin, -, bs, hlen, rfl, hbs, hval⟩
        obtain ⟨b₁, b₂, rfl⟩ := List.length_eq_two.1 hlen
        obtain ⟨hb₁, hb₁'⟩ := hbs b₁ (by simp)
        obtain ⟨hb₂, hb₂'⟩ := hbs b₂ (by simp)
        simp only [List.foldl_cons, List.foldl_nil] at hval
        have := hmin rfl
        refine ⟨hs, ?_⟩
        rw [utf8, if_neg (by omega), if_neg (by omega), if_pos (by omega)]
        simp only [List.cons_append, List.nil_append, List.cons.injEq, and_true]
        omega
      · obtain ⟨c, it', hrun, hc⟩ := nextUtf8Tail_cases (n := 3) (c := b % 8) (by omega) (by omega) hit' hz'
        refine ⟨c, it', hrun, hc.imp_right ?_⟩
        rintro ⟨hs, -, -, hmin, bs, hlen, rfl, hbs, hval⟩
        obtain ⟨b₁, b₂, b₃, rfl⟩ := List.length_eq_three.1 hlen
        obtain ⟨hb₁, hb₁'⟩ := hbs b₁ (by simp)
        obtain ⟨hb₂, hb₂'⟩ := hbs b₂ (by simp)
        obtain ⟨hb₃, hb₃'⟩ := hbs b₃ (by simp)
        simp only [List.foldl_cons, List.foldl_nil] at hval
        have := hmin rfl
        refine ⟨hs, ?_⟩
        rw [utf8, if_neg (by omega), if_neg (by omega), if_neg (by omega)]
        simp only [List.cons_append, List.nil_append, List.cons.injEq, and_true]
        omega
      · exact ⟨invalid, it, rfl, Or.inl rfl⟩

/-! ## The encodings are prefix codes -/

theorem utf8_ne_nil (c : ℕ) : utf8 c ≠ [] := by
  unfold utf8
  split_ifs <;> exact List.cons_ne_nil _ _

theorem prefixCode_utf8 : PrefixCode Valid utf8 where
  ne_nil c _ := utf8_ne_nil c
  prefix_free {c d r r'} hc hd heq := by
    have h := (nextUtf8_utf8 hc.2 r).symm.trans ((congrArg (nextUtf8 false) heq).trans
      (nextUtf8_utf8 hd.2 r'))
    simpa using h

theorem prefixCode_utf16 : PrefixCode Valid utf16 where
  ne_nil c _ := by
    unfold utf16
    split_ifs <;> exact List.cons_ne_nil _ _
  prefix_free {c d r r'} hc hd heq := by
    obtain ⟨-, hc⟩ := hc
    obtain ⟨-, hd⟩ := hd
    unfold Scalar at hc hd
    unfold utf16 at heq
    split_ifs at heq
    · simpa using heq
    · simp only [List.cons_append, List.nil_append, List.cons.injEq] at heq
      omega
    · simp only [List.cons_append, List.nil_append, List.cons.injEq] at heq
      omega
    · simp only [List.cons_append, List.nil_append, List.cons.injEq] at heq
      obtain ⟨h1, h2, rfl⟩ := heq
      exact ⟨by omega, rfl⟩

/-! ## Writing -/

/-- **What `PUT` writes**: all units, or as many as there is space for. -/
theorem put_spec (bits : ℕ) (dstSize : ℤ) (dst : ℕ) (xs : List ℕ) (hx : ∀ x ∈ xs, x < 2 ^ bits) :
    ∀ (length : ℕ) (w junk : List ℕ), w.length = dst + length →
      junk.length = (dstSize - length).toNat → put bits dstSize dst xs length (w ++ junk) =
        if xs.length ≤ junk.length then
          some (.ok, length + xs.length, w ++ xs ++ junk.drop xs.length)
        else some (.insufficientSpace, length + junk.length, w ++ xs.take junk.length) := by
  induction xs with
  | nil => simp [put]
  | cons x xs ih =>
    intro length w junk hw hj
    rw [put]
    cases junk with
    | nil =>
      rw [List.length_nil] at hj
      rw [if_pos (by omega)]
      simp
    | cons j junk =>
      rw [List.length_cons] at hj
      have hwrite : write (w ++ j :: junk) (dst + length) (x % 2 ^ bits) = some (w ++ [x] ++ junk) := by
        rw [write, if_pos (by simp; omega), Nat.mod_eq_of_lt (hx x List.mem_cons_self), ← hw]
        simp
      rw [if_neg (by omega), hwrite, Option.bind_eq_bind, Option.bind_some,
        ih (fun y hy => hx y (List.mem_cons_of_mem _ hy)) (length + 1) (w ++ [x]) junk
          (by simp [hw, add_assoc]) (by push_cast; omega)]
      simp only [List.length_cons, Nat.add_le_add_iff_right, List.drop_succ_cons, List.take_succ_cons,
        List.append_assoc, List.cons_append, List.nil_append]
      split_ifs <;> simp only [add_assoc, add_comm 1]

theorem utf8_lt (hc : Scalar c) : ∀ x ∈ utf8 c, x < 2 ^ 8 := by
  unfold Scalar at hc
  unfold utf8
  intro x hx
  split_ifs at hx <;> simp only [List.mem_cons, List.not_mem_nil, or_false] at hx <;> omega

theorem utf16_lt (hc : Scalar c) : ∀ x ∈ utf16 c, x < 2 ^ 16 := by
  unfold Scalar at hc
  unfold utf16
  intro x hx
  split_ifs at hx <;> simp only [List.mem_cons, List.not_mem_nil, or_false] at hx <;> omega

/-- **A code point is written** as its encoding. -/
theorem putUtf8_eq (hc : Scalar c) (dst : ℕ) (dstSize : ℤ) (buf : List ℕ) :
    putUtf8 dst c dstSize buf = put 8 dstSize dst (utf8 c) 0 buf := by
  have hc' := hc
  unfold Scalar at hc'
  unfold putUtf8 utf8
  rw [if_neg (by omega), if_neg (by omega)]
  simp only [and_0x3f, mod_or_0x80, Nat.shiftRight_eq_div_pow]
  split_ifs with h1 h2 h3
  · rfl
  · rw [or_0xc0 (by omega)]
  · rw [or_0xe0 (by omega)]
  · rw [or_0xf0 (by omega)]

/-- The units that `utf8toutf16` writes. -/
theorem units_eq (c : ℕ) : (if 0xffff < c then
      [0xd800 - 0x10000 >>> 10 + c >>> 10, 0xdc00 + (c &&& 0x3ff)] else [c]) = utf16 c := by
  rw [utf16, and_0x3ff, Nat.shiftRight_eq_div_pow, Nat.shiftRight_eq_div_pow]
  split_ifs with h1 h2
  · omega
  · simp only [List.cons.injEq, and_true]
    omega
  · rfl
  · omega

end Unicode

end Miosix
