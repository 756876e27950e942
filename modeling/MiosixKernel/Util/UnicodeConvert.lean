import MiosixKernel.Util.UnicodeCodes

/-!
# Conversion between UTF-8 and UTF-16: strings

Both conversions decode a code point, write its other encoding, and go on.

* `Transcodes`: what one turn of the loop does;
* `outcome`, **`Transcodes.run`**: what the whole loop does to a text and a rest that is ill-formed;
* **`unicode_conversions`**: when the conversions succeed, what they write, and that they are inverse to
  each other.
-/

namespace Miosix

open Lib

namespace Unicode

variable {enc enc' : ℕ → List ℕ} {bits c : ℕ} {dstSize : ℤ} {l : List ℕ} {r w junk buf src : List ℕ}
  {loop : ℕ → List ℕ → ℕ → List ℕ → Option (Error × ℕ × List ℕ)}

/-! ## One turn of a loop -/

/-- A loop that writes the code points of the source in another encoding. The used part of the buffer is
`w`. -/
structure Transcodes (enc enc' : ℕ → List ℕ) (bits : ℕ) (dstSize : ℤ)
    (loop : ℕ → List ℕ → ℕ → List ℕ → Option (Error × ℕ × List ℕ)) : Prop where
  char : ∀ (fuel c : ℕ) (rest w junk : List ℕ), Valid c → junk.length = (dstSize - w.length).toNat →
    loop (fuel + 1) (enc c ++ rest) w.length (w ++ junk) =
      if (enc' c).length ≤ junk.length then
        loop fuel rest (w ++ enc' c).length (w ++ enc' c ++ junk.drop (enc' c).length)
      else some (.insufficientSpace, w.length + junk.length, w ++ (enc' c).take junk.length)
  nul : ∀ (fuel : ℕ) (w junk : List ℕ), junk.length = (dstSize - w.length).toNat →
    loop (fuel + 1) [0] w.length (w ++ junk) =
      if 1 ≤ junk.length then some (.ok, w.length, w ++ [0] ++ junk.drop 1)
      else some (.insufficientSpace, w.length, w)
  stuck : ∀ (fuel : ℕ) (r : List ℕ) (length : ℕ) (buf : List ℕ), Stuck Valid enc r → r ≠ [] →
    (∀ b ∈ r, b ≠ 0 ∧ b < 2 ^ bits) →
    loop (fuel + 1) (r ++ [0]) length buf = some (.invalidString, length, buf)

/-- The end of the string is written, if there is space for it. -/
theorem terminate_eq (hj : junk.length = (dstSize - w.length).toNat) :
    terminate bits dstSize w.length (w ++ junk) =
      if 1 ≤ junk.length then some (.ok, w.length, w ++ [0] ++ junk.drop 1)
      else some (.insufficientSpace, w.length, w) := by
  rw [terminate, put_spec bits dstSize 0 [0] (by simp) w.length w junk (by simp) hj]
  by_cases h : 1 ≤ junk.length
  · rw [if_pos h, if_pos (by simpa using h)]
    simp
  · obtain rfl : junk = [] := by simpa using h
    simp

theorem valid_bounds (hc : Valid c) : 0 < c ∧ c ≤ 0x10ffff := by
  obtain ⟨h0, hs⟩ := hc
  unfold Scalar at hs
  omega

/-- No code point but the nul has a nul in its encoding. -/
theorem zero_notMem_utf8 (hc : c ≠ 0) : 0 ∉ utf8 c := by
  unfold utf8
  split_ifs <;> simp <;> omega

/-- Where no code point can be read, the string is invalid. -/
theorem nextUtf8_stuck (hr : Stuck Valid utf8 r) (hne : r ≠ []) (hb : ∀ b ∈ r, b ≠ 0 ∧ b < 2 ^ 8) :
    ∃ it, nextUtf8 false (r ++ [0]) = some (invalid, it) := by
  have hlt : ∀ b ∈ r ++ [0], b < 256 := by
    intro b hmem
    rcases List.mem_append.1 hmem with h | h
    · exact (hb b h).2
    · rw [List.mem_singleton.1 h]
      decide
  obtain ⟨c, it, hrun, rfl | ⟨hs, heq⟩⟩ := nextUtf8_cases hlt (by simp)
  · exact ⟨it, hrun⟩
  · exfalso
    obtain ⟨x, r', rfl⟩ := List.exists_cons_of_ne_nil hne
    by_cases hc : c = 0
    · subst hc
      have hx := (hb x List.mem_cons_self).1
      rw [show utf8 0 = [0] from rfl] at heq
      exact hx (List.cons.inj heq).1
    · rcases List.append_eq_append_iff.1 heq with ⟨a, hutf, ha⟩ | ⟨a, hutf, -⟩
      · cases a with
        | nil => exact hr c [] ⟨hc, hs⟩ (by simpa using hutf.symm)
        | cons y a =>
          obtain rfl : 0 = y := (List.cons.inj ha).1
          exact zero_notMem_utf8 hc (hutf ▸ List.mem_append_right _ List.mem_cons_self)
      · exact hr c a ⟨hc, hs⟩ hutf

/-- **One turn of `utf8toutf16`.** -/
theorem transcodes_utf8toutf16 (dstSize : ℤ) :
    Transcodes utf8 utf16 8 dstSize (utf8toutf16Loop dstSize) where
  char fuel c rest w junk hc hj := by
    obtain ⟨h0, hmax⟩ := valid_bounds hc
    have hinv : c ≠ invalid := by
      unfold invalid
      omega
    rw [utf8toutf16Loop, nextUtf8_utf8 hc.2]
    simp only [Option.bind_eq_bind, Option.bind_some, if_neg h0.ne', if_neg hinv, units_eq]
    rw [put_spec 16 dstSize 0 (utf16 c) (utf16_lt hc.2) w.length w junk (by simp) hj]
    split_ifs with hle
    · simp
    · simp
  nul fuel w junk hj := by
    rw [utf8toutf16Loop]
    exact terminate_eq hj
  stuck fuel r length buf hr hne hb := by
    obtain ⟨it, hrun⟩ := nextUtf8_stuck hr hne hb
    rw [utf8toutf16Loop, hrun]
    rfl

/-- A code point that is not ASCII is written by `putUtf8`, and the loop goes on. -/
theorem putUtf8_turn (hc : Scalar c) (hj : junk.length = (dstSize - w.length).toNat)
    (f : ℕ → List ℕ → Option (Error × ℕ × List ℕ)) :
    (do
      let (e, n, buf) ← putUtf8 w.length c (dstSize - w.length) (w ++ junk)
      if e = .ok then f (w.length + n) buf else some (e, w.length + n, buf)) =
      if (utf8 c).length ≤ junk.length then
        f (w ++ utf8 c).length (w ++ utf8 c ++ junk.drop (utf8 c).length)
      else some (.insufficientSpace, w.length + junk.length, w ++ (utf8 c).take junk.length) := by
  rw [putUtf8_eq hc, put_spec 8 (dstSize - w.length) w.length (utf8 c) (utf8_lt hc) 0 w junk (by simp)
    (by simpa using hj)]
  split_ifs with hle <;> simp

/-- **One turn of `utf16toutf8`.** -/
theorem transcodes_utf16toutf8 (dstSize : ℤ) :
    Transcodes utf16 utf8 16 dstSize (utf16toutf8Loop dstSize) where
  char fuel c rest w junk hc hj := by
    obtain ⟨h0, hmax⟩ := valid_bounds hc
    have hs := hc.2
    unfold Scalar at hs
    rw [utf16]
    by_cases hbmp : c < 0x10000
    · rw [if_pos hbmp, List.cons_append, List.nil_append, utf16toutf8Loop.eq_def]
      dsimp only
      rw [if_neg h0.ne']
      by_cases hascii : c < 0x80
      · have hput := put_spec 8 dstSize 0 [c] (by simp; omega) w.length w junk (by simp) hj
        rw [if_pos hascii, hput, utf8, if_pos hascii]
        split_ifs with hle <;> simp
      · rw [if_neg hascii, if_neg (by omega), if_neg (by omega)]
        exact putUtf8_turn hc.2 hj _
    · have hval : ((0xd800 + (c - 0x10000) / 1024) <<< 10 + (0xdc00 + (c - 0x10000) % 1024) +
          (2 ^ 32 + 0x10000 - 0xd800 <<< 10 - 0xdc00)) % 2 ^ 32 = c := by
        simp only [Nat.shiftLeft_eq]
        omega
      rw [if_neg hbmp, List.cons_append, List.cons_append, List.nil_append, utf16toutf8Loop.eq_def]
      dsimp only
      rw [if_neg (by omega), if_neg (by omega), if_pos (by omega), if_neg (by omega), hval]
      exact putUtf8_turn hc.2 hj _
  nul fuel w junk hj := by
    rw [utf16toutf8Loop.eq_def]
    exact terminate_eq hj
  stuck fuel r length buf hr hne hb := by
    obtain ⟨x, r, rfl⟩ := List.exists_cons_of_ne_nil hne
    obtain ⟨hx0, hx⟩ := hb x List.mem_cons_self
    -- a unit that is not a surrogate is a code point
    have hsur : 0xd800 ≤ x ∧ x ≤ 0xdfff := by
      by_contra hns
      have hv : Valid x := ⟨hx0, by unfold Scalar; omega⟩
      exact hr x r hv (by rw [utf16, if_pos (by omega)]; rfl)
    rw [List.cons_append, utf16toutf8Loop.eq_def]
    dsimp only
    rw [if_neg hx0, if_neg (by omega)]
    by_cases hlead : x ≤ 0xdbff
    · rw [if_pos ⟨hsur.1, hlead⟩]
      cases r with
      | nil => rfl
      | cons y r =>
        rw [List.cons_append]
        dsimp only
        refine if_pos ?_
        -- a trail surrogate would make a pair
        by_contra hy
        have hv : Valid (0x10000 + (x - 0xd800) * 1024 + (y - 0xdc00)) :=
          ⟨by omega, by unfold Scalar; omega⟩
        refine hr _ r hv ?_
        rw [utf16, if_neg (by omega)]
        simp only [List.cons_append, List.nil_append, List.cons.injEq, and_true]
        omega
    · rw [if_neg (by omega), if_pos (by omega)]

/-! ## Whole strings -/

/-- The result for the units `u` of a text and a rest `r` that is ill-formed, when `w` was written
before. -/
def outcome (u r w junk : List ℕ) : Option (Error × ℕ × List ℕ) :=
  if u.length ≤ junk.length then
    if r ≠ [] then some (.invalidString, w.length + u.length, w ++ u ++ junk.drop u.length)
    else if u.length < junk.length then
      some (.ok, w.length + u.length, w ++ u ++ 0 :: junk.drop (u.length + 1))
    else some (.insufficientSpace, w.length + u.length, w ++ u)
  else some (.insufficientSpace, w.length + junk.length, w ++ u.take junk.length)

/-- **The whole loop.** -/
theorem Transcodes.run (h : Transcodes enc enc' bits dstSize loop) (hr : Stuck Valid enc r)
    (hb : ∀ b ∈ r, b ≠ 0 ∧ b < 2 ^ bits) : ∀ (l : List ℕ), (∀ c ∈ l, Valid c) → ∀ (fuel : ℕ)
      (w junk : List ℕ), l.length < fuel → junk.length = (dstSize - w.length).toNat →
      loop fuel (l.flatMap enc ++ (r ++ [0])) w.length (w ++ junk) = outcome (l.flatMap enc') r w junk
  | _, _, 0, _, _, hf, _ => absurd hf (Nat.not_lt_zero _)
  | [], _, fuel + 1, w, junk, _, hj => by
    rw [List.flatMap_nil, List.flatMap_nil, List.nil_append, outcome, List.length_nil,
      if_pos (Nat.zero_le _)]
    by_cases hne : r = []
    · subst hne
      rw [List.nil_append, h.nul fuel w junk hj, if_neg (not_not.2 rfl)]
      simp only [add_zero, List.append_nil, zero_add, Nat.lt_iff_add_one_le,
        List.append_assoc, List.cons_append, List.nil_append]
    · rw [h.stuck fuel r w.length (w ++ junk) hr hne hb, if_pos hne]
      simp
  | c :: l, hl, fuel + 1, w, junk, hf, hj => by
    rw [List.flatMap_cons, List.append_assoc, h.char fuel c _ w junk (hl c List.mem_cons_self) hj,
      List.flatMap_cons]
    by_cases hle : (enc' c).length ≤ junk.length
    · rw [if_pos hle, Transcodes.run h hr hb l (fun d hd => hl d (List.mem_cons_of_mem _ hd)) fuel
        (w ++ enc' c) (junk.drop (enc' c).length) (by simpa using hf)
        (by simp only [List.length_drop, List.length_append]; push_cast; omega)]
      simp only [outcome, List.length_append, List.length_drop, List.drop_drop, List.append_assoc,
        add_assoc, Nat.le_sub_iff_add_le' hle, Nat.lt_sub_iff_add_lt']
      have htake : ∀ u : List ℕ, (enc' c ++ u).take junk.length =
          enc' c ++ u.take (junk.length - (enc' c).length) := fun u => by
        rw [List.take_append, List.take_of_length_le hle]
      rw [htake]
      have hlen : (enc' c).length + (junk.length - (enc' c).length) = junk.length := by omega
      rw [hlen]
    · rw [if_neg hle, outcome, if_neg (by rw [List.length_append]; omega),
        List.take_append_of_le_length (by omega)]

/-- What a conversion of the string `src` into the buffer `buf` does. An encoding is well-formed if it is
that of a text, and it is ill-formed after a text if no code point can be read there. -/
structure Converts (enc enc' : ℕ → List ℕ) (src buf : List ℕ) (e : Error) (length : ℕ)
    (buf' : List ℕ) : Prop where
  size : buf'.length = buf.length
  ok_iff : e = .ok ↔ ∃ l : List ℕ, (∀ c ∈ l, Valid c) ∧ src = l.flatMap enc ∧
    (l.flatMap enc').length + 1 ≤ buf.length
  written : e = .ok → ∀ l : List ℕ, (∀ c ∈ l, Valid c) → src = l.flatMap enc →
    length = (l.flatMap enc').length ∧ buf' = l.flatMap enc' ++ 0 :: buf.drop (length + 1)
  invalid_iff : e = .invalidString ↔ ∃ l r : List ℕ, (∀ c ∈ l, Valid c) ∧ Stuck Valid enc r ∧ r ≠ [] ∧
    src = l.flatMap enc ++ r ∧ (l.flatMap enc').length ≤ buf.length

/-- **A conversion** returns, within the source and the buffer. -/
theorem Transcodes.converts (h : Transcodes enc enc' bits dstSize loop) (hcode : PrefixCode Valid enc)
    (hsrc : ∀ b ∈ src, b ≠ 0 ∧ b < 2 ^ bits) (hbuf : buf.length = dstSize.toNat) :
    ∃ e length buf', loop (src ++ [0]).length (src ++ [0]) 0 buf = some (e, length, buf') ∧
      Converts enc enc' src buf e length buf' := by
  obtain ⟨l, r, hl, hr, rfl⟩ := hcode.exists_split src
  have hfuel : l.length < (l.flatMap enc ++ r ++ [0]).length := by
    have := hcode.length_le hl
    simp only [List.length_append, List.length_singleton]
    omega
  have hrun := h.run hr (fun b hb => hsrc b (List.mem_append_right _ hb)) l hl _ [] buf hfuel
    (by simpa using hbuf)
  rw [← List.append_assoc, List.nil_append, List.length_nil] at hrun
  rw [hrun]
  -- the text and the rest are the only ones
  have huniq : ∀ l' r' : List ℕ, (∀ c ∈ l', Valid c) → Stuck Valid enc r' →
      l.flatMap enc ++ r = l'.flatMap enc ++ r' → l = l' ∧ r = r' :=
    fun l' r' hl' hr' heq => hcode.split_unique hl hl' hr hr' heq
  have huniq' : ∀ l' : List ℕ, (∀ c ∈ l', Valid c) → l.flatMap enc ++ r = l'.flatMap enc →
      l = l' ∧ r = [] :=
    fun l' hl' heq => huniq l' [] hl' hcode.stuck_nil (by rw [heq, List.append_nil])
  unfold outcome
  split_ifs with hfit hne hlt
  · refine ⟨_, _, _, rfl, ?_, ?_, fun he => (by cases he), ?_⟩
    · simp only [List.nil_append, List.length_append, List.length_drop]
      omega
    · refine iff_of_false nofun ?_
      rintro ⟨l', hl', heq, -⟩
      exact hne (huniq' l' hl' heq).2
    · exact iff_of_true rfl ⟨l, r, hl, hr, hne, rfl, hfit⟩
  · rw [not_not] at hne
    subst hne
    refine ⟨_, _, _, rfl, ?_, ?_, fun _ l' hl' heq => ?_, ?_⟩
    · simp only [List.nil_append, List.length_append, List.length_cons, List.length_drop]
      omega
    · exact iff_of_true rfl ⟨l, hl, by rw [List.append_nil], hlt⟩
    · obtain ⟨rfl, -⟩ := huniq' l' hl' heq
      simp
    · refine iff_of_false nofun ?_
      rintro ⟨l', r', hl', hr', hne', heq, -⟩
      exact hne' (huniq l' r' hl' hr' heq).2.symm
  · rw [not_not] at hne
    subst hne
    refine ⟨_, _, _, rfl, ?_, ?_, fun he => (by cases he), ?_⟩
    · rw [List.nil_append]
      omega
    · refine iff_of_false nofun ?_
      rintro ⟨l', hl', heq, hle⟩
      obtain ⟨rfl, -⟩ := huniq' l' hl' heq
      omega
    · refine iff_of_false nofun ?_
      rintro ⟨l', r', hl', hr', hne', heq, -⟩
      exact hne' (huniq l' r' hl' hr' heq).2.symm
  · refine ⟨_, _, _, rfl, ?_, ?_, fun he => (by cases he), ?_⟩
    · rw [List.nil_append, List.length_take]
      omega
    · refine iff_of_false nofun ?_
      rintro ⟨l', hl', heq, hle⟩
      obtain ⟨rfl, -⟩ := huniq' l' hl' heq
      omega
    · refine iff_of_false nofun ?_
      rintro ⟨l', r', hl', hr', -, heq, hle⟩
      obtain ⟨rfl, -⟩ := huniq l' r' hl' hr' heq
      exact hfit hle

/-- What was converted converts back. -/
theorem Converts.back {loop' : ℕ → List ℕ → ℕ → List ℕ → Option (Error × ℕ × List ℕ)} {bits' n : ℕ}
    {dstSize' : ℤ} {buf' buf₂ : List ℕ} (h : Converts enc enc' src buf .ok n buf')
    (hloop' : Transcodes enc' enc bits' dstSize' loop') (hcode' : PrefixCode Valid enc')
    (henc' : ∀ c, Valid c → ∀ b ∈ enc' c, b ≠ 0 ∧ b < 2 ^ bits')
    (hbuf₂ : buf₂.length = dstSize'.toNat) (hfit : src.length + 1 ≤ buf₂.length) :
    ∃ buf₂', loop' (buf'.take (n + 1)).length (buf'.take (n + 1)) 0 buf₂ = some (.ok, src.length, buf₂') ∧
      buf₂'.take (src.length + 1) = src ++ [0] := by
  obtain ⟨l, hl, rfl, -⟩ := h.ok_iff.1 rfl
  obtain ⟨rfl, rfl⟩ := h.written rfl l hl rfl
  have htake : (l.flatMap enc' ++ 0 :: buf.drop ((l.flatMap enc').length + 1)).take
      ((l.flatMap enc').length + 1) = l.flatMap enc' ++ [0] := by
    rw [List.take_append, List.take_of_length_le (Nat.le_succ _), Nat.add_sub_cancel_left]
    rfl
  have hunits : ∀ b ∈ l.flatMap enc', b ≠ 0 ∧ b < 2 ^ bits' := by
    intro b hb
    obtain ⟨c, hc, hbc⟩ := List.mem_flatMap.1 hb
    exact henc' c (hl c hc) b hbc
  obtain ⟨e, n, buf₂', hrun, hconv⟩ := hloop'.converts hcode' hunits hbuf₂
  obtain rfl : e = .ok := hconv.ok_iff.2 ⟨l, hl, rfl, hfit⟩
  obtain ⟨rfl, rfl⟩ := hconv.written rfl l hl rfl
  refine ⟨_, by rw [htake, hrun], ?_⟩
  rw [List.take_append, List.take_of_length_le (Nat.le_succ _), Nat.add_sub_cancel_left]
  rfl

theorem utf8_units (c : ℕ) (hc : Valid c) : ∀ b ∈ utf8 c, b ≠ 0 ∧ b < 2 ^ 8 := fun b hb =>
  ⟨fun h => zero_notMem_utf8 hc.1 (h ▸ hb), utf8_lt hc.2 b hb⟩

theorem utf16_units (c : ℕ) (hc : Valid c) : ∀ b ∈ utf16 c, b ≠ 0 ∧ b < 2 ^ 16 := fun b hb => by
  refine ⟨?_, utf16_lt hc.2 b hb⟩
  rintro rfl
  have := hc.1
  unfold utf16 at hb
  split_ifs at hb <;> simp only [List.mem_cons, List.not_mem_nil, or_false] at hb <;> omega

/-- **The conversions.** Whatever the source and the size of the buffer, a conversion returns without
reading past the nul of the source or writing past the end of the buffer; it succeeds exactly on
well-formed strings that fit; it reports an ill-formed string exactly if it meets one while there is space;
and what it has converted converts back to the source. -/
theorem unicode_conversions :
    (∀ (src buf : List ℕ) (dstSize : ℤ), (∀ b ∈ src, b ≠ 0 ∧ b < 2 ^ 8) → buf.length = dstSize.toNat →
      ∃ e n buf', utf8toutf16 buf dstSize (src ++ [0]) = some (e, n, buf') ∧
        Converts utf8 utf16 src buf e n buf' ∧
        (e = .ok → ∀ (buf₂ : List ℕ) (dstSize₂ : ℤ), buf₂.length = dstSize₂.toNat →
          src.length + 1 ≤ buf₂.length → ∃ buf₂',
            utf16toutf8 buf₂ dstSize₂ (buf'.take (n + 1)) = some (.ok, src.length, buf₂') ∧
            buf₂'.take (src.length + 1) = src ++ [0])) ∧
    ∀ (src buf : List ℕ) (dstSize : ℤ), (∀ b ∈ src, b ≠ 0 ∧ b < 2 ^ 16) → buf.length = dstSize.toNat →
      ∃ e n buf', utf16toutf8 buf dstSize (src ++ [0]) = some (e, n, buf') ∧
        Converts utf16 utf8 src buf e n buf' ∧
        (e = .ok → ∀ (buf₂ : List ℕ) (dstSize₂ : ℤ), buf₂.length = dstSize₂.toNat →
          src.length + 1 ≤ buf₂.length → ∃ buf₂',
            utf8toutf16 buf₂ dstSize₂ (buf'.take (n + 1)) = some (.ok, src.length, buf₂') ∧
            buf₂'.take (src.length + 1) = src ++ [0]) := by
  refine ⟨fun src buf dstSize hsrc hbuf => ?_, fun src buf dstSize hsrc hbuf => ?_⟩
  · obtain ⟨e, n, buf', hrun, hconv⟩ :=
      (transcodes_utf8toutf16 dstSize).converts prefixCode_utf8 hsrc hbuf
    refine ⟨e, n, buf', hrun, hconv, ?_⟩
    rintro rfl buf₂ dstSize₂ hbuf₂ hfit
    exact hconv.back (transcodes_utf16toutf8 dstSize₂) prefixCode_utf16 utf16_units hbuf₂ hfit
  · obtain ⟨e, n, buf', hrun, hconv⟩ :=
      (transcodes_utf16toutf8 dstSize).converts prefixCode_utf16 hsrc hbuf
    refine ⟨e, n, buf', hrun, hconv, ?_⟩
    rintro rfl buf₂ dstSize₂ hbuf₂ hfit
    exact hconv.back (transcodes_utf8toutf16 dstSize₂) prefixCode_utf8 utf8_units hbuf₂ hfit

/-- The string "é" in UTF-8, converted into a buffer of four units and back. -/
theorem unicode_conversions_eacute :
    (∃ e n buf', utf8toutf16 [7, 7, 7, 7] 4 ([0xc3, 0xa9] ++ [0]) = some (e, n, buf') ∧
      Converts utf8 utf16 [0xc3, 0xa9] [7, 7, 7, 7] e n buf') ∧
    ∃ buf₂', utf16toutf8 [7, 7, 7] 3 [0xe9, 0] = some (.ok, 2, buf₂') ∧ buf₂'.take 3 = [0xc3, 0xa9, 0] := by
  obtain ⟨e, n, buf', hrun, hconv, hback⟩ :=
    unicode_conversions.1 [0xc3, 0xa9] [7, 7, 7, 7] 4 (by decide) rfl
  refine ⟨⟨e, n, buf', hrun, hconv⟩, ?_⟩
  have hval : utf8toutf16 [7, 7, 7, 7] 4 ([0xc3, 0xa9] ++ [0]) = some (.ok, 1, [0xe9, 0, 7, 7]) := by
    decide +kernel
  obtain ⟨rfl, rfl, rfl⟩ : Error.ok = e ∧ 1 = n ∧ [0xe9, 0, 7, 7] = buf' := by
    simpa using hval.symm.trans hrun
  exact hback rfl [7, 7, 7] 3 rfl (by decide)

end Unicode

end Miosix
