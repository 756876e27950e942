import MiosixKernel.Fat.Volume

/-!
# Long names in directory entries

A long name is kept in directory entries of its own, 13 characters in each, the last ones first.

* `ffWtoupper`, `cmpLfn`, `pickLfn`, `fitLfn`: the code;
* `IsLfnEntry`: a part of a long name;
* **`fitLfn_isLfnEntry`**: what is written is such a part;
* **`cmpLfn_all`**: the parts are those of a name, up to its capitals, and of no name with 255 characters;
* **`pickLfn_step`**: the name is read back.
-/

namespace Miosix

open Lib

/-! ## The code -/

/-- `_MAX_LFN` -/
def maxLfn : ℕ := 255

def lowerCase : List ℕ := [0x00b5, 0x00ff, 0x0131, 0x0133, 0x0135, 0x0137, 0x017a, 0x017c, 0x017e, 0x0192, 0x045e, 0x045f]

def upperCase : List ℕ := [0x039c, 0x0178, 0x0049, 0x0132, 0x0134, 0x0136, 0x0179, 0x017b, 0x017d, 0x0191, 0x040e, 0x040f]

def ffWtoupper (c : ℕ) : ℕ :=
  if 0x61 ≤ c ∧ c ≤ 0x7a then c - 0x20
  else if c < 0x80 then c
  else if 0x00e0 ≤ c ∧ c ≤ 0x00f6 then c - (0x00e0 - 0x00c0)
  else if 0x00f8 ≤ c ∧ c ≤ 0x00fe then c - (0x00f8 - 0x00d8)
  else if 0x0101 ≤ c ∧ c ≤ 0x012f ∧ c % 2 = 1 then c - 1
  else if 0x013a ≤ c ∧ c ≤ 0x0148 ∧ c % 2 = 0 then c - 1
  else if 0x014b ≤ c ∧ c ≤ 0x0177 ∧ c % 2 = 1 then c - 1
  else if 0x03b1 ≤ c ∧ c ≤ 0x03c1 then c - (0x03b1 - 0x0391)
  else if 0x03c3 ≤ c ∧ c ≤ 0x03ca then c - (0x03c3 - 0x03a3)
  else if 0x0430 ≤ c ∧ c ≤ 0x044f then c - (0x0430 - 0x0410)
  else if 0x0451 ≤ c ∧ c ≤ 0x045c then c - (0x0451 - 0x0401)
  else if 0x2170 ≤ c ∧ c ≤ 0x217f then c - (0x2170 - 0x2160)
  else if 0xff41 ≤ c ∧ c ≤ 0xff5a then c - (0xff41 - 0xff21)
  else ((lowerCase.zip upperCase).lookup c).getD c

/-- A directory entry, by the offset of its bytes. -/
abbrev DirEntry := ℕ → UInt8

/-- `LLE` -/
def lastLongEntry : ℕ := 0x40

/-- `DDE` -/
def deletedMark : UInt8 := 0xE5

/-- `AM_LFN` -/
def amLfn : UInt8 := 0x0F

/-- `LfnOfs` -/
def lfnOfs : List ℕ := [1, 3, 5, 7, 9, 14, 16, 18, 20, 22, 24, 28, 30]

/-- The characters of an entry. -/
def lfnWords (dir : DirEntry) : List ℕ := lfnOfs.map (ldWord dir)

/-- The loop of `cmp_lfn`, with the characters to come. -/
def cmpLoop (lfnbuf : ℕ → ℕ) : List ℕ → ℕ → ℕ → Option (ℕ × ℕ)
  | [], i, wc => some (i, wc)
  | uc :: ucs, i, wc =>
    if wc ≠ 0 then
      if maxLfn ≤ i ∨ ffWtoupper uc ≠ ffWtoupper (lfnbuf i) then none else cmpLoop lfnbuf ucs (i + 1) (ffWtoupper uc)
    else if uc ≠ 0xFFFF then none
    else cmpLoop lfnbuf ucs i wc

def cmpLfn (lfnbuf : ℕ → ℕ) (dir : DirEntry) : Bool :=
  let ord := (dir 0).toNat
  match cmpLoop lfnbuf (lfnWords dir) (u32 (((ord - (ord &&& lastLongEntry) : ℕ) : ℤ) - 1) * 13 % 2 ^ 32) 1 with
  | some (i, wc) => !(ord &&& lastLongEntry ≠ 0 ∧ wc ≠ 0 ∧ lfnbuf i ≠ 0)
  | none => false

/-- The loop of `pick_lfn`. -/
def pickLoop : List ℕ → ℕ → ℕ → (ℕ → ℕ) → Option ℕ × (ℕ → ℕ)
  | [], i, _, lfnbuf => (some i, lfnbuf)
  | uc :: ucs, i, wc, lfnbuf =>
    if wc ≠ 0 then
      if maxLfn ≤ i then (none, lfnbuf) else pickLoop ucs (i + 1) uc (Function.update lfnbuf i uc)
    else if uc ≠ 0xFFFF then (none, lfnbuf)
    else pickLoop ucs i wc lfnbuf

/-- The buffer is changed also when the name is not picked. -/
def pickLfn (lfnbuf : ℕ → ℕ) (dir : DirEntry) : Bool × (ℕ → ℕ) :=
  let ord := (dir 0).toNat
  match pickLoop (lfnWords dir) (u32 (((ord &&& 0x3F : ℕ) : ℤ) - 1) * 13 % 2 ^ 32) 1 lfnbuf with
  | (some i, lfnbuf) =>
    if ord &&& lastLongEntry ≠ 0 then
      if maxLfn ≤ i then (false, lfnbuf) else (true, Function.update lfnbuf i 0)
    else (true, lfnbuf)
  | (none, lfnbuf) => (false, lfnbuf)

/-- The loop of `fit_lfn`. -/
def fitLoop (lfnbuf : ℕ → ℕ) : List ℕ → ℕ → ℕ → DirEntry → ℕ × ℕ × DirEntry
  | [], i, wc, dir => (i, wc, dir)
  | ofs :: rest, i, wc, dir =>
    if wc ≠ 0xFFFF then
      fitLoop lfnbuf rest (i + 1) (if lfnbuf i = 0 then 0xFFFF else lfnbuf i) (stWord dir ofs (lfnbuf i))
    else fitLoop lfnbuf rest i wc (stWord dir ofs wc)

def fitLfn (lfnbuf : ℕ → ℕ) (dir : DirEntry) (ord : ℕ) (sum : UInt8) : DirEntry :=
  let dir := store dir 13 [sum]
  let dir := store dir 11 [amLfn]
  let dir := store dir 12 [0]
  let dir := stWord dir 26 0
  match fitLoop lfnbuf lfnOfs ((ord - 1) * 13) 0 dir with
  | (i, wc, dir) =>
    store dir 0 [UInt8.ofNat (if wc = 0xFFFF ∨ lfnbuf i = 0 then ord ||| lastLongEntry else ord)]

/-! ## Characters -/

theorem ffWtoupper_zero : ffWtoupper 0 = 0 := by decide

/-- Only the character that ends a name becomes one that does. -/
theorem ffWtoupper_eq_zero {c : ℕ} (h : ffWtoupper c = 0) : c = 0 := by
  have htab : ((lowerCase.zip upperCase).lookup c).getD c = 0 → c = 0 := by
    rcases hl : (lowerCase.zip upperCase).lookup c with _ | x
    · exact id
    · intro hx
      obtain ⟨l, l', heq, -⟩ := List.lookup_eq_some_iff.1 hl
      have hne : ∀ q ∈ lowerCase.zip upperCase, q.2 ≠ 0 := by decide
      exact absurd hx (hne (c, x) (by rw [heq]; simp))
  unfold ffWtoupper at h
  generalize ((lowerCase.zip upperCase).lookup c).getD c = t at h htab
  by_contra hc
  have ht : 0 < t := by omega
  repeat' rw [ite_eq_iff] at h
  omega

/-- The characters of a long name. -/
def IsName (nm : List ℕ) : Prop := ∀ c ∈ nm, 0 < c ∧ c < 0xFFFF

/-- What the entries hold from a position of the name on. -/
def nameWord (nm : List ℕ) (j : ℕ) : ℕ := if j < nm.length then nm.getD j 0 else if j = nm.length then 0 else 0xFFFF

/-- The buffer holds the name. -/
def HoldsName (lfnbuf : ℕ → ℕ) (nm : List ℕ) : Prop := ∀ j ≤ nm.length, lfnbuf j = nameWord nm j

/-- A part of a long name, the first one for `k = 0`. -/
structure IsLfnEntry (e : DirEntry) (nm : List ℕ) (k : ℕ) (sum : UInt8) : Prop where
  ord : (e 0).toNat = k + 1 + if nm.length ≤ 13 * (k + 1) then lastLongEntry else 0
  attr : e 11 = amLfn
  sum : e 13 = sum
  words : lfnWords e = (List.range' (13 * k) 13).map (nameWord nm)

/-- How many entries there are for the name. -/
def lfnCount (nm : List ℕ) : ℕ := (nm.length + 12) / 13

section Words

variable {nm : List ℕ} {j p n : ℕ}

theorem nameWord_of_lt (h : j < nm.length) : nameWord nm j = nm[j] := by
  rw [nameWord, if_pos h, List.getD_eq_getElem _ _ h]

theorem nameWord_length : nameWord nm nm.length = 0 := by rw [nameWord, if_neg (lt_irrefl _), if_pos rfl]

theorem nameWord_of_gt (h : nm.length < j) : nameWord nm j = 0xFFFF := by
  rw [nameWord, if_neg (by omega), if_neg (by omega)]

theorem IsName.word_lt (h : IsName nm) (hj : j < nm.length) : 0 < nameWord nm j ∧ nameWord nm j < 0xFFFF := by
  rw [nameWord_of_lt hj]
  exact h _ (List.getElem_mem hj)

/-- A word is zero only at the end of the name. -/
theorem IsName.word_eq_zero (h : IsName nm) (hj : j ≤ nm.length) : nameWord nm j = 0 ↔ j = nm.length := by
  refine ⟨fun hz => ?_, fun he => by rw [he, nameWord_length]⟩
  by_contra hne
  have := (h.word_lt (lt_of_le_of_ne hj hne)).1
  omega

end Words

/-! ## Writing -/

section Fit

variable {lfnbuf : ℕ → ℕ} {nm : List ℕ} {dir : DirEntry} {p : ℕ}

/-- The words are written one after the other, and nothing else is. -/
theorem fitLoop_words (hn : IsName nm) (hbuf : HoldsName lfnbuf nm) (ss : List ℕ) (hs : ss.Pairwise (· + 2 ≤ ·))
    (dir : DirEntry) (wc : ℕ) (hwc : wc = 0xFFFF ↔ nm.length < p) :
    ∃ i wc' dir', fitLoop lfnbuf ss (min p (nm.length + 1)) wc dir = (i, wc', dir') ∧
      i = min (p + ss.length) (nm.length + 1) ∧ (wc' = 0xFFFF ↔ nm.length < p + ss.length) ∧
      ss.map (ldWord dir') = (List.range' p ss.length).map (nameWord nm) ∧
      ∀ x, (∀ s ∈ ss, x < s ∨ s + 2 ≤ x) → dir' x = dir x := by
  induction ss generalizing p wc dir with
  | nil => exact ⟨_, _, _, rfl, rfl, hwc, rfl, fun _ _ => rfl⟩
  | cons s ss ih =>
    obtain ⟨hlt, hs⟩ := List.pairwise_cons.1 hs
    -- the word at the position is written, and then the rest
    have hrest : ∀ v wc₁, v = nameWord nm p → (wc₁ = 0xFFFF ↔ nm.length < p + 1) →
        ∃ i wc' dir', fitLoop lfnbuf ss (min (p + 1) (nm.length + 1)) wc₁ (stWord dir s v) = (i, wc', dir') ∧
          i = min (p + (s :: ss).length) (nm.length + 1) ∧ (wc' = 0xFFFF ↔ nm.length < p + (s :: ss).length) ∧
          (s :: ss).map (ldWord dir') = (List.range' p (s :: ss).length).map (nameWord nm) ∧
          ∀ x, (∀ s' ∈ s :: ss, x < s' ∨ s' + 2 ≤ x) → dir' x = dir x := by
      intro v wc₁ hv hwc₁
      obtain ⟨i, wc', dir', hres, hi, hwc', hwords, hout⟩ := ih hs (stWord dir s v) wc₁ hwc₁
      refine ⟨i, wc', dir', hres, by rw [hi, List.length_cons]; congr 1; omega, ?_, ?_, fun x hx => ?_⟩
      · rw [hwc', List.length_cons]
        omega
      · have hhead : ldWord dir' s = ldWord (stWord dir s v) s := by
          refine ldWord_congr fun i hi => hout _ fun s' hs' => ?_
          have := hlt s' hs'
          omega
        have hv16 : nameWord nm p < 2 ^ 16 := by
          rcases Nat.lt_trichotomy p nm.length with hp | rfl | hp
          · have := (hn.word_lt hp).2
            omega
          · rw [nameWord_length]
            decide
          · rw [nameWord_of_gt hp]
            decide
        rw [List.map_cons, hwords, hhead, ldWord_stWord, hv, Nat.mod_eq_of_lt hv16]
        rfl
      · rw [hout x fun s' hs' => hx s' (List.mem_cons_of_mem _ hs')]
        exact stWord_outside (hx s List.mem_cons_self)
    unfold fitLoop
    by_cases hp : nm.length < p
    · rw [if_neg (not_not.2 (hwc.2 hp)), hwc.2 hp, show min p (nm.length + 1) = min (p + 1) (nm.length + 1) by omega]
      exact hrest _ _ (nameWord_of_gt hp).symm ⟨fun _ => by omega, fun _ => rfl⟩
    · have hle : p ≤ nm.length := by omega
      have hget := hbuf p hle
      rw [if_pos fun he => hp (hwc.1 he), show min p (nm.length + 1) = p by omega,
        show p + 1 = min (p + 1) (nm.length + 1) by omega]
      refine hrest _ _ hget ?_
      rw [hget]
      by_cases he : p = nm.length
      · rw [if_pos ((hn.word_eq_zero hle).2 he)]
        exact ⟨fun _ => by omega, fun _ => rfl⟩
      · have hword := hn.word_lt (lt_of_le_of_ne hle he)
        rw [if_neg (by omega)]
        exact ⟨fun h => by omega, fun h => by omega⟩

theorem ord_or : ∀ k < 63, (k + 1) ||| lastLongEntry = k + 1 + lastLongEntry := by decide

/-- **Writing.** The entry is a part of the name. -/
theorem fitLfn_isLfnEntry (hn : IsName nm) (hbuf : HoldsName lfnbuf nm) {k : ℕ} (hk : k < lfnCount nm) (h63 : k < 63)
    (sum : UInt8) : IsLfnEntry (fitLfn lfnbuf dir (k + 1) sum) nm k sum := by
  have hle : 13 * k ≤ nm.length := by
    unfold lfnCount at hk
    omega
  obtain ⟨i, wc, dir', hres, hi, hwc, hwords, hout⟩ := fitLoop_words hn hbuf lfnOfs (by decide) (p := 13 * k)
    (stWord (store (store (store dir 13 [sum]) 11 [amLfn]) 12 [0]) 26 0) 0 (by omega)
  have hlen : lfnOfs.length = 13 := rfl
  rw [show min (13 * k) (nm.length + 1) = (k + 1 - 1) * 13 by omega] at hres
  rw [hlen] at hi hwc hwords
  have heq : fitLfn lfnbuf dir (k + 1) sum =
      store dir' 0 [UInt8.ofNat (if wc = 0xFFFF ∨ lfnbuf i = 0 then (k + 1) ||| lastLongEntry else k + 1)] := by
    unfold fitLfn
    dsimp only
    rw [hres]
  have hne {x : ℕ} (hx : 0 < x) : fitLfn lfnbuf dir (k + 1) sum x = dir' x := by
    rw [heq]
    exact store_outside (by simp only [List.length_singleton]; omega)
  have hlast : (wc = 0xFFFF ∨ lfnbuf i = 0) ↔ nm.length ≤ 13 * (k + 1) := by
    rw [hwc, hi]
    refine ⟨?_, fun h => ?_⟩
    · rintro (h | h)
      · omega
      · by_contra hgt
        rw [show min (13 * k + 13) (nm.length + 1) = 13 * k + 13 by omega, hbuf _ (by omega),
          hn.word_eq_zero (by omega)] at h
        omega
    · rcases Nat.lt_or_ge nm.length (13 * k + 13) with h' | h'
      · exact .inl h'
      · rw [show min (13 * k + 13) (nm.length + 1) = nm.length by omega, hbuf _ le_rfl, nameWord_length]
        exact .inr rfl
  refine ⟨?_, ?_, ?_, ?_⟩
  · rw [heq, store_inside (Nat.le_refl 0) (by simp), Nat.sub_zero, List.getD_cons_zero, toNat_ofNat,
      if_congr hlast rfl rfl]
    split_ifs
    · rw [ord_or k h63, Nat.mod_eq_of_lt]
      unfold lastLongEntry
      omega
    · rw [Nat.mod_eq_of_lt (by omega), Nat.add_zero]
  · rw [hne (by decide), hout 11 (by decide), stWord_outside (by decide), store_outside (by simp),
      store_inside (Nat.le_refl 11) (by simp)]
    rfl
  · rw [hne (by decide), hout 13 (by decide), stWord_outside (by decide), store_outside (by simp),
      store_outside (by simp), store_inside (Nat.le_refl 13) (by simp)]
    rfl
  · rw [← hwords]
    refine List.map_congr_left fun s hs => ldWord_congr fun i hi => hne ?_
    have : ∀ s ∈ lfnOfs, 0 < s := by decide
    have := this s hs
    omega

end Fit

/-! ## Comparing -/

section Compare

variable {lfnbuf : ℕ → ℕ} {nm nm' : List ℕ} {e : DirEntry} {sum : UInt8} {k p : ℕ}

/-- The buffer has the character of the name, up to its capitals, where it is looked at. -/
def FitsWord (lfnbuf : ℕ → ℕ) (nm : List ℕ) (j : ℕ) : Prop :=
  j < maxLfn ∧ ffWtoupper (nameWord nm j) = ffWtoupper (lfnbuf j)

theorem IsName.upper_eq_zero (h : IsName nm) {j : ℕ} (hj : j ≤ nm.length) :
    ffWtoupper (nameWord nm j) = 0 ↔ j = nm.length :=
  ⟨fun hz => (h.word_eq_zero hj).1 (ffWtoupper_eq_zero hz), fun he => by rw [he, nameWord_length, ffWtoupper_zero]⟩

theorem cmpLoop_words (lfnbuf : ℕ → ℕ) (hn : IsName nm) (n wc : ℕ) (hwc : wc ≠ 0 ↔ p ≤ nm.length) :
    (∃ wc', cmpLoop lfnbuf ((List.range' p n).map (nameWord nm)) (min p (nm.length + 1)) wc =
        some (min (p + n) (nm.length + 1), wc') ∧ (wc' ≠ 0 ↔ p + n ≤ nm.length) ∧
        ∀ j, p ≤ j → j < p + n → j ≤ nm.length → FitsWord lfnbuf nm j) ∨
    (cmpLoop lfnbuf ((List.range' p n).map (nameWord nm)) (min p (nm.length + 1)) wc = none ∧
      ∃ j, p ≤ j ∧ j < p + n ∧ j ≤ nm.length ∧ ¬ FitsWord lfnbuf nm j) := by
  induction n generalizing p wc with
  | zero => exact .inl ⟨wc, rfl, hwc, fun j hge hlt => by omega⟩
  | succ n ih =>
    rw [List.range'_succ, List.map_cons, cmpLoop, show p + (n + 1) = p + 1 + n by omega]
    by_cases hp : p ≤ nm.length
    · rw [if_pos (hwc.2 hp), show min p (nm.length + 1) = p by omega]
      by_cases hfit : FitsWord lfnbuf nm p
      · obtain ⟨hlt, heq⟩ := hfit
        rw [if_neg (by rintro (h | h); exacts [absurd hlt (by omega), h heq]),
          show p + 1 = min (p + 1) (nm.length + 1) by omega]
        have hnext : ffWtoupper (nameWord nm p) ≠ 0 ↔ p + 1 ≤ nm.length := by
          rw [Ne, hn.upper_eq_zero hp]
          omega
        obtain ⟨wc', hres, hwc', hall⟩ | ⟨hres, j, hj, hrest⟩ := ih _ hnext
        · rw [show min (p + 1) (nm.length + 1) = p + 1 by omega] at hres ⊢
          refine .inl ⟨wc', hres, hwc', fun j hge hj hle => ?_⟩
          rcases Nat.eq_or_lt_of_le hge with rfl | hgt
          · exact ⟨hlt, heq⟩
          · exact hall j hgt hj hle
        · rw [show min (p + 1) (nm.length + 1) = p + 1 by omega] at hres ⊢
          exact .inr ⟨hres, j, by omega, hrest⟩
      · refine .inr ⟨if_pos ?_, p, le_rfl, by omega, hp, hfit⟩
        unfold FitsWord at hfit
        by_cases hlt : p < maxLfn
        · exact .inr fun heq => hfit ⟨hlt, heq⟩
        · exact .inl (by omega)
    · have hz : wc = 0 := not_not.1 fun h => hp (hwc.1 h)
      rw [if_neg (not_not.2 hz), nameWord_of_gt (by omega), if_neg (not_not.2 rfl),
        show min p (nm.length + 1) = min (p + 1) (nm.length + 1) by omega]
      have hnext : wc ≠ 0 ↔ p + 1 ≤ nm.length := by
        rw [hwc]
        omega
      obtain ⟨wc', hres, hwc', -⟩ | ⟨-, j, hj, -, hle, -⟩ := ih _ hnext
      · exact .inl ⟨wc', hres, hwc', fun j hge _ hle => by omega⟩
      · omega

theorem ord_bits : ∀ k < 63, (k + 1) &&& lastLongEntry = 0 ∧ (k + 1 + lastLongEntry) &&& lastLongEntry = lastLongEntry ∧
    (k + 1) &&& 0x3F = k + 1 ∧ (k + 1 + lastLongEntry) &&& 0x3F = k + 1 := by decide

/-- The first position of an entry. -/
theorem ord_pos (h63 : k < 63) : u32 (((k + 1 : ℕ) : ℤ) - 1) * 13 % 2 ^ 32 = 13 * k := by
  have hu : u32 (((k + 1 : ℕ) : ℤ) - 1) = k := by
    unfold u32
    omega
  rw [hu, Nat.mod_eq_of_lt (by omega), Nat.mul_comm]

theorem IsLfnEntry.bits (h : IsLfnEntry e nm k sum) (h63 : k < 63) :
    (e 0).toNat - ((e 0).toNat &&& lastLongEntry) = k + 1 ∧ (e 0).toNat &&& 0x3F = k + 1 ∧
      ((e 0).toNat &&& lastLongEntry ≠ 0 ↔ nm.length ≤ 13 * (k + 1)) := by
  obtain ⟨h0, h1, h2, h3⟩ := ord_bits k h63
  rw [h.ord]
  split_ifs with hle
  · rw [h1, h3, Nat.add_sub_cancel]
    exact ⟨rfl, rfl, fun _ => hle, fun _ => by decide⟩
  · rw [Nat.add_zero, h0, h2, Nat.sub_zero]
    exact ⟨rfl, rfl, fun h => absurd rfl h, fun h => absurd h hle⟩

/-- Only the bytes of the entry matter. -/
theorem IsLfnEntry.congr {e' : DirEntry} (h : IsLfnEntry e nm k sum) (heq : ∀ i < 32, e' i = e i) :
    IsLfnEntry e' nm k sum := by
  refine ⟨by rw [heq 0 (by decide)]; exact h.ord, (heq 11 (by decide)).trans h.attr, (heq 13 (by decide)).trans h.sum, ?_⟩
  rw [← h.words]
  refine List.map_congr_left fun s hs => ldWord_congr fun i hi => heq _ ?_
  have hofs : ∀ s ∈ lfnOfs, s + 2 ≤ 32 := by decide
  have := hofs s hs
  omega

/-- One entry of a name. -/
theorem cmpLfn_iff (lfnbuf : ℕ → ℕ) (hn : IsName nm) (h : IsLfnEntry e nm k sum) (hk : k < lfnCount nm) (h63 : k < 63) :
    cmpLfn lfnbuf e = true ↔ (∀ j, 13 * k ≤ j → j < 13 * (k + 1) → j ≤ nm.length → FitsWord lfnbuf nm j) ∧
      (nm.length = 13 * (k + 1) → lfnbuf nm.length = 0) := by
  obtain ⟨hbits, -, hlast⟩ := h.bits h63
  have hle : 13 * k ≤ nm.length := by
    unfold lfnCount at hk
    omega
  unfold cmpLfn
  simp only [hbits, ord_pos h63, h.words]
  have hloop := cmpLoop_words lfnbuf hn 13 1 (p := 13 * k) ⟨fun _ => hle, fun _ => by decide⟩
  rw [show min (13 * k) (nm.length + 1) = 13 * k by omega] at hloop
  obtain ⟨wc', hres, hwc', hall⟩ | ⟨hres, j, hge, hlt, hj, hnot⟩ := hloop
  · simp only [hres, hlast, hwc', Bool.not_eq_true', decide_eq_false_iff_not, not_and, not_not]
    refine ⟨fun hz => ⟨fun j hge hlt => hall j hge (by omega), fun he => ?_⟩, fun ⟨_, hz⟩ hle' hle'' => ?_⟩
    · have hz' := hz (by omega) (by omega)
      rwa [show min (13 * k + 13) (nm.length + 1) = nm.length by omega] at hz'
    · rw [show min (13 * k + 13) (nm.length + 1) = nm.length by omega]
      exact hz (by omega)
  · simp only [hres]
    exact ⟨fun h => by simp at h, fun ⟨hall, _⟩ => absurd (hall j hge (by omega) hj) hnot⟩

/-- The name in the buffer is this one, up to its capitals. -/
theorem fitsWord_iff (hn : IsName nm) (hn' : IsName nm') (hbuf : HoldsName lfnbuf nm') (hlt : nm.length < maxLfn) :
    (∀ j < nm.length, FitsWord lfnbuf nm j) ∧ lfnbuf nm.length = 0 ↔ nm.map ffWtoupper = nm'.map ffWtoupper := by
  refine ⟨fun ⟨hfit, hend⟩ => ?_, fun hmap => ?_⟩
  · have hlen : nm.length = nm'.length := by
      rcases Nat.lt_trichotomy nm.length nm'.length with h | h | h
      · rw [hbuf _ h.le, hn'.word_eq_zero h.le] at hend
        exact hend
      · exact h
      · have heq := (hfit _ h).2
        rw [hbuf _ le_rfl, nameWord_length, ffWtoupper_zero, hn.upper_eq_zero h.le] at heq
        exact heq.symm
    refine List.ext_getElem (by rw [List.length_map, List.length_map, hlen]) fun j hj hj' => ?_
    rw [List.length_map] at hj hj'
    have heq := (hfit j hj).2
    rw [hbuf j hj'.le, nameWord_of_lt hj, nameWord_of_lt hj'] at heq
    rwa [List.getElem_map, List.getElem_map]
  · have hlen : nm.length = nm'.length := by simpa using congrArg List.length hmap
    refine ⟨fun j hj => ⟨by omega, ?_⟩, ?_⟩
    · have hj' : j < nm'.length := by omega
      rw [hbuf j hj'.le, nameWord_of_lt hj, nameWord_of_lt hj']
      have hget := List.getElem_of_eq hmap (i := j) (by rwa [List.length_map])
      rwa [List.getElem_map, List.getElem_map] at hget
    · rw [hlen, hbuf _ le_rfl, nameWord_length]

/-- **Comparing.** All the entries are those of the name in the buffer, up to its capitals; a name with 255 characters
is not found. -/
theorem cmpLfn_all (hn : IsName nm) (hn' : IsName nm') (hbuf : HoldsName lfnbuf nm') (hpos : 0 < nm.length)
    (hlen : nm.length ≤ maxLfn) {es : ℕ → DirEntry} (hes : ∀ k < lfnCount nm, IsLfnEntry (es k) nm k sum) :
    (∀ k < lfnCount nm, cmpLfn lfnbuf (es k) = true) ↔
      nm.length < maxLfn ∧ nm.map ffWtoupper = nm'.map ffWtoupper := by
  have hcount : lfnCount nm ≤ 20 := by
    unfold lfnCount
    unfold maxLfn at hlen
    omega
  have hiff := fun k hk => cmpLfn_iff lfnbuf hn (hes k hk) hk (by omega)
  have hmax : maxLfn = 255 := rfl
  refine ⟨fun hall => ?_, fun ⟨hlt, hmap⟩ k hk => ?_⟩
  · -- the last position that is looked at is the end of the name, or the one before it
    have hend : nm.length < maxLfn ∧ lfnbuf nm.length = 0 := by
      by_cases hfull : nm.length = 13 * lfnCount nm
      · obtain ⟨k, hk⟩ : ∃ k, lfnCount nm = k + 1 := ⟨lfnCount nm - 1, by omega⟩
        exact ⟨by omega, ((hiff k (by omega)).1 (hall k (by omega))).2 (by omega)⟩
      · have hk : nm.length / 13 < lfnCount nm := by
          unfold lfnCount at hfull ⊢
          omega
        obtain ⟨hlt, heq⟩ := ((hiff _ hk).1 (hall _ hk)).1 nm.length (by omega) (by omega) le_rfl
        rw [nameWord_length, ffWtoupper_zero] at heq
        exact ⟨hlt, ffWtoupper_eq_zero heq.symm⟩
    refine ⟨hend.1, (fitsWord_iff hn hn' hbuf hend.1).1 ⟨fun j hj => ?_, hend.2⟩⟩
    have hk : j / 13 < lfnCount nm := by
      unfold lfnCount
      omega
    exact ((hiff _ hk).1 (hall _ hk)).1 j (by omega) (by omega) hj.le
  · obtain ⟨hfit, hend⟩ := (fitsWord_iff hn hn' hbuf hlt).2 hmap
    refine (hiff k hk).2 ⟨fun j _ _ hj => ?_, fun _ => hend⟩
    rcases Nat.lt_or_eq_of_le hj with hj | rfl
    · exact hfit j hj
    · exact ⟨hlt, by rw [nameWord_length, hend]⟩

/-- **Round trip.** The entries that are written for a name are those of the names that are equal to it up to capitals;
with 255 characters they are those of no name. -/
theorem fitLfn_names {lfnbuf' : ℕ → ℕ} (hn : IsName nm) (hn' : IsName nm') (hbuf : HoldsName lfnbuf nm)
    (hbuf' : HoldsName lfnbuf' nm') (hpos : 0 < nm.length) (hlen : nm.length ≤ maxLfn) (dirs : ℕ → DirEntry) (sum : UInt8) :
    (∀ k < lfnCount nm, cmpLfn lfnbuf' (fitLfn lfnbuf (dirs k) (k + 1) sum) = true) ↔
      nm.length < maxLfn ∧ nm.map ffWtoupper = nm'.map ffWtoupper := by
  have hcount : lfnCount nm ≤ 20 := by
    unfold lfnCount
    unfold maxLfn at hlen
    omega
  have hes : ∀ k < lfnCount nm, IsLfnEntry (fitLfn lfnbuf (dirs k) (k + 1) sum) nm k sum :=
    fun k hk => fitLfn_isLfnEntry hn hbuf hk (by omega) sum
  exact cmpLfn_all hn hn' hbuf' hpos hlen hes

/-- `user manual.txt`, which takes two entries. -/
def manualName : List ℕ := [0x75, 0x73, 0x65, 0x72, 0x20, 0x6D, 0x61, 0x6E, 0x75, 0x61, 0x6C, 0x2E, 0x74, 0x78, 0x74]

/-- It is matched by `User Manual.TXT`, and not by `user manual.tex`, which differs from it in the second entry. -/
theorem fitLfn_names_manual :
    (∀ k < 2, cmpLfn (nameWord [0x55, 0x73, 0x65, 0x72, 0x20, 0x4D, 0x61, 0x6E, 0x75, 0x61, 0x6C, 0x2E, 0x54, 0x58, 0x54])
      (fitLfn (nameWord manualName) (fun _ => 0) (k + 1) 7) = true) ∧
    ¬ ∀ k < 2, cmpLfn (nameWord [0x75, 0x73, 0x65, 0x72, 0x20, 0x6D, 0x61, 0x6E, 0x75, 0x61, 0x6C, 0x2E, 0x74, 0x65, 0x78])
      (fitLfn (nameWord manualName) (fun _ => 0) (k + 1) 7) = true := by
  have hname : IsName manualName := by
    unfold IsName
    decide
  have hiff {nm' : List ℕ} (hn' : IsName nm') := fitLfn_names hname hn' (fun _ _ => rfl) (fun _ _ => rfl) (by decide)
    (by decide) (fun _ _ => 0) 7
  refine ⟨(hiff ?_).2 (by decide), fun hall => ?_⟩
  · unfold IsName
    decide
  · have hsame := (hiff (by unfold IsName; decide)).1 hall
    exact absurd hsame.2 (by decide)

end Compare

/-! ## Reading -/

section Pick

variable {lfnbuf : ℕ → ℕ} {nm : List ℕ} {e : DirEntry} {sum : UInt8} {k p : ℕ}

theorem pickLoop_words (lfnbuf : ℕ → ℕ) (hn : IsName nm) (hlen : nm.length < maxLfn) (n wc : ℕ)
    (hwc : wc ≠ 0 ↔ p ≤ nm.length) :
    ∃ lfnbuf', pickLoop ((List.range' p n).map (nameWord nm)) (min p (nm.length + 1)) wc lfnbuf =
        (some (min (p + n) (nm.length + 1)), lfnbuf') ∧
      (∀ j, p ≤ j → j < p + n → j ≤ nm.length → lfnbuf' j = nameWord nm j) ∧
      ∀ j, j < p ∨ p + n ≤ j → lfnbuf' j = lfnbuf j := by
  induction n generalizing p wc lfnbuf with
  | zero => exact ⟨lfnbuf, rfl, fun j hge hlt => by omega, fun _ _ => rfl⟩
  | succ n ih =>
    rw [List.range'_succ, List.map_cons, pickLoop, show p + (n + 1) = p + 1 + n by omega]
    by_cases hp : p ≤ nm.length
    · have hnext : nameWord nm p ≠ 0 ↔ p + 1 ≤ nm.length := by
        rw [Ne, hn.word_eq_zero hp]
        omega
      rw [if_pos (hwc.2 hp), show min p (nm.length + 1) = p by omega, if_neg (by omega),
        show p + 1 = min (p + 1) (nm.length + 1) by omega]
      obtain ⟨lfnbuf', hres, hin, hout⟩ := ih (Function.update lfnbuf p (nameWord nm p)) _ hnext
      rw [show min (p + 1) (nm.length + 1) = p + 1 by omega] at hres ⊢
      refine ⟨lfnbuf', hres, fun j hge hj hle => ?_, fun j hj => ?_⟩
      · rcases Nat.eq_or_lt_of_le hge with rfl | hgt
        · rw [hout p (by omega), Function.update_self]
        · exact hin j hgt hj hle
      · rw [hout j (by omega), Function.update_of_ne (by omega)]
    · have hz : wc = 0 := not_not.1 fun h => hp (hwc.1 h)
      rw [if_neg (not_not.2 hz), nameWord_of_gt (by omega), if_neg (not_not.2 rfl),
        show min p (nm.length + 1) = min (p + 1) (nm.length + 1) by omega]
      have hnext : wc ≠ 0 ↔ p + 1 ≤ nm.length := by
        rw [hwc]
        omega
      obtain ⟨lfnbuf', hres, -, hout⟩ := ih lfnbuf _ hnext
      exact ⟨lfnbuf', hres, fun j hge _ hle => by omega, fun j hj => hout j (by omega)⟩

/-- **Reading.** The parts are read from the last one on; with 254 characters there is no room for what follows the
end of the name. -/
theorem pickLfn_step (lfnbuf : ℕ → ℕ) (hn : IsName nm) (hlen : nm.length + 1 < maxLfn) (h : IsLfnEntry e nm k sum)
    (hk : k < lfnCount nm)
    (hprev : k + 1 < lfnCount nm → ∀ j ≤ nm.length, 13 * (k + 1) ≤ j → lfnbuf j = nameWord nm j) :
    ∃ lfnbuf', pickLfn lfnbuf e = (true, lfnbuf') ∧ ∀ j ≤ nm.length, 13 * k ≤ j → lfnbuf' j = nameWord nm j := by
  have hmax : maxLfn = 255 := rfl
  have hcount : lfnCount nm ≤ 20 := by
    unfold lfnCount
    omega
  have h63 : k < 63 := by omega
  obtain ⟨-, hbits, hlast⟩ := h.bits h63
  have hle : 13 * k ≤ nm.length := by
    unfold lfnCount at hk
    omega
  obtain ⟨buf, hres, hin, hout⟩ := pickLoop_words lfnbuf hn (by omega) 13 1 (p := 13 * k)
    ⟨fun _ => hle, fun _ => by decide⟩
  rw [show min (13 * k) (nm.length + 1) = 13 * k by omega] at hres
  unfold pickLfn
  simp only [hbits, ord_pos h63, h.words, hres, hlast]
  by_cases hend : nm.length ≤ 13 * (k + 1)
  · rw [if_pos hend, if_neg (by omega)]
    refine ⟨_, rfl, fun j hj hge => ?_⟩
    by_cases hi : j = min (13 * k + 13) (nm.length + 1)
    · obtain rfl : j = nm.length := by omega
      rw [← hi, Function.update_self, nameWord_length]
    · rw [Function.update_of_ne hi]
      exact hin j hge (by omega) hj
  · rw [if_neg hend]
    refine ⟨_, rfl, fun j hj hge => ?_⟩
    by_cases hlt : j < 13 * k + 13
    · exact hin j hge hlt hj
    · rw [hout j (by omega)]
      refine hprev ?_ j hj (by omega)
      unfold lfnCount
      omega

/-- There is no room for a character after the last one of the buffer. -/
theorem pickLoop_overflow (lfnbuf : ℕ → ℕ) (hn : IsName nm) (hlen : maxLfn ≤ nm.length) (n wc : ℕ) (hp : p ≤ maxLfn)
    (hpn : maxLfn < p + n) (hwc : wc ≠ 0) : (pickLoop ((List.range' p n).map (nameWord nm)) p wc lfnbuf).1 = none := by
  induction n generalizing p wc lfnbuf with
  | zero => omega
  | succ n ih =>
    rw [List.range'_succ, List.map_cons, pickLoop, if_pos hwc]
    split_ifs with hge
    · rfl
    · have hword := hn.word_lt (show p < nm.length by omega)
      exact ih _ _ (by omega) (by omega) (by omega)

/-- The last part of a name with 254 or 255 characters is not read. -/
theorem pickLfn_full (lfnbuf : ℕ → ℕ) (hn : IsName nm) (hlen : nm.length ≤ maxLfn) (hfull : maxLfn ≤ nm.length + 1)
    (h : IsLfnEntry e nm k sum) (hk : k + 1 = lfnCount nm) : (pickLfn lfnbuf e).1 = false := by
  have hmax : maxLfn = 255 := rfl
  have hk19 : k = 19 := by
    unfold lfnCount at hk
    omega
  obtain ⟨-, hbits, hlast⟩ := h.bits (by omega)
  unfold pickLfn
  simp only [hbits, ord_pos (show k < 63 by omega), h.words]
  rcases Nat.lt_or_ge nm.length maxLfn with hlt | hge
  · obtain ⟨buf, hres, -⟩ := pickLoop_words lfnbuf hn hlt 13 1 (p := 13 * k)
      ⟨fun _ => by omega, fun _ => by decide⟩
    rw [show min (13 * k) (nm.length + 1) = 13 * k by omega] at hres
    simp only [hres]
    rw [if_pos (hlast.2 (by omega)), if_pos (by omega)]
  · have hres := pickLoop_overflow lfnbuf (p := 13 * k) hn hge 13 1 (by omega) (by omega)
      (by decide)
    rcases hpick : pickLoop ((List.range' (13 * k) 13).map (nameWord nm)) (13 * k) 1 lfnbuf with ⟨r, buf⟩
    rw [hpick] at hres
    dsimp only at hres
    subst hres
    rfl

end Pick

end Miosix
