import MiosixKernel.Fat.Volume

/-!
# The entries of the FAT

An entry has 12, 16 or 32 bits. Two entries of 12 bits share a byte, and one of them may lie across two sectors.

* `getFat`, `putFat`: the code;
* `FATFS.fat`: the entries, as they are seen through the window;
* `FATFS.Keeps`: nothing but the entries is changed;
* **`getFat_shows`**: the entry is read;
* **`putFat_fat`**: the entry is written, and no other one is changed.
-/

namespace Miosix

open Lib

/-! ## The code -/

/-- The first byte of an entry of 12 bits. -/
def firstByte (odd : Prop) [Decidable odd] (b : UInt8) (val : ℕ) : ℕ :=
  if odd then (b.toNat &&& 0x0F) ||| ((val % 2 ^ 8) <<< 4) else val

/-- The second byte of an entry of 12 bits. -/
def secondByte (odd : Prop) [Decidable odd] (b : UInt8) (val : ℕ) : ℕ :=
  if odd then val >>> 4 else (b.toNat &&& 0xF0) ||| ((val >>> 8) &&& 0x0F)

namespace FATFS

/-- `move_window`, and what follows if it succeeds. -/
def inSector {ρ : Type} (fs : FATFS) (sector : ℕ) (fail : FRESULT → ρ) (body : FATFS → ρ × FATFS) : ρ × FATFS :=
  match fs.moveWindow sector with
  | (.FR_OK, fs) => body fs
  | (res, fs) => (fail res, fs)

def getFat (fs : FATFS) (clst : ℕ) : ℕ × FATFS :=
  if clst < 2 ∨ fs.nFatent ≤ clst then (1, fs)
  else
    match fs.fsType with
    | .FS_FAT12 =>
      let bc := clst + clst / 2
      fs.inSector (fs.fatbase + bc / 512) (fun _ => 0xFFFFFFFF) fun fs =>
        let wc := (fs.win (bc % 512)).toNat
        let bc := bc + 1
        fs.inSector (fs.fatbase + bc / 512) (fun _ => 0xFFFFFFFF) fun fs =>
          let wc := (fs.win (bc % 512)).toNat <<< 8 ||| wc
          (if clst % 2 = 1 then wc >>> 4 else wc &&& 0xFFF, fs)
    | .FS_FAT16 =>
      fs.inSector (fs.fatbase + clst / (512 / 2)) (fun _ => 0xFFFFFFFF) fun fs =>
        (ldWord fs.win (clst * 2 % 512), fs)
    | .FS_FAT32 =>
      fs.inSector (fs.fatbase + clst / (512 / 4)) (fun _ => 0xFFFFFFFF) fun fs =>
        (ldDword fs.win (clst * 4 % 512) &&& 0x0FFFFFFF, fs)
    | .notMounted => (0xFFFFFFFF, fs)

/-- A byte of the window is changed. -/
def setByte (fs : FATFS) (i val : ℕ) : FATFS := { fs with win := store fs.win i [UInt8.ofNat val] }

/-- The window is to be written back. -/
def setDirty (fs : FATFS) : FATFS := { fs with wflag := true }

/-- The window is marked as changed also when it could not be moved. -/
def putFat (fs : FATFS) (clst val : ℕ) : FRESULT × FATFS :=
  if clst < 2 ∨ fs.nFatent ≤ clst then (.FR_INT_ERR, fs)
  else
    let (res, fs) : FRESULT × FATFS :=
      match fs.fsType with
      | .FS_FAT12 =>
        let bc := clst + clst / 2
        fs.inSector (fs.fatbase + bc / 512) id fun fs =>
          let p := fs.win (bc % 512)
          let fs := (fs.setByte (bc % 512) (firstByte (clst % 2 = 1) p val)).setDirty
          let bc := bc + 1
          fs.inSector (fs.fatbase + bc / 512) id fun fs =>
            let p := fs.win (bc % 512)
            (.FR_OK, fs.setByte (bc % 512) (secondByte (clst % 2 = 1) p val))
      | .FS_FAT16 =>
        fs.inSector (fs.fatbase + clst / (512 / 2)) id fun fs =>
          (.FR_OK, { fs with win := stWord fs.win (clst * 2 % 512) val })
      | .FS_FAT32 =>
        fs.inSector (fs.fatbase + clst / (512 / 4)) id fun fs =>
          let val := val ||| (ldDword fs.win (clst * 4 % 512) &&& 0xF0000000)
          (.FR_OK, { fs with win := stDword fs.win (clst * 4 % 512) val })
      | .notMounted => (.FR_INT_ERR, fs)
    (res, fs.setDirty)

end FATFS

/-! ## The entries -/

/-- The value of an entry, from the bytes of the volume. -/
def Volume.entry (v : Volume) (mem : ℕ → UInt8) (c : ℕ) : ℕ :=
  match v.fsType with
  | .FS_FAT12 =>
    let w := ldWord mem (512 * v.fatbase + (c + c / 2))
    if c % 2 = 1 then w / 2 ^ 4 else w % 2 ^ 12
  | .FS_FAT16 => ldWord mem (512 * v.fatbase + c * 2)
  | .FS_FAT32 => ldDword mem (512 * v.fatbase + c * 4) % 2 ^ 28
  | .notMounted => 0

section Memory

variable {v : Volume} {mem mem' : ℕ → UInt8} {c c' val a : ℕ}

theorem Volume.entry_congr (hp : v.Placed) (hc : c < v.nFatent)
    (h : ∀ a, v.fatbase ≤ a / 512 → a / 512 < v.fatbase + v.fsize → mem a = mem' a) :
    v.entry mem c = v.entry mem' c := by
  have hsize := hp.entries
  unfold Volume.szbfat at hsize
  unfold Volume.entry
  cases ht : v.fsType <;> simp only [ht] at hsize ⊢
  · rw [ldWord_congr fun i _ => h _ (by omega) (by omega)]
  · exact ldWord_congr fun i _ => h _ (by omega) (by omega)
  · rw [ldDword_congr fun i _ => h _ (by omega) (by omega)]

theorem Volume.entry_lt (hp : v.Placed) : v.entry mem c < v.entryBound := by
  unfold Volume.entry Volume.entryBound
  have h0 (a : ℕ) := (mem a).toNat_lt
  cases ht : v.fsType
  · exact absurd ht hp.mounted
  · simp only [ldWord_eq]
    have := h0 (512 * v.fatbase + (c + c / 2))
    have := h0 (512 * v.fatbase + (c + c / 2) + 1)
    split_ifs <;> omega
  · simp only [ldWord_eq]
    have := h0 (512 * v.fatbase + c * 2)
    have := h0 (512 * v.fatbase + c * 2 + 1)
    omega
  · exact Nat.mod_lt _ (by decide)

/-- A byte with another high half. -/
theorem toNat_low (b : UInt8) (m : ℕ) :
    (UInt8.ofNat ((b.toNat &&& 0x0F) ||| ((m % 2 ^ 8) <<< 4))).toNat = m % 2 ^ 4 * 2 ^ 4 + b.toNat % 2 ^ 4 := by
  have hand : b.toNat &&& 0x0F = b.toNat % 2 ^ 4 := Nat.and_two_pow_sub_one_eq_mod _ 4
  rw [toNat_ofNat, hand, Nat.or_comm, ← Nat.shiftLeft_add_eq_or_of_lt (Nat.mod_lt _ (by decide)), Nat.shiftLeft_eq]
  omega

theorem and_0xF0 : ∀ b < 256, b &&& 0xF0 = (b / 2 ^ 4) <<< 4 := by decide +kernel

/-- A byte with another low half. -/
theorem toNat_high (b : UInt8) (m : ℕ) :
    (UInt8.ofNat ((b.toNat &&& 0xF0) ||| ((m >>> 8) &&& 0x0F))).toNat = b.toNat / 2 ^ 4 * 2 ^ 4 + m / 2 ^ 8 % 2 ^ 4 := by
  have hand : m >>> 8 &&& 0x0F = m / 2 ^ 8 % 2 ^ 4 := by
    rw [Nat.shiftRight_eq_div_pow]
    exact Nat.and_two_pow_sub_one_eq_mod _ 4
  have hb := b.toNat_lt
  rw [toNat_ofNat, hand, and_0xF0 _ hb, ← Nat.shiftLeft_add_eq_or_of_lt (Nat.mod_lt _ (by decide)), Nat.shiftLeft_eq]
  omega

theorem store_singleton {b : UInt8} {x : ℕ} : store mem a [b] x = if x = a then b else mem x := by
  unfold store
  by_cases hx : x = a
  · subst hx
    simp
  · rw [if_neg (by simp only [List.length_singleton]; omega), if_neg hx]

/-- The first byte keeps the other entries. -/
theorem Volume.entry_firstByte (ht : v.fsType = .FS_FAT12) (hne : c' ≠ c) (ha : a = 512 * v.fatbase + (c + c / 2)) :
    v.entry (store mem a [UInt8.ofNat (firstByte (c % 2 = 1) (mem a) val)]) c' = v.entry mem c' := by
  subst ha
  simp only [Volume.entry, ht, ldWord_eq, store_singleton]
  have h0 : 512 * v.fatbase + (c' + c' / 2) ≠ 512 * v.fatbase + (c + c / 2) := by omega
  rw [if_neg h0]
  by_cases hc' : c % 2 = 1 ∧ c' + 1 = c
  · -- the two entries share the byte, and the code keeps its low half
    obtain ⟨hodd, rfl⟩ := hc'
    have e : 512 * v.fatbase + (c' + 1 + (c' + 1) / 2) = 512 * v.fatbase + (c' + c' / 2) + 1 := by omega
    have hb := toNat_low (mem (512 * v.fatbase + (c' + c' / 2) + 1)) val
    have hlt := (mem (512 * v.fatbase + (c' + c' / 2))).toNat_lt
    have heven : ¬ c' % 2 = 1 := by omega
    rw [if_neg heven, if_neg heven, e, if_pos rfl, firstByte, if_pos hodd, hb]
    omega
  · have h1 : 512 * v.fatbase + (c' + c' / 2) + 1 ≠ 512 * v.fatbase + (c + c / 2) := by omega
    rw [if_neg h1]

/-- So does the second byte. -/
theorem Volume.entry_secondByte (ht : v.fsType = .FS_FAT12) (hne : c' ≠ c)
    (ha : a = 512 * v.fatbase + (c + c / 2) + 1) :
    v.entry (store mem a [UInt8.ofNat (secondByte (c % 2 = 1) (mem a) val)]) c' = v.entry mem c' := by
  subst ha
  simp only [Volume.entry, ht, ldWord_eq, store_singleton]
  have h1 : 512 * v.fatbase + (c' + c' / 2) + 1 ≠ 512 * v.fatbase + (c + c / 2) + 1 := by omega
  rw [if_neg h1]
  by_cases hc' : ¬ c % 2 = 1 ∧ c' = c + 1
  · -- the two entries share the byte, and the code keeps its high half
    obtain ⟨heven, rfl⟩ := hc'
    have e : 512 * v.fatbase + (c + 1 + (c + 1) / 2) = 512 * v.fatbase + (c + c / 2) + 1 := by omega
    have hb := toNat_high (mem (512 * v.fatbase + (c + c / 2) + 1)) val
    have hlt := (mem (512 * v.fatbase + (c + c / 2) + 1)).toNat_lt
    have hodd : (c + 1) % 2 = 1 := by omega
    rw [if_pos hodd, if_pos hodd, e, if_pos rfl, secondByte, if_neg heven, hb]
    omega
  · have h0 : 512 * v.fatbase + (c' + c' / 2) ≠ 512 * v.fatbase + (c + c / 2) + 1 := by omega
    rw [if_neg h0]

/-- Both bytes are the entry. -/
theorem Volume.entry_bytes (ht : v.fsType = .FS_FAT12) (ha : a = 512 * v.fatbase + (c + c / 2))
    (hm : mem' = store mem a [UInt8.ofNat (firstByte (c % 2 = 1) (mem a) val)]) :
    v.entry (store mem' (a + 1) [UInt8.ofNat (secondByte (c % 2 = 1) (mem' (a + 1)) val)]) c = val % v.entryBound := by
  subst hm
  have hne : a ≠ a + 1 := by omega
  simp only [Volume.entry, Volume.entryBound, ht, ldWord_eq, ← ha, store_singleton, if_neg hne, if_neg hne.symm, if_true]
  by_cases hodd : c % 2 = 1
  · have hb := toNat_low (mem a) val
    rw [if_pos hodd, firstByte, if_pos hodd, secondByte, if_pos hodd, hb, toNat_ofNat, Nat.shiftRight_eq_div_pow]
    omega
  · have hb := toNat_high (mem (a + 1)) val
    rw [if_neg hodd, firstByte, if_neg hodd, secondByte, if_neg hodd, hb, toNat_ofNat]
    omega

theorem Volume.entry_stWord (ht : v.fsType = .FS_FAT16) :
    v.entry (stWord mem (512 * v.fatbase + c * 2) val) c' = if c' = c then val % v.entryBound else v.entry mem c' := by
  simp only [Volume.entry, Volume.entryBound, ht]
  split_ifs with heq
  · rw [heq, ldWord_stWord]
  · exact ldWord_congr fun i hi => store_outside (by simp only [List.length_cons, List.length_nil]; omega)

/-- The highest four bits of an entry of 32 bits are kept, and not read. -/
theorem Volume.entry_stDword (ht : v.fsType = .FS_FAT32) (old : ℕ) :
    v.entry (stDword mem (512 * v.fatbase + c * 4) (val ||| (old &&& 0xF0000000))) c' =
      if c' = c then val % v.entryBound else v.entry mem c' := by
  simp only [Volume.entry, Volume.entryBound, ht]
  split_ifs with heq
  · have hmod : (0xF0000000 : ℕ) % 2 ^ 28 = 0 := by decide
    rw [heq, ldDword_stDword, Nat.mod_mod_of_dvd _ (by decide), Nat.or_mod_two_pow, Nat.and_mod_two_pow, hmod,
      Nat.and_zero, Nat.or_zero]
  · have heq : ldDword (stDword mem (512 * v.fatbase + c * 4) (val ||| (old &&& 0xF0000000)))
        (512 * v.fatbase + c' * 4) = ldDword mem (512 * v.fatbase + c' * 4) :=
      ldDword_congr fun i hi => store_outside (by simp only [List.length_cons, List.length_nil]; omega)
    exact congrArg (· % 2 ^ 28) heq

end Memory

namespace FATFS

/-- The FAT, as it is seen through the window. -/
def fat (fs : FATFS) (c : ℕ) : ℕ := if 2 ≤ c ∧ c < fs.nFatent then fs.entry fs.seen c else 0

/-- After a step, what is seen outside the FAT is what was seen before it. -/
structure Keeps (fs fs' : FATFS) : Prop where
  valid : fs'.Valid
  vol : fs'.toVolume = fs.toVolume
  later : fs.drv.Later fs'.drv
  mirrored : fs.drv.faults = [] → fs.Mirrored → fs'.Mirrored
  seen : ∀ a, fs.Plain (a / 512) → a / 512 < fs.fatbase ∨ fs.fatbase + fs.fsize ≤ a / 512 → fs'.seen a = fs.seen a

variable {fs fs' fs'' : FATFS} {res : FRESULT} {c c' v val s i : ℕ}

theorem Keeps.faults (h : Keeps fs fs') (hf : fs.drv.faults = []) : fs'.drv.faults = [] := h.later.nil hf

theorem Keeps.trans (h : Keeps fs fs') (h' : Keeps fs' fs'') : Keeps fs fs'' where
  valid := h'.valid
  vol := h'.vol.trans h.vol
  later := h.later.trans h'.later
  mirrored := fun hf hm => h'.mirrored (h.faults hf) (h.mirrored hf hm)
  seen := fun a ha ho => by
    rw [← h.vol] at ha ho
    rw [h'.seen a ha ho]
    rw [h.vol] at ha ho
    exact h.seen a ha ho

theorem Shows.keeps (h : Shows fs fs') : Keeps fs fs' := ⟨h.valid, h.vol, h.later, h.mirrored, fun a ha _ => h.seen a ha⟩

/-! ## The sectors of the FAT -/

/-- The sectors of the first copy of the FAT are seen. -/
theorem plain_of_fat (h : fs.Placed) (hge : fs.fatbase ≤ s) (hlt : s < fs.fatbase + fs.fsize) :
    fs.Plain s ∧ ¬ fs.InCopy s ∧ s < 2 ^ 32 := by
  have hc : ¬ fs.InCopy s := fun hc => by have := hc.1; omega
  have hle : fs.fsize ≤ fs.nFats * fs.fsize := Nat.le_mul_of_pos_left _ h.fats
  have hdb := h.database
  have hfat := h.fat
  refine ⟨⟨hc, fun hty => ?_⟩, hc, by omega⟩
  have := h.fsinfo hty
  omega

/-- A byte of the sector in the window. -/
theorem win_eq_seen (hs : fs.winsect = s) (hi : i < 512) : fs.win i = fs.seen (512 * s + i) := by
  rw [seen_of_eq (by omega)]
  congr 1
  omega

/-- The window is changed, and then it is to be written back. -/
theorem seen_store (hs : fs.winsect = s) {bs : List UInt8} (hi : i + bs.length ≤ 512) :
    seen { fs with win := store fs.win i bs, wflag := true } = store fs.seen (512 * s + i) bs := by
  subst hs
  exact store_overlay hi

theorem Valid.dirty (h : fs.Valid) (win : ℕ → UInt8) : Valid { fs with win := win, wflag := true } :=
  ⟨⟨h.placed, h.lt, h.copy, fun hw => by simp at hw⟩, h.tidy⟩

theorem inSector_cases {ρ : Type} {fail : FRESULT → ρ} {body : FATFS → ρ × FATFS} {r : ρ} (h : fs.Valid)
    (hs : s < fs.fsize) (hres : fs.inSector (fs.fatbase + s) fail body = (r, fs')) :
    (∃ fs₁, fs.Shows fs₁ ∧ fs₁.winsect = fs.fatbase + s ∧ body fs₁ = (r, fs')) ∨
    (r = fail .FR_DISK_ERR ∧ fs.Shows fs' ∧ fs.drv.Failed fs'.drv) := by
  obtain ⟨-, hc, hlt⟩ := plain_of_fat h.placed (Nat.le_add_right fs.fatbase s) (by omega)
  unfold inSector at hres
  rcases hmove : fs.moveWindow (fs.fatbase + s) with ⟨res, fs₁⟩
  obtain ⟨hshow, ⟨rfl, hw⟩ | ⟨rfl, hf⟩⟩ := moveWindow_shows h hc hlt hmove
  · rw [hmove] at hres
    exact .inl ⟨fs₁, hshow, hw, hres⟩
  · rw [hmove] at hres
    obtain ⟨rfl, rfl⟩ := Prod.mk.inj hres
    exact .inr ⟨rfl, hshow, hf⟩

/-- The bytes of an entry of 12 bits lie in the FAT. -/
theorem fat12_lt (h : fs.Placed) (ht : fs.fsType = .FS_FAT12) (hc : c < fs.nFatent) :
    (c + c / 2) / 512 < fs.fsize ∧ (c + c / 2 + 1) / 512 < fs.fsize := by
  have := h.entries
  simp only [Volume.szbfat, ht] at this
  omega

theorem fat16_lt (h : fs.Placed) (ht : fs.fsType = .FS_FAT16) (hc : c < fs.nFatent) : c / (512 / 2) < fs.fsize := by
  have := h.entries
  simp only [Volume.szbfat, ht] at this
  omega

theorem fat32_lt (h : fs.Placed) (ht : fs.fsType = .FS_FAT32) (hc : c < fs.nFatent) : c / (512 / 4) < fs.fsize := by
  have := h.entries
  simp only [Volume.szbfat, ht] at this
  omega

/-! ## Reading -/

/-- A byte of the FAT, in the window. -/
theorem win_fat {bc : ℕ} {mem : ℕ → UInt8} (hseen : ∀ a, fs.Plain (a / 512) → fs'.seen a = mem a)
    (hp : fs.Placed) (hs : bc / 512 < fs.fsize) (hw : fs'.winsect = fs.fatbase + bc / 512) :
    fs'.win (bc % 512) = mem (512 * fs.fatbase + bc) := by
  have hsect : (512 * fs.fatbase + bc) / 512 = fs.fatbase + bc / 512 := by omega
  have hplain := (plain_of_fat hp (Nat.le_add_right fs.fatbase (bc / 512)) (by omega)).1
  rw [← hseen _ (hsect ▸ hplain), win_eq_seen hw (Nat.mod_lt _ (by decide))]
  congr 1
  omega

/-- A number of the FAT that lies in one sector, in the window. -/
theorem win_fat_add {bc n : ℕ} (h : fs.Shows fs') (hp : fs.Placed) (hs : bc / 512 < fs.fsize)
    (hw : fs'.winsect = fs.fatbase + bc / 512) (hn : bc % 512 + n ≤ 512) :
    ∀ i < n, fs'.win (bc % 512 + i) = fs.seen (512 * fs.fatbase + bc + i) := by
  intro i hi
  have hdiv : (bc + i) / 512 = bc / 512 := by omega
  have hmod : (bc + i) % 512 = bc % 512 + i := by omega
  rw [← hmod, Nat.add_assoc]
  exact win_fat h.seen hp (by omega) (by rw [hw, hdiv])

theorem fat_eq (hc : 2 ≤ c) (hlt : c < fs.nFatent) : fs.fat c = fs.entry fs.seen c := if_pos ⟨hc, hlt⟩

/-- **Reading.** The entry is returned, or a transfer failed. -/
theorem getFat_shows (h : fs.Valid) (hc : 2 ≤ c) (hlt : c < fs.nFatent) (hres : fs.getFat c = (v, fs')) :
    fs.Shows fs' ∧ (v = fs.fat c ∨ v = 0xFFFFFFFF ∧ fs.drv.Failed fs'.drv) := by
  rw [fat_eq hc hlt]
  unfold getFat at hres
  rw [if_neg (by omega)] at hres
  unfold Volume.entry
  cases ht : fs.fsType with
  | notMounted => exact absurd ht h.placed.mounted
  | FS_FAT12 =>
    simp only [ht] at hres
    obtain ⟨hs, hs'⟩ := fat12_lt h.placed ht hlt
    obtain ⟨fs₁, hshow, hw, hres⟩ | ⟨rfl, hshow, hf⟩ := inSector_cases h hs hres
    · have hbyte := win_fat hshow.seen h.placed hs hw
      rw [← hshow.vol] at hs'
      obtain ⟨fs₂, hshow', hw', hres⟩ | ⟨rfl, hshow', hf⟩ := inSector_cases hshow.valid hs' hres
      · have hbyte' := win_fat (hshow.trans hshow').seen h.placed (by rwa [hshow.vol] at hs') (by rw [hw', hshow.vol])
        obtain ⟨rfl, rfl⟩ := Prod.mk.inj hres
        refine ⟨hshow.trans hshow', .inl ?_⟩
        rw [hbyte, hbyte', ldWord, ← Nat.add_assoc]
        split_ifs
        · rw [Nat.shiftRight_eq_div_pow]
        · exact Nat.and_two_pow_sub_one_eq_mod _ 12
      · exact ⟨hshow.trans hshow', .inr ⟨rfl, hshow.later.failed hf⟩⟩
    · exact ⟨hshow, .inr ⟨rfl, hf⟩⟩
  | FS_FAT16 =>
    simp only [ht] at hres
    have hs := fat16_lt h.placed ht hlt
    obtain ⟨fs₁, hshow, hw, hres⟩ | ⟨rfl, hshow, hf⟩ := inSector_cases h hs hres
    · obtain ⟨rfl, rfl⟩ := Prod.mk.inj hres
      have hbytes : ∀ i < 2, fs₁.win (c * 2 % 512 + i) = fs.seen (512 * fs.fatbase + c * 2 + i) :=
        win_fat_add hshow h.placed (by omega) (by rw [hw]; omega) (by omega)
      exact ⟨hshow, .inl (ldWord_congr hbytes)⟩
    · exact ⟨hshow, .inr ⟨rfl, hf⟩⟩
  | FS_FAT32 =>
    simp only [ht] at hres
    have hs := fat32_lt h.placed ht hlt
    obtain ⟨fs₁, hshow, hw, hres⟩ | ⟨rfl, hshow, hf⟩ := inSector_cases h hs hres
    · obtain ⟨rfl, rfl⟩ := Prod.mk.inj hres
      have hbytes : ∀ i < 4, fs₁.win (c * 4 % 512 + i) = fs.seen (512 * fs.fatbase + c * 4 + i) :=
        win_fat_add hshow h.placed (by omega) (by rw [hw]; omega) (by omega)
      refine ⟨hshow, .inl ?_⟩
      rw [← ldDword_congr hbytes]
      exact Nat.and_two_pow_sub_one_eq_mod _ 28
    · exact ⟨hshow, .inr ⟨rfl, hf⟩⟩

/-! ## Writing -/

theorem Shows.setDirty (h : fs.Shows fs') : fs.Shows fs'.setDirty :=
  ⟨h.valid.dirty _, h.vol, h.last, h.free, h.later, fun hf hm => (h.mirrored hf hm).dirty _, h.seen⟩

/-- Bytes are changed in the window. -/
def patch (fs : FATFS) (i : ℕ) (bs : List UInt8) : FATFS := { fs with win := store fs.win i bs, wflag := true }

theorem Keeps.patch (bc : ℕ) (bs : List UInt8) {mem : ℕ → UInt8} (h : fs.Keeps fs')
    (hseen : ∀ a, fs.Plain (a / 512) → fs'.seen a = mem a) (hw : fs'.winsect = fs.fatbase + bc / 512)
    (hs : bc / 512 < fs.fsize) (hn : bc % 512 + bs.length ≤ 512) :
    fs.Keeps (fs'.patch (bc % 512) bs) ∧
      ∀ a, fs.Plain (a / 512) → (fs'.patch (bc % 512) bs).seen a = store mem (512 * fs.fatbase + bc) bs a := by
  have haddr : 512 * (fs.fatbase + bc / 512) + bc % 512 = 512 * fs.fatbase + bc := by omega
  have hstore : (fs'.patch (bc % 512) bs).seen = store fs'.seen (512 * fs.fatbase + bc) bs := by
    rw [← haddr]
    exact seen_store hw hn
  refine ⟨⟨h.valid.dirty _, h.vol, h.later, fun hf hm => (h.mirrored hf hm).dirty _, fun a ha ho => ?_⟩,
    fun a ha => ?_⟩
  · rw [hstore, store_outside (by omega)]
    exact h.seen a ha ho
  · rw [hstore]
    unfold store
    split_ifs
    · rfl
    · exact hseen a ha

theorem Keeps.fat_eq {mem : ℕ → UInt8} (h : fs.Keeps fs') (hp : fs.Placed)
    (hseen : ∀ a, fs.Plain (a / 512) → fs'.seen a = mem a) :
    fs'.fat c = if 2 ≤ c ∧ c < fs.nFatent then fs.entry mem c else 0 := by
  unfold FATFS.fat
  rw [h.vol]
  split_ifs with hc
  · exact Volume.entry_congr hp hc.2 fun a hge hlt => hseen a (plain_of_fat hp hge hlt).1
  · rfl

theorem fat_lt (hp : fs.Placed) : fs.fat c < 2 ^ 28 := by
  have hle : fs.entryBound ≤ 2 ^ 28 := by unfold Volume.entryBound; split <;> decide
  unfold FATFS.fat
  split_ifs
  · exact lt_of_lt_of_le (Volume.entry_lt hp) hle
  · decide

theorem Shows.fat (h : fs.Shows fs') (hp : fs.Placed) : fs'.fat = fs.fat := by
  funext c
  exact h.keeps.fat_eq hp h.seen

/-- What a call of `putFat` does: the entry is written, or a transfer failed, and then no other entry is changed. -/
structure Put (fs fs' : FATFS) (c val : ℕ) (res : FRESULT) : Prop where
  keeps : fs.Keeps fs'
  last : fs'.lastClust = fs.lastClust
  free : fs'.freeClust = fs.freeClust
  other : ∀ c' ≠ c, fs'.fat c' = fs.fat c'
  entry : res = .FR_OK ∧ fs'.fat c = val % fs.entryBound ∨
    res = .FR_DISK_ERR ∧ fs.drv.faults ≠ [] ∧ (fs.fsType ≠ .FS_FAT12 → fs'.fat c = fs.fat c)

/-- Nothing was written. -/
theorem Shows.put (h : fs.Shows fs') (hp : fs.Placed) (hf : fs.drv.faults ≠ []) :
    fs.Put fs'.setDirty c val .FR_DISK_ERR :=
  ⟨h.setDirty.keeps, h.last, h.free, fun _ _ => congrFun (h.setDirty.fat hp) _,
    .inr ⟨rfl, hf, fun _ => congrFun (h.setDirty.fat hp) _⟩⟩

theorem Put.cases (h : fs.Put fs' c val res) :
    (res = .FR_OK ∧ fs'.fat = Function.update fs.fat c (val % fs.entryBound)) ∨
    (res = .FR_DISK_ERR ∧ fs.drv.faults ≠ [] ∧ (fs.fsType ≠ .FS_FAT12 → fs'.fat = fs.fat)) := by
  obtain ⟨hres, hval⟩ | ⟨hres, hf, hval⟩ := h.entry
  · refine .inl ⟨hres, funext fun c' => ?_⟩
    by_cases heq : c' = c
    · rw [heq, hval, Function.update_self]
    · rw [Function.update_of_ne heq, h.other c' heq]
  · refine .inr ⟨hres, hf, fun hty => funext fun c' => ?_⟩
    by_cases heq : c' = c
    · rw [heq, hval hty]
    · exact h.other c' heq

/-- The bytes of the FAT were changed so that one entry is another one. -/
theorem Put.of_entry {mem : ℕ → UInt8} (hkeep : fs.Keeps fs') (hp : fs.Placed) (hc : 2 ≤ c) (hlt : c < fs.nFatent)
    (hlast : fs'.lastClust = fs.lastClust) (hfree : fs'.freeClust = fs.freeClust)
    (hseen : ∀ a, fs.Plain (a / 512) → fs'.seen a = mem a) (hval : fs.entry mem c = val % fs.entryBound)
    (hother : ∀ c' ≠ c, fs.entry mem c' = fs.entry fs.seen c') : fs.Put fs' c val .FR_OK := by
  refine ⟨hkeep, hlast, hfree, fun c' hne => ?_, .inl ⟨rfl, ?_⟩⟩
  · rw [hkeep.fat_eq hp hseen, hother c' hne]
    rfl
  · rw [hkeep.fat_eq hp hseen, if_pos ⟨hc, hlt⟩, hval]

/-- **Writing.** The entry is written and no other one is changed, or a transfer failed. -/
theorem putFat_shows (h : fs.Valid) (hc : 2 ≤ c) (hlt : c < fs.nFatent) (hres : fs.putFat c val = (res, fs')) :
    fs.Put fs' c val res := by
  have hp := h.placed
  unfold putFat at hres
  rw [if_neg (by omega)] at hres
  cases ht : fs.fsType with
  | notMounted => exact absurd ht hp.mounted
  | FS_FAT12 =>
    simp only [ht] at hres
    obtain ⟨hs, hs'⟩ := fat12_lt hp ht hlt
    generalize hin : fs.inSector (fs.fatbase + (c + c / 2) / 512) id _ = r at hres
    obtain ⟨rfl, rfl⟩ := Prod.mk.inj hres
    obtain ⟨fs₂, hshow, hw, hin⟩ | ⟨hr, hshow, hf⟩ := inSector_cases h hs hin
    · rw [win_fat hshow.seen hp hs hw] at hin
      obtain ⟨hkeep, hseen⟩ := hshow.keeps.patch (c + c / 2)
        [UInt8.ofNat (firstByte (c % 2 = 1) (fs.seen (512 * fs.fatbase + (c + c / 2))) val)] hshow.seen hw hs
        (by simp only [List.length_singleton]; omega)
      have hvol := hkeep.vol
      obtain ⟨fs₄, hshow', hw', hin⟩ | ⟨hr, hshow', hf⟩ := inSector_cases hkeep.valid (by rwa [hvol]) hin
      · rw [hvol] at hw'
        have hseen' : ∀ a, fs.Plain (a / 512) → fs₄.seen a = _ :=
          fun a ha => (hshow'.seen a (by rwa [hvol])).trans (hseen a ha)
        obtain ⟨hkeep', hseen₂⟩ := (hkeep.trans hshow'.keeps).patch (c + c / 2 + 1)
          [UInt8.ofNat (secondByte (c % 2 = 1) (fs₄.win ((c + c / 2 + 1) % 512)) val)] hseen' hw' hs'
          (by simp only [List.length_singleton]; omega)
        have haddr := Nat.add_assoc (512 * fs.fatbase) (c + c / 2) 1
        rw [win_fat hseen' hp hs' hw'] at hin hkeep' hseen₂
        rw [← haddr] at hin hkeep' hseen₂
        obtain ⟨hr₁, hr₂⟩ := Prod.mk.inj hin
        rw [← hr₁, ← hr₂]
        refine Put.of_entry hkeep' hp hc hlt (hshow'.last.trans hshow.last) (hshow'.free.trans hshow.free) hseen₂ ?_
          fun c' hne => ?_
        · exact Volume.entry_bytes ht rfl rfl
        · rw [Volume.entry_secondByte ht hne rfl]
          exact Volume.entry_firstByte ht hne rfl
      · rw [hr]
        refine ⟨hkeep.trans hshow'.setDirty.keeps, hshow'.last.trans hshow.last, hshow'.free.trans hshow.free,
          fun c' hne => ?_, .inr ⟨rfl, (hkeep.later.failed hf).ne_nil, fun hne => absurd ht hne⟩⟩
        have hseen' : ∀ a, fs.Plain (a / 512) → r.2.setDirty.seen a = _ :=
          fun a ha => (hshow'.setDirty.seen a (by rwa [hvol])).trans (hseen a ha)
        rw [(hkeep.trans hshow'.setDirty.keeps).fat_eq hp hseen', Volume.entry_firstByte ht hne rfl]
        rfl
    · rw [hr]
      exact hshow.put hp hf.ne_nil
  | FS_FAT16 =>
    simp only [ht] at hres
    have hs := fat16_lt hp ht hlt
    rcases hin : fs.inSector (fs.fatbase + c / (512 / 2)) id
      (fun fs => (.FR_OK, { fs with win := stWord fs.win (c * 2 % 512) val })) with ⟨res₁, fs₁⟩
    simp only [hin] at hres
    obtain ⟨rfl, rfl⟩ := Prod.mk.inj hres
    obtain ⟨fs₂, hshow, hw, hres⟩ | ⟨rfl, hshow, hf⟩ := inSector_cases h hs hin
    · obtain ⟨rfl, rfl⟩ := Prod.mk.inj hres
      obtain ⟨hkeep, hseen⟩ := hshow.keeps.patch (c * 2)
        [UInt8.ofNat val, UInt8.ofNat ((val % 2 ^ 16) >>> 8)] hshow.seen (by rw [hw]; omega) (by omega)
        (by simp only [List.length_cons, List.length_nil]; omega)
      refine Put.of_entry hkeep hp hc hlt hshow.last hshow.free hseen ?_ fun c' hne => ?_
      · exact (Volume.entry_stWord ht).trans (if_pos rfl)
      · exact (Volume.entry_stWord ht).trans (if_neg hne)
    · exact hshow.put hp hf.ne_nil
  | FS_FAT32 =>
    simp only [ht] at hres
    have hs := fat32_lt hp ht hlt
    rcases hin : fs.inSector (fs.fatbase + c / (512 / 4)) id
      (fun fs => (.FR_OK, { fs with
        win := stDword fs.win (c * 4 % 512) (val ||| (ldDword fs.win (c * 4 % 512) &&& 0xF0000000)) })) with ⟨res₁, fs₁⟩
    simp only [hin] at hres
    obtain ⟨rfl, rfl⟩ := Prod.mk.inj hres
    obtain ⟨fs₂, hshow, hw, hres⟩ | ⟨rfl, hshow, hf⟩ := inSector_cases h hs hin
    · obtain ⟨rfl, rfl⟩ := Prod.mk.inj hres
      obtain ⟨hkeep, hseen⟩ := hshow.keeps.patch (c * 4) [_, _, _, _] hshow.seen (by rw [hw]; omega)
        (by omega) (by simp only [List.length_cons, List.length_nil]; omega)
      refine Put.of_entry hkeep hp hc hlt hshow.last hshow.free hseen ?_ fun c' hne => ?_
      · exact (Volume.entry_stDword ht _).trans (if_pos rfl)
      · exact (Volume.entry_stDword ht _).trans (if_neg hne)
    · exact hshow.put hp hf.ne_nil

/-! ## Where the window is -/

/-- The window has not moved, or it has moved to the FAT. -/
structure Near (fs fs' : FATFS) : Prop where
  vol : fs'.toVolume = fs.toVolume
  window : fs'.winsect = fs.winsect ∨ fs.InFat fs'.winsect

theorem Near.refl (fs : FATFS) : fs.Near fs := ⟨rfl, .inl rfl⟩

theorem Near.trans (h : fs.Near fs') (h' : fs'.Near fs'') : fs.Near fs'' := by
  refine ⟨h'.vol.trans h.vol, ?_⟩
  obtain hw | hw := h'.window
  · rw [hw]
    exact h.window
  · rw [h.vol] at hw
    exact .inr hw

theorem near_syncWindow : fs.Near fs.syncWindow.2 := by
  unfold syncWindow
  by_cases hw : fs.wflag = true
  · rw [if_pos hw]
    dsimp only
    split
    · exact ⟨rfl, .inl rfl⟩
    · exact ⟨rfl, .inl rfl⟩
  · rw [if_neg hw]
    exact Near.refl fs

theorem near_moveWindow (hs : fs.InFat s) : fs.Near (fs.moveWindow s).2 := by
  have hsync := fs.near_syncWindow
  unfold moveWindow
  by_cases hne : s ≠ fs.winsect
  · rw [if_pos hne]
    rcases hres : fs.syncWindow with ⟨res, fs₁⟩
    rw [hres] at hsync
    cases res with
    | FR_OK =>
      dsimp only
      split
      · exact ⟨hsync.vol, .inr hs⟩
      · exact ⟨hsync.vol, hsync.window⟩
    | _ => exact hsync
  · rw [if_neg hne]
    exact Near.refl fs

theorem near_inSector {ρ : Type} {fail : FRESULT → ρ} {body : FATFS → ρ × FATFS} (hs : s < fs.fsize)
    (hbody : ∀ fs₁, fs.Near fs₁ → fs.Near (body fs₁).2) : fs.Near (fs.inSector (fs.fatbase + s) fail body).2 := by
  have hmove : fs.Near (fs.moveWindow (fs.fatbase + s)).2 := near_moveWindow ⟨by omega, by omega⟩
  unfold inSector
  rcases hres : fs.moveWindow (fs.fatbase + s) with ⟨res, fs₁⟩
  rw [hres] at hmove
  cases res with
  | FR_OK => exact hbody fs₁ hmove
  | _ => exact hmove

theorem near_getFat (hp : fs.Placed) : fs.Near (fs.getFat c).2 := by
  unfold getFat
  by_cases hc : c < 2 ∨ fs.nFatent ≤ c
  · rw [if_pos hc]
    exact Near.refl fs
  rw [if_neg hc]
  cases ht : fs.fsType with
  | notMounted => exact Near.refl fs
  | FS_FAT12 =>
    obtain ⟨hs, hs'⟩ := fat12_lt (c := c) hp ht (by omega)
    refine near_inSector hs fun fs₁ h => ?_
    rw [← h.vol] at hs'
    exact h.trans (near_inSector hs' fun _ => id)
  | FS_FAT16 => exact near_inSector (fat16_lt hp ht (by omega)) fun _ => id
  | FS_FAT32 => exact near_inSector (fat32_lt hp ht (by omega)) fun _ => id

theorem near_putFat (hp : fs.Placed) : fs.Near (fs.putFat c val).2 := by
  unfold putFat
  by_cases hc : c < 2 ∨ fs.nFatent ≤ c
  · rw [if_pos hc]
    exact Near.refl fs
  rw [if_neg hc]
  cases ht : fs.fsType with
  | notMounted => exact ⟨rfl, .inl rfl⟩
  | FS_FAT12 =>
    obtain ⟨hs, hs'⟩ := fat12_lt (c := c) hp ht (by omega)
    refine (near_inSector hs fun fs₁ h => ?_).trans ⟨rfl, .inl rfl⟩
    rw [← h.vol] at hs'
    have hpatch : fs.Near (fs₁.setByte ((c + c / 2) % 512)
      (firstByte (c % 2 = 1) (fs₁.win ((c + c / 2) % 512)) val)).setDirty := ⟨h.vol, h.window⟩
    exact hpatch.trans (near_inSector hs' fun fs₂ h₂ => ⟨h₂.vol, h₂.window⟩)
  | FS_FAT16 =>
    exact (near_inSector (fat16_lt hp ht (by omega)) fun fs₁ h => ⟨h.vol, h.window⟩).trans ⟨rfl, .inl rfl⟩
  | FS_FAT32 =>
    exact (near_inSector (fat32_lt hp ht (by omega)) fun fs₁ h => ⟨h.vol, h.window⟩).trans ⟨rfl, .inl rfl⟩

/-! ## Reading what was written -/

/-- What a body does in the sector that it asks for does not depend on what a failing read leaves in the window. -/
theorem inSector_tidied {ρ : Type} {fail : FRESULT → ρ} {body : FATFS → ρ × FATFS} {r : ρ}
    (hr : ∀ res, res ≠ .FR_OK → fail res ≠ r)
    (hbody : ∀ fs₁, body fs₁ = (r, fs') → body fs₁.tidied = (r, fs'.tidied))
    (h : fs.inSector s fail body = (r, fs')) : fs.tidied.inSector s fail body = (r, fs'.tidied) := by
  unfold inSector at h ⊢
  rcases hmove : fs.moveWindow s with ⟨res, fs₁⟩
  rw [hmove] at h
  cases res with
  | FR_OK =>
    rw [moveWindow_tidied hmove]
    exact hbody fs₁ h
  | _ => exact absurd (congrArg Prod.fst h) (hr _ (by decide))

/-- An entry that is read. -/
theorem getFat_tidied (h : fs.getFat c = (v, fs')) (hv : v ≠ 0xFFFFFFFF) : fs.tidied.getFat c = (v, fs'.tidied) := by
  have hr : ∀ res, res ≠ FRESULT.FR_OK → 0xFFFFFFFF ≠ v := fun _ _ => hv.symm
  unfold getFat at h ⊢
  by_cases hc : c < 2 ∨ fs.nFatent ≤ c
  · rw [if_pos hc] at h
    obtain ⟨rfl, rfl⟩ := Prod.mk.inj h
    exact if_pos hc
  rw [if_neg hc] at h
  rw [if_neg (show ¬ (c < 2 ∨ fs.tidied.nFatent ≤ c) from hc)]
  have hty : fs.tidied.fsType = fs.fsType := rfl
  rw [hty]
  cases ht : fs.fsType with
  | notMounted =>
    rw [ht] at h
    exact absurd (Prod.mk.inj h).1.symm hv
  | FS_FAT12 =>
    rw [ht] at h
    refine inSector_tidied hr (fun fs₁ h₁ => inSector_tidied hr (fun fs₂ h₂ => ?_) h₁) h
    obtain ⟨rfl, rfl⟩ := Prod.mk.inj h₂
    rfl
  | FS_FAT16 =>
    rw [ht] at h
    refine inSector_tidied hr (fun fs₁ h₁ => ?_) h
    obtain ⟨rfl, rfl⟩ := Prod.mk.inj h₁
    rfl
  | FS_FAT32 =>
    rw [ht] at h
    refine inSector_tidied hr (fun fs₁ h₁ => ?_) h
    obtain ⟨rfl, rfl⟩ := Prod.mk.inj h₁
    rfl

/-- An entry that is written. -/
theorem putFat_tidied (h : fs.putFat c val = (.FR_OK, fs')) : fs.tidied.putFat c val = (.FR_OK, fs'.tidied) := by
  have hr : ∀ res, res ≠ FRESULT.FR_OK → id res ≠ FRESULT.FR_OK := fun _ => id
  unfold putFat at h ⊢
  by_cases hc : c < 2 ∨ fs.nFatent ≤ c
  · rw [if_pos hc] at h
    cases h
  rw [if_neg hc] at h
  rw [if_neg (show ¬ (c < 2 ∨ fs.tidied.nFatent ≤ c) from hc)]
  have hty : fs.tidied.fsType = fs.fsType := rfl
  have hin {s : ℕ} {body : FATFS → FRESULT × FATFS}
      (hbody : ∀ fs₁ fs₂, body fs₁ = (.FR_OK, fs₂) → body fs₁.tidied = (.FR_OK, fs₂.tidied))
      (h : ((fs.inSector s id body).1, (fs.inSector s id body).2.setDirty) = (.FR_OK, fs')) :
      ((fs.tidied.inSector s id body).1, (fs.tidied.inSector s id body).2.setDirty) = (.FR_OK, fs'.tidied) := by
    obtain ⟨hres, rfl⟩ := Prod.mk.inj h
    rw [inSector_tidied hr (fun fs₁ => hbody fs₁ _) (Prod.ext hres rfl)]
    rfl
  rw [hty]
  cases ht : fs.fsType with
  | notMounted =>
    rw [ht] at h
    cases h
  | FS_FAT12 =>
    rw [ht] at h
    refine hin (fun fs₁ fs₂ h₁ => inSector_tidied hr (fun fs₃ h₃ => ?_) h₁) h
    obtain ⟨-, rfl⟩ := Prod.mk.inj h₃
    rfl
  | FS_FAT16 =>
    rw [ht] at h
    refine hin (fun fs₁ fs₂ h₁ => ?_) h
    obtain ⟨-, rfl⟩ := Prod.mk.inj h₁
    rfl
  | FS_FAT32 =>
    rw [ht] at h
    refine hin (fun fs₁ fs₂ h₁ => ?_) h
    obtain ⟨-, rfl⟩ := Prod.mk.inj h₁
    rfl

/-- **Writing and reading.** For every pattern of failing transfers, and whatever they leave in the window: what
`getFat` returns after an entry was written is that entry, and every other entry as it was. -/
theorem getFat_putFat {fs'' : FATFS} (h : fs.Coherent) (hc : 2 ≤ c) (hlt : c < fs.nFatent) (hc' : 2 ≤ c')
    (hlt' : c' < fs.nFatent) (hput : fs.putFat c val = (.FR_OK, fs')) (hget : fs'.getFat c' = (v, fs''))
    (hv : v ≠ 0xFFFFFFFF) : v = if c' = c then val % fs.entryBound else fs.fat c' := by
  have hput' := putFat_shows h.tidied hc hlt (putFat_tidied hput)
  have hlt₂ : c' < fs'.tidied.nFatent := by rwa [hput'.keeps.vol]
  obtain ⟨-, rfl | ⟨rfl, -⟩⟩ := getFat_shows hput'.keeps.valid hc' hlt₂ (getFat_tidied hget hv)
  · split_ifs with heq
    · obtain ⟨-, hval⟩ | ⟨hres, -⟩ := hput'.entry
      · rw [heq, hval]
        rfl
      · cases hres
    · exact hput'.other c' heq
  · exact absurd rfl hv

/-- A volume with six entries of 16 bits, and two copies of the FAT. -/
def smallVolume : Volume := ⟨.FS_FAT16, 1, 2, 6, 1, 0, 1, 8⟩

theorem smallVolume_placed : smallVolume.Placed where
  mounted := by decide
  clusters := by decide
  entries := by decide
  last := by decide
  fats := by decide
  fsinfo := by decide
  fat := by decide
  database := by decide

theorem getFat_putFat_small :
    (((blank smallVolume).putFat 2 0xABCD).2.getFat 2).1 = 0xABCD % smallVolume.entryBound := by
  have hput : (blank smallVolume).putFat 2 0xABCD = (.FR_OK, ((blank smallVolume).putFat 2 0xABCD).2) :=
    Prod.ext (by decide) rfl
  exact getFat_putFat (blank_valid smallVolume_placed (by decide)).toCoherent (by decide) (by decide) (Nat.le_refl 2) (by decide)
    hput rfl (by decide)

theorem fat_blank (v : Volume) (c : ℕ) : (blank v).fat c = 0 := by
  have hseen : (blank v).seen = fun _ => 0 := overlay_window fun _ _ => rfl
  have hword (a : ℕ) : ldWord (fun _ => 0) a = 0 := by simp [ldWord]
  have hdword (a : ℕ) : ldDword (fun _ => 0) a = 0 := by simp [ldDword]
  have hentry : (blank v).entry (fun _ => 0) c = 0 := by
    unfold Volume.entry
    cases (blank v).fsType <;> simp [hword, hdword]
  rw [fat, hseen, hentry, ite_self]

end FATFS

end Miosix
