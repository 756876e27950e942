import MiosixKernel.Lib.Overlay
import MiosixKernel.Lib.Word

/-!
# The window of a FAT volume

The directories and the FAT are read and written through a window of one sector. It is written back when another
sector is needed, and a sector of the FAT is then written to every copy of the FAT.

* `Volume`, `Drive`, `FATFS`: the state;
* `syncWindow`, `moveWindow`, `syncFs`: the code;
* `FATFS.seen`: the bytes of the drive, as seen through the window;
* `FATFS.Shows`: nothing of what is seen is changed;
* **`syncWindow_shows`**, **`moveWindow_shows`**, **`syncFs_shows`**: whichever transfers fail;
* **`Mirrored.moveWindow`**: the copies of the FAT agree as long as no transfer fails.
-/

namespace Miosix

open Lib

/-- `FRESULT` -/
inductive FRESULT where
  | FR_OK | FR_DISK_ERR | FR_INT_ERR | FR_NOT_READY | FR_NO_FILE | FR_NO_PATH | FR_INVALID_NAME | FR_DENIED | FR_EXIST
  | FR_INVALID_OBJECT | FR_WRITE_PROTECTED | FR_INVALID_DRIVE | FR_NOT_ENABLED | FR_NO_FILESYSTEM | FR_MKFS_ABORTED
  | FR_TIMEOUT | FR_LOCKED | FR_NOT_ENOUGH_CORE | FR_TOO_MANY_OPEN_FILES | FR_INVALID_PARAMETER
  deriving DecidableEq

/-- `fs_type` -/
inductive FatType where
  | notMounted | FS_FAT12 | FS_FAT16 | FS_FAT32
  deriving DecidableEq

/-! ## The drive -/

/-- How a transfer ends. One that fails may still have changed some bytes: those of the buffer if it is a read, those of
the sectors if it is a write. -/
inductive Transfer where
  | done
  | failed (inBuffer onDrive : ℕ → Option UInt8)

def Transfer.isFailed : Transfer → Bool
  | done => false
  | failed _ _ => true

/-- The bytes of the drive, and how the transfers to come end. After these, all succeed. -/
structure Drive where
  bytes : ℕ → UInt8
  faults : List Transfer

namespace Drive

/-- The drive after a transfer. -/
def next (d : Drive) : Drive := { d with faults := d.faults.tail }

/-- The sectors, or what a failing transfer left in the buffer. -/
def diskRead (d : Drive) (sector count : ℕ) : Except (ℕ → Option UInt8) (List UInt8) × Drive :=
  match d.faults.headD .done with
  | .done => (.ok (load d.bytes (512 * sector) (512 * count)), d.next)
  | .failed inBuffer _ => (.error inBuffer, d.next)

/-- With if the transfer succeeded. -/
def diskWrite (d : Drive) (buff : List UInt8) (sector : ℕ) : Bool × Drive :=
  match d.faults.headD .done with
  | .done => (true, { d.next with bytes := store d.bytes (512 * sector) buff })
  | .failed _ onDrive => (false, { d.next with bytes := scribble d.bytes (512 * sector) buff.length onDrive })

/-- `CTRL_SYNC` -/
def diskSync (d : Drive) : Bool × Drive := (!(d.faults.headD .done).isFailed, d.next)

/-- The loop of `sync_window` over the copies of the FAT. The results of the transfers are ignored. -/
def writeCopies (win : List UInt8) (fsize : ℕ) : ℕ → ℕ → Drive → Drive
  | nf + 2, wsect, d => writeCopies win fsize (nf + 1) (wsect + fsize) (d.diskWrite win (wsect + fsize)).2
  | _, _, d => d

/-- The transfers to come that fail. -/
def failures (d : Drive) : ℕ := d.faults.countP Transfer.isFailed

/-- A read that fails leaves the buffer as it was. -/
def Tidy (d : Drive) : Prop := ∀ inBuffer onDrive, .failed inBuffer onDrive ∈ d.faults → ∀ i, inBuffer i = none

/-- Some transfers were made. -/
def Later (d d' : Drive) : Prop := d'.faults <:+ d.faults

/-- One of the transfers between the two states has failed. -/
def Failed (d d' : Drive) : Prop := d'.failures < d.failures

variable {d d' d'' : Drive}

theorem Later.refl (d : Drive) : d.Later d := List.suffix_rfl

theorem Later.trans (h : d.Later d') (h' : d'.Later d'') : d.Later d'' := List.IsSuffix.trans h' h

theorem Later.nil (h : d.Later d') (hf : d.faults = []) : d'.faults = [] := by
  unfold Later at h
  rwa [hf, List.suffix_nil] at h

theorem Later.failures_le (h : d.Later d') : d'.failures ≤ d.failures := h.sublist.countP_le

theorem failures_of_nil (h : d.faults = []) : d.failures ≤ 0 := by rw [failures, h, List.countP_nil]

theorem Later.tidy (h : d.Later d') (ht : d.Tidy) : d'.Tidy := fun inBuffer onDrive hm => ht inBuffer onDrive (h.subset hm)

theorem Tidy.nil (h : d.faults = []) : d.Tidy := fun _ _ hm => by simp [h] at hm

theorem later_next (d : Drive) : d.Later d.next := List.tail_suffix d.faults

theorem Failed.ne_nil (h : d.Failed d') : d.faults ≠ [] := by
  intro hnil
  simp [Failed, failures, hnil] at h

theorem Later.failed (h : d.Later d') (hf : d'.Failed d'') : d.Failed d'' := lt_of_lt_of_le hf h.failures_le

/-- The next transfer fails. -/
theorem failed_next {inBuffer onDrive : ℕ → Option UInt8} (h : d.faults.headD .done = .failed inBuffer onDrive) :
    .failed inBuffer onDrive ∈ d.faults ∧ d.Failed d.next := by
  cases hf : d.faults with
  | nil =>
    rw [hf] at h
    cases h
  | cons t faults =>
    rw [hf] at h
    obtain rfl : t = .failed inBuffer onDrive := h
    refine ⟨List.mem_cons_self, ?_⟩
    rw [Failed, failures, failures, next, hf, List.countP_cons_of_pos (by rfl)]
    exact Nat.lt_succ_self _

/-- A write fails, and may have changed the sectors, or it is done. -/
theorem diskWrite_cases (d : Drive) (buff : List UInt8) (sector : ℕ) :
    (∃ drv, d.diskWrite buff sector = (false, drv) ∧ d.Later drv ∧ d.Failed drv ∧
      ∀ x, x < 512 * sector ∨ 512 * sector + buff.length ≤ x → drv.bytes x = d.bytes x) ∨
    d.diskWrite buff sector = (true, ⟨store d.bytes (512 * sector) buff, d.faults.tail⟩) := by
  unfold diskWrite
  cases h : d.faults.headD .done with
  | done => exact .inr rfl
  | failed inBuffer onDrive =>
    exact .inl ⟨_, rfl, d.later_next, (failed_next h).2, fun x hx => scribble_outside hx⟩

/-- A read fails, and may have changed the buffer, or it is done. -/
theorem diskRead_cases (d : Drive) (sector count : ℕ) :
    (∃ inBuffer, d.diskRead sector count = (.error inBuffer, d.next) ∧ d.Failed d.next ∧
      (d.Tidy → ∀ i, inBuffer i = none)) ∨
    d.diskRead sector count = (.ok (load d.bytes (512 * sector) (512 * count)), d.next) := by
  unfold diskRead
  cases h : d.faults.headD .done with
  | done => exact .inr rfl
  | failed inBuffer onDrive =>
    obtain ⟨hmem, hf⟩ := failed_next h
    exact .inl ⟨inBuffer, rfl, hf, fun ht => ht inBuffer onDrive hmem⟩

end Drive

/-! ## Numbers in a sector -/

/-- `ST_WORD` -/
def stWord (p : ℕ → UInt8) (a val : ℕ) : ℕ → UInt8 :=
  store p a [UInt8.ofNat val, UInt8.ofNat ((val % 2 ^ 16) >>> 8)]

/-- `ST_DWORD` -/
def stDword (p : ℕ → UInt8) (a val : ℕ) : ℕ → UInt8 :=
  store p a [UInt8.ofNat val, UInt8.ofNat ((val % 2 ^ 16) >>> 8), UInt8.ofNat (val >>> 16), UInt8.ofNat (val >>> 24)]

/-- `LD_WORD` -/
def ldWord (p : ℕ → UInt8) (a : ℕ) : ℕ := (p (a + 1)).toNat <<< 8 ||| (p a).toNat

/-- `LD_DWORD` -/
def ldDword (p : ℕ → UInt8) (a : ℕ) : ℕ :=
  (p (a + 3)).toNat <<< 24 ||| (p (a + 2)).toNat <<< 16 ||| (p (a + 1)).toNat <<< 8 ||| (p a).toNat

section Numbers

variable {p : ℕ → UInt8} {a val : ℕ}

theorem ldWord_eq : ldWord p a = (p a).toNat + 2 ^ 8 * (p (a + 1)).toNat := by
  rw [ldWord, ← Nat.shiftLeft_add_eq_or_of_lt (p a).toNat_lt, Nat.shiftLeft_eq]
  omega

theorem ldDword_eq : ldDword p a = (p a).toNat + 2 ^ 8 * (p (a + 1)).toNat + 2 ^ 16 * (p (a + 2)).toNat +
    2 ^ 24 * (p (a + 3)).toNat := by
  have h0 := (p a).toNat_lt
  have h1 := (p (a + 1)).toNat_lt
  have h2 := (p (a + 2)).toNat_lt
  have e1 := Nat.shiftLeft_add_eq_or_of_lt h0 (p (a + 1)).toNat
  have l1 : (p (a + 1)).toNat <<< 8 + (p a).toNat < 2 ^ 16 := by rw [Nat.shiftLeft_eq]; omega
  have e2 := Nat.shiftLeft_add_eq_or_of_lt l1 (p (a + 2)).toNat
  have l2 : (p (a + 2)).toNat <<< 16 + ((p (a + 1)).toNat <<< 8 + (p a).toNat) < 2 ^ 24 := by
    rw [Nat.shiftLeft_eq, Nat.shiftLeft_eq]; omega
  have e3 := Nat.shiftLeft_add_eq_or_of_lt l2 (p (a + 3)).toNat
  rw [ldDword, Nat.or_assoc, Nat.or_assoc, ← e1, ← e2, ← e3]
  simp only [Nat.shiftLeft_eq]
  omega

theorem toNat_ofNat (n : ℕ) : (UInt8.ofNat n).toNat = n % 2 ^ 8 := UInt8.toNat_ofNat'

theorem ldWord_stWord : ldWord (stWord p a val) a = val % 2 ^ 16 := by
  simp only [ldWord_eq, stWord, store, List.length_cons, List.length_nil]
  rw [if_pos (by omega), if_pos (by omega), Nat.sub_self, Nat.add_sub_cancel_left]
  simp only [List.getD_cons_zero, List.getD_cons_succ, toNat_ofNat, Nat.shiftRight_eq_div_pow]
  omega

theorem ldDword_stDword : ldDword (stDword p a val) a = val % 2 ^ 32 := by
  simp only [ldDword_eq, stDword, store, List.length_cons, List.length_nil]
  rw [if_pos (by omega), if_pos (by omega), if_pos (by omega), if_pos (by omega), Nat.sub_self]
  simp only [Nat.add_sub_cancel_left, List.getD_cons_zero, List.getD_cons_succ, toNat_ofNat,
    Nat.shiftRight_eq_div_pow]
  omega

theorem stWord_outside {x : ℕ} (h : x < a ∨ a + 2 ≤ x) : stWord p a val x = p x := store_outside h

theorem ldWord_congr {q : ℕ → UInt8} {b : ℕ} (h : ∀ i < 2, p (a + i) = q (b + i)) : ldWord p a = ldWord q b := by
  unfold ldWord
  rw [h 1 (by decide), show p a = q b from h 0 (by decide)]

theorem ldDword_congr {q : ℕ → UInt8} {b : ℕ} (h : ∀ i < 4, p (a + i) = q (b + i)) : ldDword p a = ldDword q b := by
  unfold ldDword
  rw [h 3 (by decide), h 2 (by decide), h 1 (by decide), show p a = q b from h 0 (by decide)]

end Numbers

/-! ## The volume -/

/-- The fields of `FATFS` that do not change while the volume is mounted. -/
structure Volume where
  fsType : FatType
  csize : ℕ
  nFats : ℕ
  nFatent : ℕ
  fsize : ℕ
  volbase : ℕ
  fatbase : ℕ
  database : ℕ

structure FATFS extends Volume where
  wflag : Bool
  fsiFlag : ℕ
  lastClust : ℕ
  freeClust : ℕ
  winsect : ℕ
  win : ℕ → UInt8
  drv : Drive

namespace FATFS

def syncWindow (fs : FATFS) : FRESULT × FATFS :=
  if fs.wflag then
    let wsect := fs.winsect
    let (written, drv) := fs.drv.diskWrite (load fs.win 0 512) wsect
    if written then
      let drv := if u32 ((wsect : ℤ) - fs.fatbase) < fs.fsize then
        drv.writeCopies (load fs.win 0 512) fs.fsize fs.nFats wsect else drv
      (.FR_OK, { fs with wflag := false, drv := drv })
    else (.FR_DISK_ERR, { fs with drv := drv })
  else (.FR_OK, fs)

def moveWindow (fs : FATFS) (sector : ℕ) : FRESULT × FATFS :=
  if sector ≠ fs.winsect then
    match fs.syncWindow with
    | (.FR_OK, fs) =>
      match fs.drv.diskRead sector 1 with
      | (.ok buff, drv) => (.FR_OK, { fs with win := store fs.win 0 buff, winsect := sector, drv := drv })
      | (.error inBuffer, drv) => (.FR_DISK_ERR, { fs with win := scribble fs.win 0 512 inBuffer, drv := drv })
    | (_, fs) => (.FR_DISK_ERR, fs)
  else (.FR_OK, fs)

/-- The FSINFO structure. -/
def fsinfo (fs : FATFS) : ℕ → UInt8 :=
  let win := store fs.win 0 (List.replicate 512 0)
  let win := stWord win 510 0xAA55
  let win := stDword win 0 0x41615252
  let win := stDword win 484 0x61417272
  let win := stDword win 488 fs.freeClust
  stDword win 492 fs.lastClust

def syncFs (fs : FATFS) : FRESULT × FATFS :=
  match fs.syncWindow with
  | (.FR_OK, fs) =>
    let fs := if fs.fsType = .FS_FAT32 ∧ fs.fsiFlag = 1 then
      { fs with win := fs.fsinfo, winsect := fs.volbase + 1, fsiFlag := 0,
                drv := (fs.drv.diskWrite (load fs.fsinfo 0 512) (fs.volbase + 1)).2 } else fs
    let (synced, drv) := fs.drv.diskSync
    (if synced then .FR_OK else .FR_DISK_ERR, { fs with drv := drv })
  | (res, fs) => (res, fs)

end FATFS

/-! ## What is seen -/

/-- A sector of a copy of the FAT that is not the first one. -/
def Volume.InCopy (v : Volume) (s : ℕ) : Prop := v.fatbase + v.fsize ≤ s ∧ s < v.fatbase + v.nFats * v.fsize

/-- A sector of the first copy. -/
def Volume.InFat (v : Volume) (s : ℕ) : Prop := v.fatbase ≤ s ∧ s < v.fatbase + v.fsize

/-- A sector that is in no such copy, and is not the one of the FSINFO structure. -/
def Volume.Plain (v : Volume) (s : ℕ) : Prop := ¬ v.InCopy s ∧ (v.fsType = .FS_FAT32 → s ≠ v.volbase + 1)

/-- The bytes that the entries of the FAT need. -/
def Volume.szbfat (v : Volume) : ℕ :=
  match v.fsType with
  | .FS_FAT12 => v.nFatent * 3 / 2 + v.nFatent % 2
  | .FS_FAT16 => v.nFatent * 2
  | .FS_FAT32 => v.nFatent * 4
  | .notMounted => 0

/-- The values of an entry are below this. -/
def Volume.entryBound (v : Volume) : ℕ :=
  match v.fsType with
  | .FS_FAT12 => 2 ^ 12
  | .FS_FAT16 => 2 ^ 16
  | .FS_FAT32 => 2 ^ 28
  | .notMounted => 0

/-- Where the parts of a mounted volume lie. -/
structure Volume.Placed (v : Volume) : Prop where
  mounted : v.fsType ≠ .notMounted
  clusters : 3 ≤ v.nFatent
  entries : v.szbfat ≤ 512 * v.fsize
  last : v.nFatent < v.entryBound
  fats : 1 ≤ v.nFats
  fsinfo : v.fsType = .FS_FAT32 → v.volbase + 1 < v.fatbase
  fat : v.fatbase + v.nFats * v.fsize ≤ v.database
  database : v.database < 2 ^ 32

namespace FATFS

/-- The bytes of the drive, as seen through the window. -/
def seen (fs : FATFS) : ℕ → UInt8 := overlay fs.drv.bytes (512 * fs.winsect) 512 fs.win

/-- A window that is not to be written back holds what is on the drive. -/
structure Coherent (fs : FATFS) : Prop where
  placed : fs.Placed
  lt : fs.winsect < 2 ^ 32
  copy : ¬ fs.InCopy fs.winsect
  clean : fs.wflag = false → fs.Plain fs.winsect → ∀ i < 512, fs.win i = fs.drv.bytes (512 * fs.winsect + i)

/-- It stays so, as a read that fails leaves the window alone. -/
structure Valid (fs : FATFS) : Prop extends Coherent fs where
  tidy : fs.drv.Tidy

/-- Every copy of the FAT is the first one, but for a sector that is still to be written back. -/
def Mirrored (fs : FATFS) : Prop :=
  ∀ k < fs.nFats, ∀ a, fs.fatbase ≤ a / 512 → a / 512 < fs.fatbase + fs.fsize →
    (fs.wflag = true → a / 512 ≠ fs.winsect) → fs.drv.bytes (a + k * (512 * fs.fsize)) = fs.drv.bytes a

/-- What is seen after a step is what was seen before it. -/
structure Shows (fs fs' : FATFS) : Prop where
  valid : fs'.Valid
  vol : fs'.toVolume = fs.toVolume
  last : fs'.lastClust = fs.lastClust
  free : fs'.freeClust = fs.freeClust
  later : fs.drv.Later fs'.drv
  mirrored : fs.drv.faults = [] → fs.Mirrored → fs'.Mirrored
  seen : ∀ a, fs.Plain (a / 512) → fs'.seen a = fs.seen a

variable {fs fs' fs'' : FATFS} {res : FRESULT} {a s : ℕ}

theorem Shows.refl (h : fs.Valid) : Shows fs fs :=
  ⟨h, rfl, rfl, rfl, Drive.Later.refl _, fun _ => id, fun _ _ => rfl⟩

theorem Shows.faults (h : Shows fs fs') (hf : fs.drv.faults = []) : fs'.drv.faults = [] := h.later.nil hf

theorem Shows.trans (h : Shows fs fs') (h' : Shows fs' fs'') : Shows fs fs'' where
  valid := h'.valid
  vol := h'.vol.trans h.vol
  last := h'.last.trans h.last
  free := h'.free.trans h.free
  later := h.later.trans h'.later
  mirrored := fun hf hm => h'.mirrored (h.faults hf) (h.mirrored hf hm)
  seen := fun a ha => (h'.seen a (h.vol ▸ ha)).trans (h.seen a ha)

/-- A volume on a drive of zeros. -/
def blank (v : Volume) : FATFS where
  toVolume := v
  wflag := false
  fsiFlag := 0x80
  lastClust := 0
  freeClust := v.nFatent - 2
  winsect := 0
  win := fun _ => 0
  drv := ⟨fun _ => 0, []⟩

theorem blank_valid {v : Volume} (h : v.Placed) (hpos : 0 < v.fatbase) : (blank v).Valid where
  placed := h
  lt := Nat.two_pow_pos 32
  copy := fun hc => by have := hc.1; dsimp only [blank] at this; omega
  clean := fun _ _ _ _ => rfl
  tidy := Drive.Tidy.nil rfl

theorem seen_of_ne (h : a / 512 ≠ fs.winsect) : fs.seen a = fs.drv.bytes a := overlay_outside (by omega)

theorem seen_of_eq (h : a / 512 = fs.winsect) : fs.seen a = fs.win (a % 512) := by
  rw [seen, overlay_inside (by omega) (by omega)]
  congr 1
  omega

/-- Without changes to write back, what is seen is what is on the drive. -/
theorem Coherent.seen_of_clean (h : fs.Coherent) (hw : fs.wflag = false) (ha : fs.Plain (a / 512)) :
    fs.seen a = fs.drv.bytes a := by
  by_cases hs : a / 512 = fs.winsect
  · rw [seen_of_eq hs, h.clean hw (hs ▸ ha) _ (Nat.mod_lt _ (by decide)), ← hs, Nat.div_add_mod]
  · exact seen_of_ne hs

end FATFS

/-! ## Writing back -/

theorem Drive.bytes_diskWrite {d : Drive} {win : List UInt8} (hlen : win.length = 512) {sector a : ℕ}
    (ha : a / 512 ≠ sector) : (d.diskWrite win sector).2.bytes a = d.bytes a := by
  obtain ⟨drv, heq, -, -, hout⟩ | heq := d.diskWrite_cases win sector
  · rw [heq]
    exact hout a (by omega)
  · rw [heq]
    exact store_outside (by omega)

theorem Drive.later_diskWrite (d : Drive) (win : List UInt8) (sector : ℕ) : d.Later (d.diskWrite win sector).2 := by
  obtain ⟨drv, heq, hlater, -⟩ | heq := d.diskWrite_cases win sector
  · rw [heq]
    exact hlater
  · rw [heq]
    exact d.later_next

theorem Drive.later_writeCopies (win : List UInt8) (fsize nf wsect : ℕ) (d : Drive) :
    d.Later (d.writeCopies win fsize nf wsect) := by
  induction nf generalizing wsect d with
  | zero => exact Later.refl d
  | succ nf ih =>
    cases nf with
    | zero => exact Later.refl d
    | succ nf => exact (d.later_diskWrite win (wsect + fsize)).trans (ih _ _)

theorem Drive.bytes_writeCopies {win : List UInt8} (hlen : win.length = 512) {fsize a : ℕ} (nf wsect : ℕ) (d : Drive)
    (ha : ∀ k, 1 ≤ k → k < nf → a / 512 ≠ wsect + k * fsize) :
    (d.writeCopies win fsize nf wsect).bytes a = d.bytes a := by
  induction nf generalizing wsect d with
  | zero => rfl
  | succ nf ih =>
    cases nf with
    | zero => rfl
    | succ nf =>
      rw [Drive.writeCopies, ih, Drive.bytes_diskWrite hlen]
      · simpa using ha 1 (Nat.le_refl 1) (by omega)
      · intro k hk hlt
        have := ha (k + 1) (by omega) (by omega)
        rwa [Nat.add_mul, Nat.one_mul, Nat.add_comm (k * fsize), ← Nat.add_assoc] at this

theorem Drive.diskWrite_ok {d : Drive} (hf : d.faults = []) (win : List UInt8) (sector : ℕ) :
    d.diskWrite win sector = (true, ⟨store d.bytes (512 * sector) win, []⟩) := by
  simp [Drive.diskWrite, Drive.next, hf]

/-- Every copy of the sector is written. -/
theorem Drive.writeCopies_copy {win : List UInt8} (hlen : win.length = 512) {fsize i : ℕ} (hfs : 0 < fsize)
    (hi : i < 512) (nf wsect : ℕ) (d : Drive) (hf : d.faults = []) {k : ℕ} (hk : 1 ≤ k) (hlt : k < nf) :
    (d.writeCopies win fsize nf wsect).bytes (512 * (wsect + k * fsize) + i) = win.getD i 0 := by
  induction nf generalizing wsect d k with
  | zero => omega
  | succ nf ih =>
    obtain ⟨nf, rfl⟩ : ∃ m, nf = m + 1 := ⟨nf - 1, by omega⟩
    rw [Drive.writeCopies, Drive.diskWrite_ok hf]
    rcases Nat.lt_or_ge 1 k with hk1 | hk1
    · obtain ⟨k, rfl⟩ : ∃ m, k = m + 1 := ⟨k - 1, by omega⟩
      rw [Nat.add_mul, Nat.one_mul, Nat.add_comm (k * fsize), ← Nat.add_assoc]
      exact ih _ _ rfl (by omega) (by omega)
    · obtain rfl : k = 1 := by omega
      rw [Nat.one_mul, Drive.bytes_writeCopies hlen]
      · dsimp only
        rw [store, if_pos (by omega)]
        congr 1
        omega
      · intro j hj _
        have := Nat.le_mul_of_pos_left fsize hj
        omega

namespace FATFS

variable {fs fs' : FATFS} {res : FRESULT} {a sector : ℕ}

theorem isFat_iff (h : fs.Placed) (hs : sector < 2 ^ 32) :
    u32 ((sector : ℤ) - fs.fatbase) < fs.fsize ↔ fs.fatbase ≤ sector ∧ sector < fs.fatbase + fs.fsize := by
  have hfat := h.fat
  have hdb := h.database
  have hfs : fs.fsize ≤ fs.nFats * fs.fsize := Nat.le_mul_of_pos_left _ h.fats
  unfold u32
  omega

/-- Either nothing was to be written, or the transfer failed, or what is on the drive is what was seen. -/
theorem syncWindow_cases (h : fs.Coherent) (hres : fs.syncWindow = (res, fs')) :
    (fs.wflag = false ∧ res = .FR_OK ∧ fs' = fs) ∨
    (fs.wflag = true ∧ res = .FR_DISK_ERR ∧ ∃ drv, fs' = { fs with drv := drv } ∧ fs.drv.Later drv ∧
      fs.drv.Failed drv ∧ ∀ a, a / 512 ≠ fs.winsect → drv.bytes a = fs.drv.bytes a) ∨
    (fs.wflag = true ∧ res = .FR_OK ∧ ∃ drv, fs' = { fs with wflag := false, drv := drv } ∧
      fs.drv.Later drv ∧ ∀ a, fs.Plain (a / 512) → drv.bytes a = fs.seen a) := by
  unfold syncWindow at hres
  by_cases hw : fs.wflag = true
  · rw [if_pos hw] at hres
    obtain ⟨drv, hd, hlater, hf, hout⟩ | hd := fs.drv.diskWrite_cases (load fs.win 0 512) fs.winsect
    · simp only [hd, Bool.false_eq_true, if_false] at hres
      obtain ⟨rfl, rfl⟩ := Prod.mk.inj hres
      exact .inr (.inl ⟨hw, rfl, drv, rfl, hlater, hf, fun a ha => hout a (by rw [length_load]; omega)⟩)
    · simp only [hd, if_true] at hres
      obtain ⟨rfl, rfl⟩ := Prod.mk.inj hres
      rw [store_eq_overlay]
      refine .inr (.inr ⟨hw, rfl, _, rfl, ?_, fun a ha => ?_⟩)
      · split
        · exact (fs.drv.later_next).trans (Drive.later_writeCopies _ _ _ _ _)
        · exact fs.drv.later_next
      split
      case isTrue hfat =>
        rw [isFat_iff h.placed h.lt] at hfat
        rw [Drive.bytes_writeCopies length_load]
        · rfl
        intro k hk hlt heq
        have hmul : k * fs.fsize + fs.fsize ≤ fs.nFats * fs.fsize := by
          rw [← Nat.succ_mul]; exact Nat.mul_le_mul_right _ hlt
        have hle : fs.fsize ≤ k * fs.fsize := Nat.le_mul_of_pos_left _ hk
        exact ha.1 ⟨by omega, by omega⟩
      case isFalse => rfl
  · rw [if_neg hw] at hres
    obtain ⟨rfl, rfl⟩ := Prod.mk.inj hres
    exact .inl ⟨by simpa using hw, rfl, rfl⟩

/-- As long as no transfer fails, the copies of the FAT agree. -/
theorem Mirrored.syncWindow (hm : fs.Mirrored) (h : fs.Coherent) (hf : fs.drv.faults = [])
    (hres : fs.syncWindow = (res, fs')) : fs'.Mirrored := by
  unfold FATFS.syncWindow at hres
  by_cases hw : fs.wflag = true
  · simp only [hw, if_true, Drive.diskWrite_ok hf] at hres
    obtain ⟨-, rfl⟩ := Prod.mk.inj hres
    intro k hk a hge hlt _
    dsimp only at hk hge hlt ⊢
    have hfs : 0 < fs.fsize := by omega
    have hsect : (a + k * (512 * fs.fsize)) / 512 = a / 512 + k * fs.fsize := by
      rw [Nat.mul_left_comm, Nat.add_mul_div_left _ _ (by decide)]
    have hkn : k * fs.fsize + fs.fsize ≤ fs.nFats * fs.fsize := by
      rw [← Nat.succ_mul]
      exact Nat.mul_le_mul_right _ hk
    have hout : ∀ x, x / 512 ≠ fs.winsect →
        store fs.drv.bytes (512 * fs.winsect) (load fs.win 0 512) x = fs.drv.bytes x :=
      fun x hx => store_outside (by rw [length_load]; omega)
    split
    case isTrue hfat =>
      rw [isFat_iff h.placed h.lt] at hfat
      by_cases ha : a / 512 = fs.winsect
      · rcases Nat.eq_zero_or_pos k with rfl | hpos
        · rw [Nat.zero_mul, Nat.add_zero]
        · have haddr : a + k * (512 * fs.fsize) = 512 * (fs.winsect + k * fs.fsize) + a % 512 := by
            rw [Nat.mul_left_comm, ← ha]
            omega
          rw [haddr, Drive.writeCopies_copy length_load hfs (Nat.mod_lt _ (by decide)) _ _ _ rfl hpos hk,
            Drive.bytes_writeCopies length_load]
          · dsimp only
            rw [store, if_pos (by rw [length_load]; omega)]
            congr 1
            omega
          · intro j hj _
            have := Nat.le_mul_of_pos_left fs.fsize hj
            omega
      · have hne : ∀ j k, a / 512 + k * fs.fsize ≠ fs.winsect + j * fs.fsize := by
          intro j k
          rcases Nat.lt_trichotomy j k with hjk | rfl | hjk
          · have := Nat.mul_le_mul_right fs.fsize hjk
            rw [Nat.succ_mul] at this
            omega
          · omega
          · have := Nat.mul_le_mul_right fs.fsize hjk
            rw [Nat.succ_mul] at this
            omega
        rw [Drive.bytes_writeCopies length_load _ _ _ fun j _ _ => hsect ▸ hne j k,
          Drive.bytes_writeCopies length_load _ _ _ fun j _ _ => by simpa using hne j 0]
        dsimp only
        rw [hout _ (by simpa [hsect] using hne 0 k), hout _ ha]
        exact hm k hk a hge hlt fun _ => ha
    case isFalse hfat =>
      rw [isFat_iff h.placed h.lt] at hfat
      have hcopy := h.copy
      unfold Volume.InCopy at hcopy
      dsimp only
      rw [hout _ (by omega), hout _ (by omega)]
      exact hm k hk a hge hlt fun _ => by omega
  · rw [if_neg hw] at hres
    obtain ⟨-, rfl⟩ := Prod.mk.inj hres
    exact hm

/-- Writing the window back changes nothing that is seen. -/
theorem syncWindow_shows (h : fs.Valid) (hres : fs.syncWindow = (res, fs')) : fs.Shows fs' := by
  have hm : fs.drv.faults = [] → fs.Mirrored → fs'.Mirrored := fun hf hm => hm.syncWindow h.toCoherent hf hres
  obtain ⟨-, -, rfl⟩ | ⟨hw, -, drv, rfl, hlater, -, hout⟩ | ⟨hw, -, drv, rfl, hlater, hb⟩ :=
    syncWindow_cases h.toCoherent hres
  · exact Shows.refl h
  · have hclean : fs.wflag = false → fs.Plain fs.winsect → ∀ i < 512, fs.win i = drv.bytes (512 * fs.winsect + i) :=
      fun hw' => by simp [hw] at hw'
    refine ⟨⟨⟨h.placed, h.lt, h.copy, hclean⟩, hlater.tidy h.tidy⟩, rfl, rfl, rfl, hlater, hm, fun a _ => ?_⟩
    by_cases hs : a / 512 = fs.winsect
    · exact Eq.trans (seen_of_eq hs) (seen_of_eq hs).symm
    · exact Eq.trans (seen_of_ne hs) ((hout a hs).trans (seen_of_ne hs).symm)
  · refine ⟨⟨⟨h.placed, h.lt, h.copy, fun _ hp i hi => ?_⟩, hlater.tidy h.tidy⟩, rfl, rfl, rfl, hlater, hm,
      fun a ha => ?_⟩
    · have hsect : (512 * fs.winsect + i) / 512 = fs.winsect := by omega
      have hmod : (512 * fs.winsect + i) % 512 = i := by omega
      have hplain : fs.Plain ((512 * fs.winsect + i) / 512) := by rwa [hsect]
      exact (((hb _ hplain).trans (seen_of_eq hsect)).trans (congrArg fs.win hmod)).symm
    · by_cases hs : a / 512 = fs.winsect
      · exact Eq.trans (seen_of_eq hs) (seen_of_eq hs).symm
      · exact Eq.trans (seen_of_ne hs) (hb a ha)

theorem wflag_syncWindow (h : fs.Coherent) (hres : fs.syncWindow = (.FR_OK, fs')) : fs'.wflag = false := by
  obtain ⟨hw, -, rfl⟩ | ⟨-, heq, -⟩ | ⟨-, -, drv, rfl, -⟩ := syncWindow_cases h hres
  · exact hw
  · cases heq
  · rfl

theorem res_syncWindow (h : fs.Coherent) (hres : fs.syncWindow = (res, fs')) :
    res = .FR_OK ∨ res = .FR_DISK_ERR ∧ fs.drv.Failed fs'.drv := by
  obtain ⟨-, rfl, -⟩ | ⟨-, rfl, drv, rfl, -, hf, -⟩ | ⟨-, rfl, -⟩ := syncWindow_cases h hres
  · exact .inl rfl
  · exact .inr ⟨rfl, hf⟩
  · exact .inl rfl

/-! ## Moving the window -/

/-- The sector that is asked for is in the window, what is seen is not changed, and only a failing transfer is an
error. -/
theorem moveWindow_shows (h : fs.Valid) (hc : ¬ fs.InCopy sector) (hs : sector < 2 ^ 32)
    (hres : fs.moveWindow sector = (res, fs')) :
    fs.Shows fs' ∧ (res = .FR_OK ∧ fs'.winsect = sector ∨ res = .FR_DISK_ERR ∧ fs.drv.Failed fs'.drv) := by
  unfold moveWindow at hres
  by_cases hsect : sector ≠ fs.winsect
  · rw [if_pos hsect] at hres
    rcases hsync : fs.syncWindow with ⟨res₁, fs₁⟩
    have hshow := syncWindow_shows h hsync
    rw [hsync] at hres
    obtain rfl | ⟨rfl, hf⟩ := res_syncWindow h.toCoherent hsync
    · have hw := wflag_syncWindow h.toCoherent hsync
      have hv := hshow.valid
      have hlater := fs₁.drv.later_next
      have hm : fs₁.Mirrored → ∀ k < fs₁.nFats, ∀ a, fs₁.fatbase ≤ a / 512 → a / 512 < fs₁.fatbase + fs₁.fsize →
          fs₁.drv.bytes (a + k * (512 * fs₁.fsize)) = fs₁.drv.bytes a :=
        fun hm k hk a hge hlt => hm k hk a hge hlt fun hw' => by simp_all
      obtain ⟨inBuffer, hd, hf, hnone⟩ | hd := fs₁.drv.diskRead_cases sector 1
      · simp only [hd, scribble_none (hnone hv.tidy)] at hres
        obtain ⟨rfl, rfl⟩ := Prod.mk.inj hres
        exact ⟨hshow.trans ⟨⟨⟨hv.placed, hv.lt, hv.copy, hv.clean⟩, hlater.tidy hv.tidy⟩, rfl, rfl, rfl, hlater,
          fun _ hm' k hk a hge hlt _ => hm hm' k hk a hge hlt, fun _ _ => rfl⟩, .inr ⟨rfl, hshow.later.failed hf⟩⟩
      · simp only [hd] at hres
        obtain ⟨rfl, rfl⟩ := Prod.mk.inj hres
        have hwin : ∀ i < 512, store fs₁.win 0 (load fs₁.drv.bytes (512 * sector) (512 * 1)) i =
            fs₁.drv.bytes (512 * sector + i) := fun i hi => store_load (by omega)
        have hc' : ¬ fs₁.InCopy sector := by rwa [hshow.vol]
        refine ⟨hshow.trans ⟨⟨⟨hv.placed, hs, hc', fun _ _ => ?_⟩, hlater.tidy hv.tidy⟩, rfl, rfl, rfl, hlater,
          fun _ hm' k hk a hge hlt _ => hm hm' k hk a hge hlt, fun a ha => ?_⟩, .inl ⟨rfl, rfl⟩⟩
        · dsimp only [Drive.next]
          exact hwin
        · rw [hv.seen_of_clean hw ha]
          dsimp only [seen, Drive.next]
          rw [overlay_window hwin]
    · obtain ⟨rfl, rfl⟩ := Prod.mk.inj hres
      exact ⟨hshow, .inr ⟨rfl, hf⟩⟩
  · rw [if_neg hsect] at hres
    obtain ⟨rfl, rfl⟩ := Prod.mk.inj hres
    exact ⟨Shows.refl h, .inl ⟨rfl, (not_not.1 hsect).symm⟩⟩

/-! ## The FSINFO structure -/

/-- The FSINFO structure is written over its own sector, whatever the drive answers. -/
theorem syncFs_shows (h : fs.Valid) (hres : fs.syncFs = (res, fs')) : fs.Shows fs' := by
  unfold syncFs at hres
  rcases hsync : fs.syncWindow with ⟨res₁, fs₁⟩
  have hshow := syncWindow_shows h hsync
  rw [hsync] at hres
  obtain rfl | ⟨rfl, -⟩ := res_syncWindow h.toCoherent hsync
  · have hw := wflag_syncWindow h.toCoherent hsync
    have hv := hshow.valid
    by_cases hfsi : fs₁.fsType = .FS_FAT32 ∧ fs₁.fsiFlag = 1
    · simp only [hfsi, and_self, if_true] at hres
      obtain ⟨-, rfl⟩ := Prod.mk.inj hres
      have hfat := hv.placed.fsinfo hfsi.1
      have hlt : fs₁.volbase + 1 < 2 ^ 32 := by
        have := hv.placed.fat
        have := hv.placed.database
        omega
      have hc : ¬ fs₁.InCopy (fs₁.volbase + 1) := fun hc => by have := hc.1; omega
      have hlater := (fs₁.drv.later_diskWrite (load fs₁.fsinfo 0 512) (fs₁.volbase + 1)).trans (Drive.later_next _)
      refine hshow.trans ⟨⟨⟨hv.placed, hlt, hc, fun _ hp => absurd rfl (hp.2 hfsi.1)⟩, hlater.tidy hv.tidy⟩, rfl, rfl,
        rfl, hlater, fun _ hm k hk a hge hlt hne => ?_, fun a ha => ?_⟩
      · have hle : a / 512 ≤ (a + k * (512 * fs₁.fsize)) / 512 := Nat.div_le_div_right (Nat.le_add_right _ _)
        have hold := hm k hk a hge hlt fun hw' => by simp_all
        dsimp only at hge
        exact ((Drive.bytes_diskWrite length_load (by omega)).trans hold).trans
          (Drive.bytes_diskWrite length_load (by omega)).symm
      · have hne : a / 512 ≠ fs₁.volbase + 1 := ha.2 hfsi.1
        rw [hv.seen_of_clean hw ha]
        exact Eq.trans (seen_of_ne hne) (Drive.bytes_diskWrite length_load hne)
    · simp only [hfsi, if_false] at hres
      obtain ⟨-, rfl⟩ := Prod.mk.inj hres
      have hlater := fs₁.drv.later_next
      exact hshow.trans ⟨⟨⟨hv.placed, hv.lt, hv.copy, hv.clean⟩, hlater.tidy hv.tidy⟩, rfl, rfl, rfl, hlater,
        fun _ => id, fun _ _ => rfl⟩
  · obtain ⟨-, rfl⟩ := Prod.mk.inj hres
    exact hshow

/-- A changed window is still to be written to every copy. -/
theorem Mirrored.dirty (hm : fs.Mirrored) (win : ℕ → UInt8) : Mirrored { fs with win := win, wflag := true } := by
  intro k hk a hge hlt hne
  exact hm k hk a hge hlt fun _ => hne rfl

end FATFS

/-! ## Reads that leave the buffer alone -/

/-- The transfer, but a read that fails leaves the buffer as it was. -/
def Transfer.tidied : Transfer → Transfer
  | done => done
  | failed _ onDrive => failed (fun _ => none) onDrive

def Drive.tidied (d : Drive) : Drive := { d with faults := d.faults.map Transfer.tidied }

theorem Drive.tidy_tidied (d : Drive) : d.tidied.Tidy := by
  intro inBuffer onDrive hm i
  obtain ⟨_ | _, -, heq⟩ := List.mem_map.1 hm
  · simp [Transfer.tidied] at heq
  · obtain ⟨rfl, -⟩ : (fun _ => none) = inBuffer ∧ _ := by simpa [Transfer.tidied] using heq
    rfl

/-- The next transfer, and those after it. -/
theorem Drive.headD_tidied (d : Drive) : d.tidied.faults.headD .done = (d.faults.headD .done).tidied ∧
    d.tidied.next = d.next.tidied := by
  obtain ⟨bytes, _ | ⟨t, faults⟩⟩ := d
  · exact ⟨rfl, rfl⟩
  · exact ⟨rfl, rfl⟩

theorem Drive.diskWrite_tidied (d : Drive) (buff : List UInt8) (sector : ℕ) :
    d.tidied.diskWrite buff sector = ((d.diskWrite buff sector).1, (d.diskWrite buff sector).2.tidied) := by
  obtain ⟨hhead, hnext⟩ := d.headD_tidied
  unfold diskWrite
  rw [hhead, hnext]
  cases d.faults.headD .done with
  | done => rfl
  | failed inBuffer onDrive => rfl

theorem Drive.writeCopies_tidied (win : List UInt8) (fsize nf wsect : ℕ) (d : Drive) :
    d.tidied.writeCopies win fsize nf wsect = (d.writeCopies win fsize nf wsect).tidied := by
  induction nf generalizing wsect d with
  | zero => rfl
  | succ nf ih =>
    cases nf with
    | zero => rfl
    | succ nf => rw [writeCopies, writeCopies, diskWrite_tidied, ih]

namespace FATFS

variable {fs fs' : FATFS} {sector : ℕ}

def tidied (fs : FATFS) : FATFS := { fs with drv := fs.drv.tidied }

theorem Coherent.tidied (h : fs.Coherent) : fs.tidied.Valid := ⟨⟨h.placed, h.lt, h.copy, h.clean⟩, fs.drv.tidy_tidied⟩

theorem syncWindow_tidied : fs.tidied.syncWindow = (fs.syncWindow.1, fs.syncWindow.2.tidied) := by
  unfold syncWindow
  by_cases hw : fs.wflag = true
  · rw [if_pos hw, if_pos (show fs.tidied.wflag = true from hw)]
    simp only [tidied, Drive.diskWrite_tidied, Drive.writeCopies_tidied]
    split_ifs <;> rfl
  · rw [if_neg hw, if_neg (show ¬ fs.tidied.wflag = true from hw)]

/-- A window that was moved does not depend on what a failing read leaves in it. -/
theorem moveWindow_tidied (h : fs.moveWindow sector = (.FR_OK, fs')) :
    fs.tidied.moveWindow sector = (.FR_OK, fs'.tidied) := by
  unfold moveWindow at h ⊢
  by_cases hsect : sector ≠ fs.winsect
  · rw [if_pos hsect] at h
    rw [if_pos (show sector ≠ fs.tidied.winsect from hsect), syncWindow_tidied]
    rcases hsync : fs.syncWindow with ⟨res, fs₁⟩
    rw [hsync] at h
    cases res with
    | FR_OK =>
      obtain ⟨hhead, hnext⟩ := fs₁.drv.headD_tidied
      dsimp only [Drive.diskRead, tidied] at h ⊢
      rw [hhead, hnext]
      cases ht : fs₁.drv.faults.headD .done with
      | done =>
        rw [ht] at h
        obtain ⟨-, rfl⟩ := Prod.mk.inj h
        dsimp only [Transfer.tidied, Drive.tidied]
      | failed inBuffer onDrive =>
        rw [ht] at h
        exact absurd (Prod.mk.inj h).1 (by decide)
    | _ => exact absurd (Prod.mk.inj h).1 (by decide)
  · rw [if_neg hsect] at h
    obtain ⟨-, rfl⟩ := Prod.mk.inj h
    exact if_neg hsect

end FATFS

end Miosix
