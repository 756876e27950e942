import MiosixKernel.Fat.File
import MiosixKernel.Fat.LongName

/-!
# Directories on a FAT volume

A directory is a table of entries of 32 bytes, which are looked at one after the other through the window.

* `DIR_`, `OpenDir`: a directory object, with its volume;
* `dirSdi`, `dirNext`: moving through the table;
* `dirFind`, `dirRead`: looking for a name, and reading the next one;
* `dirAlloc`, `dirRegister`, `dirRemove`: entries for a new name, and those of a name that is removed.
-/

namespace Miosix

open Lib

/-- `NS_LOSS`, `NS_LFN`, `NS_BODY`, `NS_EXT` -/
def nsLoss : UInt8 := 0x01
def nsLfn : UInt8 := 0x02
def nsBody : UInt8 := 0x08
def nsExt : UInt8 := 0x10

/-- `AM_VOL` -/
def amVol : UInt8 := 0x08

/-- `AM_MASK` -/
def amMask : UInt8 := 0x3F

/-- `DIR_`. The name status `fn[NS]` is a field of its own, `dir` is an offset in the window, and `hasLfn` tells if the
pointer to the buffer for long names is not null. -/
structure DIR_ where
  sclust : ℕ
  index : ℕ
  clust : ℕ
  sect : ℕ
  dir : ℕ
  fn : List UInt8
  ns : UInt8
  hasLfn : Bool
  lfnbuf : ℕ → ℕ
  lfnIdx : ℕ

/-- A directory and its volume, with the fields of `FATFS` that tell where the root directory is. -/
structure OpenDir where
  fs : FATFS
  nRootdir : ℕ
  dirbase : ℕ
  dp : DIR_

/-- The entry at an address. -/
def entryAt (mem : ℕ → UInt8) (a : ℕ) : DirEntry := fun k => if k < 32 then mem (a + k) else 0

def sumSfn (sfn : List UInt8) : UInt8 := sfn.foldl (fun sum c => (sum >>> 1) + (sum <<< 7) + c) 0

/-! ## Numbered names -/

/-- The hash number, over at most so many characters. -/
def hashLoop (lfn : ℕ → ℕ) : ℕ → ℕ → ℕ → ℕ
  | 0, _, seq => seq
  | fuel + 1, j, seq =>
    let seq := (seq / 2 + seq * 2 ^ 15 + lfn j) % 2 ^ 16
    if lfn (j + 1) ≠ 0 then hashLoop lfn fuel (j + 1) seq else seq

/-- The digits before those that are there. -/
def hexLoop : ℕ → ℕ → List UInt8 → List UInt8
  | 0, _, ns => ns
  | fuel + 1, seq, ns =>
    let c := seq % 16 + 0x30
    let ns := UInt8.ofNat (if 0x39 < c then c + 7 else c) :: ns
    if seq / 16 ≠ 0 then hexLoop fuel (seq / 16) ns else ns

def genNumname (src : List UInt8) (lfn : ℕ → ℕ) (seq : ℕ) : List UInt8 :=
  let seq := if 5 < seq then hashLoop lfn (maxLfn + 1) 0 seq else seq
  let ns := 0x7E :: hexLoop 4 seq []
  let j := min (8 - ns.length) (src.findIdx (· = 0x20))
  (src.take j ++ ns ++ List.replicate 8 0x20).take 8 ++ src.drop 8

namespace OpenDir

open Code

/-- What a function of the library does with a directory. -/
abbrev DirCode (α : Type) : Type := Code OpenDir FRESULT α

def setDir (g : DIR_ → DIR_) : DirCode Unit := change fun d => { d with dp := g d.dp }

def onVolume {α : Type} (g : FATFS → α × FATFS) : DirCode α := call fun d => ((g d.fs).1, { d with fs := (g d.fs).2 })

def check (res : FRESULT) : DirCode Unit := if res = .FR_OK then pure () else leave res

/-- The answer of a function, which is not left. -/
def attempt (m : DirCode Unit) : DirCode FRESULT := fun d =>
  match m d with
  | some (.ok _, d) => some (.ok .FR_OK, d)
  | some (.error res, d) => some (.ok res, d)
  | none => none

/-- `if (res == r) res = r'` -/
def instead (r r' : FRESULT) (m : DirCode Unit) : DirCode Unit := do
  let res ← attempt m
  check (if res = r then r' else res)

/-! ## Moving through the table -/

/-- The loop of `dir_sdi` over the clusters. -/
def sdiLoop (ic : ℕ) : ℕ → ℕ → ℕ → DirCode (ℕ × ℕ)
  | 0, _, _ => never
  | fuel + 1, clst, idx =>
    if ic ≤ idx then do
      let nxt ← onVolume fun fs => fs.getFat clst
      let d ← read
      if nxt = 0xFFFFFFFF then leave .FR_DISK_ERR
      else if nxt < 2 ∨ d.fs.nFatent ≤ nxt then leave .FR_INT_ERR
      else sdiLoop ic fuel nxt (idx - ic)
    else pure (clst, idx)

/-- A static table. -/
def sdiStatic (idx : ℕ) : DirCode Unit := do
  setDir fun dp => { dp with clust := 0 }
  let d ← read
  if d.nRootdir ≤ idx then leave .FR_INT_ERR
  else setDir fun dp => { dp with sect := d.dirbase + idx / 16, dir := idx % 16 * 32 }

/-- A dynamic table. -/
def sdiDynamic (clst idx : ℕ) : DirCode Unit := do
  let d ← read
  let (clst, idx) ← sdiLoop (16 * d.fs.csize) (idx + 1) clst idx
  setDir fun dp => { dp with clust := clst, sect := d.fs.clust2sect clst + idx / 16, dir := idx % 16 * 32 }

def dirSdi (idx : ℕ) : DirCode Unit := do
  setDir fun dp => { dp with index := idx }
  let d ← read
  if d.dp.sclust = 1 ∨ d.fs.nFatent ≤ d.dp.sclust then leave .FR_INT_ERR
  else
    let clst := if d.dp.sclust = 0 ∧ d.fs.fsType = .FS_FAT32 then d.dirbase else d.dp.sclust
    if clst = 0 then sdiStatic idx else sdiDynamic clst idx

def createChain (clst : ℕ) : DirCode ℕ := run fun d =>
  (d.fs.createChain clst d.fs.nFatent).map fun (clst, fs) => (clst, { d with fs := fs })

/-- The sectors of a new cluster are filled with zeros. -/
def cleanLoop : ℕ → DirCode Unit
  | 0 => pure ()
  | n + 1 => do
    onVolume fun fs => ((), fs.setDirty)
    let res ← onVolume FATFS.syncWindow
    if res ≠ .FR_OK then leave .FR_DISK_ERR
    else do
      onVolume fun fs => ((), { fs with winsect := fs.winsect + 1 })
      cleanLoop n

/-- The table gets a new cluster. -/
def stretchTable : DirCode ℕ := do
  let d ← read
  let clst ← createChain d.dp.clust
  if clst = 0 then leave .FR_DENIED
  else if clst = 1 then leave .FR_INT_ERR
  else if clst = 0xFFFFFFFF then leave .FR_DISK_ERR
  else do
    let res ← onVolume FATFS.syncWindow
    if res ≠ .FR_OK then leave .FR_DISK_ERR
    else do
      onVolume fun fs => ((), { fs with win := fun _ => 0, winsect := fs.clust2sect clst })
      cleanLoop d.fs.csize
      onVolume fun fs => ((), { fs with winsect := fs.winsect - d.fs.csize })
      pure clst

def toClust (clst : ℕ) : DirCode Unit := do
  let d ← read
  setDir fun dp => { dp with clust := clst, sect := d.fs.clust2sect clst }

/-- The next cluster of a dynamic table. -/
def nextClust (stretch : Bool) : DirCode Unit := do
  let d ← read
  let clst ← onVolume fun fs => fs.getFat d.dp.clust
  if clst ≤ 1 then leave .FR_INT_ERR
  else if clst = 0xFFFFFFFF then leave .FR_DISK_ERR
  else if d.fs.nFatent ≤ clst then
    if stretch then stretchTable >>= toClust else leave .FR_NO_FILE
  else toClust clst

/-- The next sector, for the entry `i`. -/
def nextSect (stretch : Bool) (i : ℕ) : DirCode Unit := do
  setDir fun dp => { dp with sect := dp.sect + 1 }
  let d ← read
  if d.dp.clust = 0 then
    if d.nRootdir ≤ i then leave .FR_NO_FILE else pure ()
  else onlyIf ((i / 16 &&& (d.fs.csize - 1)) = 0) (nextClust stretch)

def dirNext (stretch : Bool) : DirCode Unit := do
  let d ← read
  let i := (d.dp.index + 1) % 2 ^ 16
  if i = 0 ∨ d.dp.sect = 0 then leave .FR_NO_FILE
  else do
    onlyIf (i % 16 = 0) (nextSect stretch i)
    setDir fun dp => { dp with index := i, dir := i % 16 * 32 }

/-! ## Looking at the entries -/

/-- The sector of the entry is in the window. -/
def toWindow : DirCode Unit := do
  let d ← read
  let res ← onVolume fun fs => fs.moveWindow d.dp.sect
  check res

/-- The entry, in the window. -/
def entry (d : OpenDir) : DirEntry := entryAt d.fs.win d.dp.dir

/-- What an entry says: the table ends, the entry is the one, or the next one is looked at. -/
inductive Verdict where
  | ended
  | found (lfnIdx : ℕ)
  | goOn (ord sum : UInt8) (lfnIdx : ℕ) (lfnbuf : ℕ → ℕ)

/-- One entry in the loop of `dir_find`. -/
def findEntry (dp : DIR_) (dir : DirEntry) (ord sum : UInt8) : Verdict :=
  let c := dir 0
  let a := dir 11 &&& amMask
  if c = 0 then .ended
  else if c = deletedMark ∨ a &&& amVol ≠ 0 ∧ a ≠ amLfn then .goOn 0xFF sum dp.lfnIdx dp.lfnbuf
  else if a = amLfn then
    if dp.hasLfn then
      let start := c &&& 0x40 ≠ 0
      let sum := if start then dir 13 else sum
      let ord := if start then c - 0x40 else ord
      let c := if start then c - 0x40 else c
      .goOn (if c = ord ∧ sum = dir 13 ∧ cmpLfn dp.lfnbuf dir then ord - 1 else 0xFF) sum
        (if start then dp.index else dp.lfnIdx) dp.lfnbuf
    else .goOn ord sum dp.lfnIdx dp.lfnbuf
  else if ord = 0 ∧ sum = sumSfn (load dir 0 11) then .found dp.lfnIdx
  else if dp.ns &&& nsLoss = 0 ∧ load dir 0 11 = dp.fn then .found 0xFFFF
  else .goOn 0xFF sum 0xFFFF dp.lfnbuf

/-- One entry in the loop of `dir_read`. -/
def readEntry (dp : DIR_) (dir : DirEntry) (ord sum : UInt8) : Verdict :=
  let c := dir 0
  let a := dir 11 &&& amMask
  if c = 0 then .ended
  else if c = deletedMark ∨ c = 0x2E ∨ a = amVol then .goOn 0xFF sum dp.lfnIdx dp.lfnbuf
  else if a = amLfn then
    let start := c &&& 0x40 ≠ 0
    let sum := if start then dir 13 else sum
    let ord := if start then c - 0x40 else ord
    let c := if start then c - 0x40 else c
    let lfnIdx := if start then dp.index else dp.lfnIdx
    if c = ord ∧ sum = dir 13 then
      let (picked, lfnbuf) := pickLfn dp.lfnbuf dir
      .goOn (if picked then ord - 1 else 0xFF) sum lfnIdx lfnbuf
    else .goOn 0xFF sum lfnIdx dp.lfnbuf
  else .found (if ord ≠ 0 ∨ sum ≠ sumSfn (load dir 0 11) then 0xFFFF else dp.lfnIdx)

/-- The loop over the entries. -/
def scanLoop (look : DIR_ → DirEntry → UInt8 → UInt8 → Verdict) : ℕ → UInt8 → UInt8 → DirCode Unit
  | 0, _, _ => never
  | fuel + 1, ord, sum => do
    toWindow
    let d ← read
    match look d.dp d.entry ord sum with
    | .ended => leave .FR_NO_FILE
    | .found lfnIdx => setDir fun dp => { dp with lfnIdx := lfnIdx }
    | .goOn ord sum lfnIdx lfnbuf => do
      setDir fun dp => { dp with lfnIdx := lfnIdx, lfnbuf := lfnbuf }
      dirNext false
      scanLoop look fuel ord sum

def dirFind : DirCode Unit := do
  dirSdi 0
  scanLoop findEntry (2 ^ 16) 0xFF 0xFF

/-- `dir_read` of files and directories. -/
def dirRead : DirCode Unit := do
  let d ← read
  let res ← attempt (if d.dp.sect = 0 then leave .FR_NO_FILE else scanLoop readEntry (2 ^ 16) 0xFF 0xFF)
  onlyIf (res ≠ .FR_OK) (setDir fun dp => { dp with sect := 0 })
  check res

/-- `dp->sect = 0` at the end of the table, which is no error. -/
def atEnd (m : DirCode Unit) : DirCode Unit := do
  let res ← attempt m
  onlyIf (res = .FR_NO_FILE) (setDir fun dp => { dp with sect := 0 })
  check (if res = .FR_NO_FILE then .FR_OK else res)

/-- What `get_fileinfo` looks at: the entry, and the buffer when a long name is in it. -/
def fileinfo (d : OpenDir) : Option (DirEntry × Option (ℕ → ℕ)) :=
  if d.dp.sect ≠ 0 then some (d.entry, if d.dp.lfnIdx ≠ 0xFFFF then some d.dp.lfnbuf else none) else none

/-- `f_readdir` with a `fno`. -/
def fReaddir : DirCode (Option (DirEntry × Option (ℕ → ℕ))) := do
  atEnd dirRead
  let d ← read
  atEnd (dirNext false)
  pure d.fileinfo

/-! ## Changing the entries -/

/-- The entry in the window is changed. -/
def edit (g : DirEntry → DirEntry) : DirCode Unit :=
  change fun d => { d with fs := d.fs.patch d.dp.dir (load (g d.entry) 0 32) }

/-- The loop of `dir_alloc`, after `n` blank entries. -/
def allocLoop (nent : ℕ) : ℕ → ℕ → DirCode Unit
  | 0, _ => never
  | fuel + 1, n => do
    toWindow
    let d ← read
    if d.entry 0 = deletedMark ∨ d.entry 0 = 0 then
      if n + 1 = nent then pure ()
      else do
        dirNext true
        allocLoop nent fuel (n + 1)
    else do
      dirNext true
      allocLoop nent fuel 0

def dirAlloc (nent : ℕ) : DirCode Unit := instead .FR_NO_FILE .FR_DENIED do
  dirSdi 0
  allocLoop nent (2 ^ 16) 0

/-- The loop over the numbers, of which so many are left. -/
def numberLoop (sn : List UInt8) : ℕ → ℕ → DirCode Unit
  | 0, _ => leave .FR_DENIED
  | left + 1, n => do
    setDir fun dp => { dp with fn := genNumname sn dp.lfnbuf n }
    let res ← attempt dirFind
    if res = .FR_OK then numberLoop sn left (n + 1)
    else if res ≠ .FR_NO_FILE then leave res
    else pure ()

/-- A numbered name that is in no entry. -/
def numberName : DirCode Unit := do
  let d ← read
  setDir fun dp => { dp with ns := 0, hasLfn := false }
  numberLoop d.dp.fn 99 1
  setDir fun dp => { dp with ns := d.dp.ns, hasLfn := d.dp.hasLfn }

/-- How long the name in the buffer is. -/
def lfnLength (lfnbuf : ℕ → ℕ) : ℕ := (List.range (maxLfn + 1)).findIdx fun n => lfnbuf n = 0

/-- The loop over the entries of the long name, the last part first. -/
def fitLoop (sum : UInt8) : ℕ → DirCode Unit
  | 0 => pure ()
  | ne + 1 => do
    toWindow
    let d ← read
    edit fun dir => fitLfn d.dp.lfnbuf dir (ne + 1) sum
    dirNext false
    fitLoop sum ne

/-- The entries of the long name, of which there are `ne`. -/
def fitEntries (ne : ℕ) : DirCode Unit := do
  let d ← read
  dirSdi ((d.dp.index + 2 ^ 16 - ne) % 2 ^ 16)
  fitLoop (sumSfn d.dp.fn) ne

/-- The entry of the short name. -/
def sfnEntry (dp : DIR_) : DirEntry := store (store (fun _ => 0) 0 dp.fn) 12 [dp.ns &&& (nsBody ||| nsExt)]

def dirRegister : DirCode Unit := do
  let d ← read
  onlyIf (d.dp.ns &&& nsLoss ≠ 0) numberName
  let ne := if d.dp.ns &&& nsLfn ≠ 0 then (lfnLength d.dp.lfnbuf + 25) / 13 else 1
  dirAlloc ne
  onlyIf (ne - 1 ≠ 0) (fitEntries (ne - 1))
  toWindow
  let d ← read
  edit fun _ => sfnEntry d.dp

/-- The loop of `dir_remove`, up to the entry `i`. -/
def removeLoop (i : ℕ) : ℕ → DirCode Unit
  | 0 => never
  | fuel + 1 => do
    toWindow
    edit fun dir => store dir 0 [deletedMark]
    let d ← read
    if i ≤ d.dp.index then pure ()
    else do
      dirNext false
      removeLoop i fuel

def dirRemove : DirCode Unit := instead .FR_NO_FILE .FR_INT_ERR do
  let d ← read
  dirSdi (if d.dp.lfnIdx = 0xFFFF then d.dp.index else d.dp.lfnIdx)
  removeLoop d.dp.index (2 ^ 16)

end OpenDir

end Miosix
