import MiosixKernel.Fat.Chain
import MiosixKernel.Util.Errno
import MiosixKernel.Lib.Code

/-!
# Files on a FAT volume

A file is read and written through a buffer of one sector, and whole sectors are transferred past the buffer.

* `FIL`, `OpenFile`: an open file, with its volume;
* `fRead`, `fWrite`, `fLseek`, `fSync`: the code of the FAT library;
* `Fat32File.read`, `Fat32File.write`, `Fat32File.lseek`, `Fat32File.sync`: what the kernel calls.
-/

namespace Miosix

open Lib

/-- `FIL`. The access mode and the bits of `flag` are fields of their own, and `dirPtr` is an offset in the window. -/
structure FIL where
  canRead : Bool
  canWrite : Bool
  written : Bool
  dirty : Bool
  err : FRESULT
  fptr : ℕ
  fsize : ℕ
  sclust : ℕ
  clust : ℕ
  dsect : ℕ
  dirSect : ℕ
  dirPtr : ℕ
  buf : ℕ → UInt8

/-- A file and its volume. -/
structure OpenFile where
  fs : FATFS
  fp : FIL

namespace FATFS

/-- 0 if there is no such cluster. -/
def clust2sect (fs : FATFS) (clst : ℕ) : ℕ :=
  let clst := u32 ((clst : ℤ) - 2)
  if fs.nFatent - 2 ≤ clst then 0 else (clst * fs.csize + fs.database) % 2 ^ 32

/-- The volume after a transfer. -/
def withDrv (fs : FATFS) (drv : Drive) : FATFS := { fs with drv := drv }

def diskRead (sector count : ℕ) (fs : FATFS) : Except (ℕ → Option UInt8) (List UInt8) × FATFS :=
  ((fs.drv.diskRead sector count).1, fs.withDrv (fs.drv.diskRead sector count).2)

def diskWrite (buff : List UInt8) (sector : ℕ) (fs : FATFS) : Bool × FATFS :=
  ((fs.drv.diskWrite buff sector).1, fs.withDrv (fs.drv.diskWrite buff sector).2)

end FATFS

namespace OpenFile

open Code

/-- What a function of the library does with an open file. -/
abbrev FileCode (α : Type) : Type := Code OpenFile FRESULT α

def setFil (g : FIL → FIL) : FileCode Unit := change fun f => { f with fp := g f.fp }

def onVolume {α : Type} (g : FATFS → α × FATFS) : FileCode α := call fun f => ((g f.fs).1, { f with fs := (g f.fs).2 })

def createChain (clst : ℕ) : FileCode ℕ := run fun f =>
  (f.fs.createChain clst f.fs.nFatent).map fun (clst, fs) => (clst, { f with fs := fs })

/-- `ABORT` -/
def abort {α : Type} (res : FRESULT) : FileCode α := do
  setFil fun fp => { fp with err := res }
  leave res

/-- The sector offset in the cluster. -/
def csect (f : OpenFile) : ℕ := (f.fp.fptr / 512 &&& (f.fs.csize - 1)) % 2 ^ 8

/-- The buffer is written back if it is dirty. -/
def writeBack (fail : FileCode Unit) : FileCode Unit := do
  let f ← read
  if f.fp.dirty then
    if ← onVolume (FATFS.diskWrite (load f.fp.buf 0 512) f.fp.dsect) then setFil fun fp => { fp with dirty := false }
    else fail
  else pure ()

/-- A sector is read into the buffer. -/
def fill (sect : ℕ) : FileCode Unit := do
  match ← onVolume (FATFS.diskRead sect 1) with
  | .ok bytes => setFil fun fp => { fp with buf := store fp.buf 0 bytes }
  | .error inBuffer => do
    setFil fun fp => { fp with buf := scribble fp.buf 0 512 inBuffer }
    abort .FR_DISK_ERR

/-- The sector at the file pointer. -/
def currentSector (csect : ℕ) : FileCode ℕ := do
  let f ← read
  let sect := f.fs.clust2sect f.fp.clust
  if sect = 0 then abort .FR_INT_ERR else pure (sect + csect)

/-! ## Reading -/

/-- The cluster at the file pointer, which is on a cluster boundary. -/
def readClust (f : OpenFile) : FileCode ℕ :=
  if f.fp.fptr = 0 then pure f.fp.sclust else onVolume fun fs => fs.getFat f.fp.clust

def enterRead : FileCode Unit := do
  let f ← read
  if f.csect = 0 then
    let clst ← readClust f
    if clst < 2 then abort .FR_INT_ERR
    else if clst = 0xFFFFFFFF then abort .FR_DISK_ERR
    else setFil fun fp => { fp with clust := clst }
  else pure ()

/-- Sectors that were read, with the one in the buffer if that is dirty. -/
def withBuffer (fp : FIL) (sect cc : ℕ) (bytes : List UInt8) : List UInt8 :=
  let i := u32 ((fp.dsect : ℤ) - sect)
  if fp.dirty ∧ i < cc then bytes.take (i * 512) ++ load fp.buf 0 512 ++ bytes.drop (i * 512 + 512) else bytes

def readDirect (sect cc : ℕ) : FileCode (List UInt8) := do
  match ← onVolume (FATFS.diskRead sect cc) with
  | .ok bytes => do
    let f ← read
    pure (withBuffer f.fp sect cc bytes)
  | .error _ => abort .FR_DISK_ERR

def loadSector (sect : ℕ) : FileCode Unit := do
  let f ← read
  onlyIf (f.fp.dsect ≠ sect) do
    writeBack (abort .FR_DISK_ERR)
    fill sect
  setFil fun fp => { fp with dsect := sect }

/-- Bytes of the sector in the buffer. -/
def pick (btr : ℕ) : FileCode (List UInt8) := do
  let f ← read
  pure (load f.fp.buf (f.fp.fptr % 512) (min (512 - f.fp.fptr % 512) btr))

/-- One pass of the loop of `f_read`. -/
def readPass (btr : ℕ) : FileCode (List UInt8) := do
  let f ← read
  if f.fp.fptr % 512 = 0 then
    enterRead
    let sect ← currentSector f.csect
    if btr / 512 ≠ 0 then readDirect sect (if f.fs.csize < f.csect + btr / 512 then f.fs.csize - f.csect else btr / 512)
    else
      loadSector sect
      pick btr
  else pick btr

def readLoop : ℕ → ℕ → List UInt8 → FileCode (List UInt8)
  | 0, _, _ => never
  | fuel + 1, btr, rbuff =>
    if btr = 0 then pure rbuff
    else do
      let bytes ← readPass btr
      setFil fun fp => { fp with fptr := fp.fptr + bytes.length }
      readLoop fuel (btr - bytes.length) (rbuff ++ bytes)

/-- The bytes that were read. -/
def fRead (btr : ℕ) : FileCode (List UInt8) := do
  let f ← read
  if f.fp.err ≠ .FR_OK then leave f.fp.err
  else if ¬ f.fp.canRead then leave .FR_DENIED
  else
    let remain := f.fp.fsize - f.fp.fptr
    readLoop (btr + 1) (if remain < btr then remain else btr) []

/-! ## Writing -/

/-- The cluster at the file pointer, which is on a cluster boundary. -/
def writeClust (f : OpenFile) : FileCode ℕ :=
  if f.fp.fptr = 0 then
    if f.fp.sclust = 0 then do
      let clst ← createChain 0
      setFil fun fp => { fp with sclust := clst }
      pure clst
    else pure f.fp.sclust
  else createChain f.fp.clust

/-- `false` if there is no cluster. -/
def enterWrite : FileCode Bool := do
  let f ← read
  if f.csect = 0 then
    let clst ← writeClust f
    if clst = 0 then pure false
    else if clst = 1 then abort .FR_INT_ERR
    else if clst = 0xFFFFFFFF then abort .FR_DISK_ERR
    else
      setFil fun fp => { fp with clust := clst }
      pure true
  else pure true

/-- The buffer after sectors were written past it. -/
def refill (fp : FIL) (sect cc : ℕ) (wbuff : List UInt8) : FIL :=
  let i := u32 ((fp.dsect : ℤ) - sect)
  if i < cc then { fp with buf := store fp.buf 0 ((wbuff.drop (i * 512)).take 512), dirty := false } else fp

def writeDirect (sect cc : ℕ) (wbuff : List UInt8) : FileCode (Option ℕ) := do
  if ← onVolume (FATFS.diskWrite (wbuff.take (512 * cc)) sect) then
    setFil fun fp => refill fp sect cc wbuff
    pure (some (512 * cc))
  else abort .FR_DISK_ERR

/-- A sector after the end of the file is not read. -/
def fillSector (sect : ℕ) : FileCode Unit := do
  let f ← read
  onlyIf (f.fp.dsect ≠ sect ∧ f.fp.fptr < f.fp.fsize) (fill sect)
  setFil fun fp => { fp with dsect := sect }

/-- Bytes are put into the buffer. -/
def put (wbuff : List UInt8) : FileCode (Option ℕ) := do
  let f ← read
  let wcnt := min (512 - f.fp.fptr % 512) wbuff.length
  setFil fun fp => { fp with buf := store fp.buf (fp.fptr % 512) (wbuff.take wcnt), dirty := true }
  pure (some wcnt)

/-- One pass of the loop of `f_write`; `none` if the loop is left. -/
def writePass (wbuff : List UInt8) : FileCode (Option ℕ) := do
  let f ← read
  if f.fp.fptr % 512 = 0 then
    if ← enterWrite then
      writeBack (abort .FR_DISK_ERR)
      let sect ← currentSector f.csect
      let cc := wbuff.length / 512
      if cc ≠ 0 then writeDirect sect (if f.fs.csize < f.csect + cc then f.fs.csize - f.csect else cc) wbuff
      else
        fillSector sect
        put wbuff
    else pure none
  else put wbuff

def writeLoop : ℕ → List UInt8 → ℕ → FileCode ℕ
  | 0, _, _ => never
  | fuel + 1, wbuff, bw =>
    if wbuff = [] then pure bw
    else do
      match ← writePass wbuff with
      | none => pure bw
      | some wcnt =>
        setFil fun fp => { fp with fptr := fp.fptr + wcnt }
        writeLoop fuel (wbuff.drop wcnt) (bw + wcnt)

/-- The number of bytes that were written. -/
def fWrite (wbuff : List UInt8) : FileCode ℕ := do
  let f ← read
  if f.fp.err ≠ .FR_OK then leave f.fp.err
  else if ¬ f.fp.canWrite then leave .FR_DENIED
  else
    let btw := if (f.fp.fptr + wbuff.length) % 2 ^ 32 < f.fp.fptr then 0 else wbuff.length
    let bw ← writeLoop (btw + 1) (wbuff.take btw) 0
    setFil fun fp => { fp with fsize := if fp.fsize < fp.fptr then fp.fptr else fp.fsize, written := true }
    pure bw

/-! ## Moving the file pointer -/

/-- The first cluster, which is allocated if there is none. -/
def firstClust : FileCode ℕ := do
  let f ← read
  if f.fp.sclust = 0 then
    let clst ← createChain 0
    if clst = 1 then abort .FR_INT_ERR
    else if clst = 0xFFFFFFFF then abort .FR_DISK_ERR
    else
      setFil fun fp => { fp with sclust := clst }
      pure clst
  else pure f.fp.sclust

/-- The cluster after another one. -/
def seekClust (f : OpenFile) (clst : ℕ) : FileCode ℕ :=
  if f.fp.canWrite then createChain clst else onVolume fun fs => fs.getFat clst

/-- The loop of `f_lseek` over the clusters, with the last one and the offset in it. -/
def seekLoop (bcs : ℕ) : ℕ → ℕ → ℕ → FileCode (ℕ × ℕ)
  | 0, _, _ => never
  | fuel + 1, clst, ofs =>
    if bcs < ofs then do
      let f ← read
      let clst ← seekClust f clst
      if f.fp.canWrite ∧ clst = 0 then pure (clst, bcs)
      else if clst = 0xFFFFFFFF then abort .FR_DISK_ERR
      else if clst ≤ 1 ∨ f.fs.nFatent ≤ clst then abort .FR_INT_ERR
      else
        setFil fun fp => { fp with clust := clst, fptr := fp.fptr + bcs }
        seekLoop bcs fuel clst (ofs - bcs)
    else pure (clst, ofs)

/-- Where the loop starts: at the current cluster, or at the first one. -/
def seekStart (f : OpenFile) (same : Prop) [Decidable same] (start : ℕ) : FileCode ℕ :=
  if same then do
    setFil fun fp => { fp with fptr := start }
    pure f.fp.clust
  else do
    let clst ← firstClust
    setFil fun fp => { fp with clust := clst }
    pure clst

/-- The end of the file pointer's way, with its sector if it is in the middle of one. -/
def seekEnd (f : OpenFile) (clst ofs : ℕ) : FileCode ℕ := do
  setFil fun fp => { fp with fptr := fp.fptr + ofs }
  if ofs % 512 ≠ 0 then
    let sect := f.fs.clust2sect clst
    if sect = 0 then abort .FR_INT_ERR else pure (sect + ofs / 512)
  else pure 0

/-- The clusters are followed to the offset. -/
def seekFrom (ifptr ofs : ℕ) : FileCode ℕ := do
  let f ← read
  let bcs := f.fs.csize * 512
  let same := 0 < ifptr ∧ (ifptr - 1) / bcs ≤ (ofs - 1) / bcs
  let start := (ifptr - 1) &&& (2 ^ 32 - bcs)
  let clst ← seekStart f same start
  if clst ≠ 0 then
    let (clst, ofs) ← seekLoop bcs (ofs + 1) clst (if same then ofs - start else ofs)
    seekEnd f clst ofs
  else pure 0

/-- The sector of the file pointer is read into the buffer if it is needed. -/
def seekFill (nsect : ℕ) : FileCode Unit := do
  let f ← read
  onlyIf (f.fp.fptr % 512 ≠ 0 ∧ nsect ≠ f.fp.dsect) do
    writeBack (abort .FR_DISK_ERR)
    fill nsect
    setFil fun fp => { fp with dsect := nsect }

/-- The file gets longer if the pointer is after its end. -/
def seekExtend : FileCode Unit := do
  let f ← read
  onlyIf (f.fp.fsize < f.fp.fptr) (setFil fun fp => { fp with fsize := f.fp.fptr, written := true })

def fLseek (ofs : ℕ) : FileCode Unit := do
  let f ← read
  if f.fp.err ≠ .FR_OK then leave f.fp.err
  else
    let ofs := if f.fp.fsize < ofs ∧ ¬ f.fp.canWrite then f.fp.fsize else ofs
    setFil fun fp => { fp with fptr := 0 }
    let nsect ← (if ofs ≠ 0 then seekFrom f.fp.fptr ofs else pure 0 : FileCode ℕ)
    seekFill nsect
    seekExtend

/-! ## Writing back -/

/-- `ld_clust` -/
def ldClust (v : Volume) (mem : ℕ → UInt8) (dir : ℕ) : ℕ :=
  let cl := ldWord mem (dir + 26)
  if v.fsType = .FS_FAT32 then cl ||| ldWord mem (dir + 20) <<< 16 else cl

/-- `st_clust` -/
def stClust (mem : ℕ → UInt8) (dir cl : ℕ) : ℕ → UInt8 := stWord (stWord mem (dir + 26) cl) (dir + 20) (cl >>> 16)

/-- `get_fattime` -/
def getFattime : ℕ := 0x210000

/-- The directory entry of the file, in the window. -/
def updateEntry (fp : FIL) (win : ℕ → UInt8) : ℕ → UInt8 :=
  let dir := fp.dirPtr
  let win := store win (dir + 11) [win (dir + 11) ||| 0x20]
  let win := stDword win (dir + 28) fp.fsize
  let win := stClust win dir fp.sclust
  let win := stDword win (dir + 22) getFattime
  stWord win (dir + 18) 0

/-- The end of `f_open`, for a file that is there: `dir` is its directory entry, in the window. -/
def fOpen (fs : FATFS) (fp : FIL) (canRead canWrite : Bool) (dir : ℕ) : OpenFile where
  fs := fs
  fp := { fp with canRead := canRead, canWrite := canWrite, written := false, dirty := false, err := .FR_OK, fptr := 0,
                  fsize := ldDword fs.win (dir + 28), sclust := ldClust fs.toVolume fs.win dir, dsect := 0,
                  dirSect := fs.winsect, dirPtr := dir }

def fSync : FileCode Unit := do
  let f ← read
  if f.fp.written then
    writeBack (leave .FR_DISK_ERR)
    let res ← onVolume fun fs => fs.moveWindow f.fp.dirSect
    if res ≠ .FR_OK then leave res
    else
      onVolume fun fs => ((), { fs with win := updateEntry f.fp fs.win, wflag := true })
      setFil fun fp => { fp with written := false }
      let res ← onVolume FATFS.syncFs
      if res ≠ .FR_OK then leave res else pure ()
  else pure ()

end OpenFile

/-! ## The kernel's calls -/

def translateError : FRESULT → ℤ
  | .FR_OK => 0
  | .FR_NO_FILE => -ENOENT
  | .FR_NO_PATH => -ENOENT
  | .FR_DENIED => -ENOSPC
  | .FR_EXIST => -EEXIST
  | .FR_WRITE_PROTECTED => -EROFS
  | .FR_LOCKED => -EBUSY
  | .FR_NOT_ENOUGH_CORE => -ENOMEM
  | .FR_TOO_MANY_OPEN_FILES => -ENFILE
  | _ => -EACCES

inductive Whence where
  | SEEK_SET | SEEK_CUR | SEEK_END | other
  deriving DecidableEq

namespace Fat32File

open Code OpenFile

/-- A call of the library, with another error. -/
def answering {α : Type} (g : FRESULT → ℤ) (m : FileCode α) : Code OpenFile ℤ α := fun f =>
  (m f).map fun (r, f) => (r.mapError g, f)

/-- `static_cast<int>` -/
def toInt (n : ℕ) : ℤ := if n % 2 ^ 32 < 2 ^ 31 then n % 2 ^ 32 else n % 2 ^ 32 - 2 ^ 32

def write (data : List UInt8) : Code OpenFile ℤ ℤ := do
  let bytesWritten ← answering translateError (fWrite data)
  answering (fun _ => - EIO) fSync
  pure (toInt bytesWritten)

/-- The bytes that were read, and the result. -/
def read (len : ℕ) : Code OpenFile ℤ (List UInt8 × ℤ) := do
  let bytes ← answering translateError (fRead len)
  pure (bytes, toInt bytes.length)

def lseek (pos : ℤ) (whence : Whence) : Code OpenFile ℤ ℤ := do
  let f ← Code.read
  let seek (offset : ℤ) : Code OpenFile ℤ ℤ :=
    if offset < 0 ∨ f.fp.fsize < offset then leave (-EOVERFLOW)
    else do
      answering translateError (fLseek offset.toNat)
      pure offset
  match whence with
  | .SEEK_CUR => seek (f.fp.fptr + pos)
  | .SEEK_SET => seek pos
  | .SEEK_END => seek (f.fp.fsize + pos)
  | .other => leave (-EINVAL)

/-- `IOCTL_SYNC` -/
def sync : Code OpenFile ℤ Unit := answering translateError fSync

end Fat32File

end Miosix
