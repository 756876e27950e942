import MiosixKernel.Lib.Fault
import MiosixKernel.Process.Pool
import Mathlib.Data.List.Basic

/-!
# Programs in ELF format: the model

`ElfProgram` recognizes a program before it is run, and `ProcessImage::load` reads it again to make the
image of a process. The file is a buffer of bytes with a base address; a read outside of it is the error
`outOfBounds`, and so on for the other accesses that must not happen. Words are natural numbers below
2³², and sums and differences wrap around.

* `ElfFile`, `Ehdr`, `Phdr`: the file, its header, its program headers;
* `validateHeader`, `validateDynamicSegment`: the recognizer, where a check that returns `false` ends
  with the exception of the constructor;
* `load`: the image of the process, given a way to allocate it.
-/

namespace Miosix

open Lib

/-- How recognizing or loading a program can end: with an exception of its own or of the allocator,
with an access outside of the file or of the image, without a data segment or without an image. -/
inductive ElfError where
  | runtimeError (what : String)
  | badAlloc
  | outOfBounds
  | noDataSegment
  | noImage
  | imageOutOfBounds
deriving DecidableEq

/-- The exception of the constructor. -/
def ElfError.badFile : ElfError := .runtimeError "Bad file"

/-- Not an exception. -/
def ElfError.IsFault : ElfError → Prop
  | runtimeError _ | badAlloc => False
  | _ => True

/-- A file in memory, and if the floating point unit may be used. -/
structure ElfFile where
  base : ℕ
  bytes : List UInt8
  fpuUsed : Bool

/-- The fields of the header that are used. -/
structure Ehdr where
  ident : List UInt8
  type : ℕ
  machine : ℕ
  version : ℕ
  entry : ℕ
  phoff : ℕ
  flags : ℕ
  ehsize : ℕ
  phentsize : ℕ
  phnum : ℕ

/-- The fields of a program header that are used. -/
structure Phdr where
  type : ℕ
  offset : ℕ
  filesz : ℕ
  memsz : ℕ
  flags : ℕ
  align : ℕ

def dataBase : ℕ := 0x40000000

def maxProcessImageSize : ℕ := 64 * 1024

def minProcessStackSize : ℕ := 256

def add32 (a b : ℕ) : ℕ := (a + b) % 2 ^ 32

def sub32 (a b : ℕ) : ℕ := (a + 2 ^ 32 - b) % 2 ^ 32

/-- Go on if the condition holds. -/
def require (c : Bool) (e : ElfError) : Except ElfError Unit := if c then pure () else throw e

namespace Elf

def magic : List UInt8 := [0x7f, 0x45, 0x4c, 0x46, 1, 1, 1, 0, 0, 0, 0, 0, 0, 0, 0, 0]

def sizeofEhdr : ℕ := 52

def sizeofPhdr : ℕ := 32

def sizeofDyn : ℕ := 8

def sizeofRel : ℕ := 8

def dtRela : ℕ := 7

def dtRelasz : ℕ := 8

def dtRelaent : ℕ := 9

def dtRel : ℕ := 17

def dtRelsz : ℕ := 18

def dtRelent : ℕ := 19

def dtMxRamsize : ℕ := 0x10000000

def dtMxStacksize : ℕ := 0x10000001

def dtMxAbi : ℕ := 0x736f694d

def dvMxAbiV1 : ℕ := 0x01007869

def rArmNone : ℕ := 0

def rArmRelative : ℕ := 23

end Elf

namespace ElfFile

open Elf

/-! ## Reading the file -/

def size (f : ElfFile) : ℕ := f.bytes.length

def byte (f : ElfFile) (off : ℕ) : ℕ := (f.bytes.getD off 0).toNat

/-- The little endian half word at an offset. -/
def half (f : ElfFile) (off : ℕ) : ℕ := f.byte off + 256 * f.byte (off + 1)

/-- The little endian word at an offset. -/
def word (f : ElfFile) (off : ℕ) : ℕ := f.half off + 65536 * f.half (off + 2)

def readWord (f : ElfFile) (off : ℕ) : Except ElfError ℕ :=
  if off + 4 ≤ f.size then pure (f.word off) else throw .outOfBounds

def ehdr (f : ElfFile) : Ehdr where
  ident := f.bytes.take 16
  type := f.half 16
  machine := f.half 18
  version := f.word 20
  entry := f.word 24
  phoff := f.word 28
  flags := f.word 36
  ehsize := f.half 40
  phentsize := f.half 42
  phnum := f.half 44

def readEhdr (f : ElfFile) : Except ElfError Ehdr :=
  if sizeofEhdr ≤ f.size then pure f.ehdr else throw .outOfBounds

def phdr (f : ElfFile) (off : ℕ) : Phdr where
  type := f.word off
  offset := f.word (off + 4)
  filesz := f.word (off + 16)
  memsz := f.word (off + 20)
  flags := f.word (off + 24)
  align := f.word (off + 28)

def readPhdr (f : ElfFile) (off : ℕ) : Except ElfError Phdr :=
  if off + sizeofPhdr ≤ f.size then pure (f.phdr off) else throw .outOfBounds

end ElfFile

/-! ## Recognition -/

namespace Phdr

def isLoad (ph : Phdr) : Bool := ph.type == 1

def isDynamic (ph : Phdr) : Bool := ph.type == 2

def pfX (ph : Phdr) : Bool := ph.flags &&& 1 != 0

def pfW (ph : Phdr) : Bool := ph.flags &&& 2 != 0

def pfR (ph : Phdr) : Bool := ph.flags &&& 4 != 0

/-- Writable and not executable. -/
def isData (ph : Phdr) : Bool := ph.isLoad && ph.pfW && !ph.pfX

/-- The checks that are made for every segment. -/
def checkRange (ph : Phdr) (size : ℕ) : Except ElfError Unit := do
  require (ph.offset < size) .badFile
  require (ph.filesz < size) .badFile
  require (add32 ph.offset ph.filesz ≤ size) .badFile
  if ph.align = 1 then pure ()
  else if ph.align = 4 then require (ph.offset % 4 = 0) .badFile
  else if ph.align = 8 then require (ph.offset % 8 = 0) .badFile
  else throw (.runtimeError "Unsupported segment alignment")

end Phdr

/-- What the recognizer has seen so far. -/
structure Segments where
  codeSegmentPresent : Bool
  dataSegmentPresent : Bool
  dynamicSegmentPresent : Bool
  dataSegmentSize : ℕ

/-- The checks of a segment of type `PT_LOAD`. -/
def Segments.checkLoad (st : Segments) (ph : Phdr) (entry : ℕ) : Except ElfError Segments := do
  require (ph.flags < 8) .badFile
  require ph.pfR .badFile
  require (!(ph.pfW && ph.pfX)) (.runtimeError "File violates W^X")
  if ph.pfX then
    require (!st.codeSegmentPresent) .badFile
    require (ph.offset ≤ entry && entry ≤ add32 ph.offset ph.filesz && ph.filesz == ph.memsz) .badFile
    pure { st with codeSegmentPresent := true }
  else if ph.pfW then
    require (!st.dataSegmentPresent) .badFile
    require (ph.filesz ≤ ph.memsz) .badFile
    require (ph.memsz < maxProcessImageSize - minProcessStackSize)
      (.runtimeError "Data segment too big")
    pure { st with dataSegmentPresent := true, dataSegmentSize := ph.memsz }
  else pure st

/-- What the recognizer has seen of the dynamic segment. -/
structure DynamicTags where
  dtRel : ℕ
  dtRelsz : ℕ
  hasRelocs : ℕ
  miosixTagFound : Bool
  ramSize : ℕ
  stackSize : ℕ

/-- The checks on what the dynamic segment says. -/
def DynamicTags.check (d : DynamicTags) (dataSegmentSize : ℕ) : Except ElfError Unit := do
  require d.miosixTagFound (.runtimeError "Not a Miosix executable")
  require (minProcessStackSize ≤ d.stackSize) (.runtimeError "Requested stack is too small")
  require (d.ramSize ≤ maxProcessImageSize) (.runtimeError "Requested image size is too large")
  require (d.stackSize % 4 = 0 && d.ramSize % 4 = 0 && blockSize ≤ d.ramSize &&
    d.stackSize ≤ maxProcessImageSize && dataSegmentSize ≤ maxProcessImageSize &&
    add32 dataSegmentSize d.stackSize ≤ d.ramSize) (.runtimeError "Invalid stack or RAM size")
  require (d.hasRelocs = 0 || d.hasRelocs = 7) .badFile

namespace ElfFile

open Elf

/-- One entry of the dynamic segment. -/
def scanEntry (f : ElfFile) (off : ℕ) (d : DynamicTags) : Except ElfError DynamicTags := do
  let tag ← f.readWord off
  if tag = dtRel then do
    let ptr ← f.readWord (off + 4)
    pure { d with hasRelocs := d.hasRelocs ||| 1, dtRel := ptr }
  else if tag = dtRelsz then do
    let val ← f.readWord (off + 4)
    pure { d with hasRelocs := d.hasRelocs ||| 2, dtRelsz := val }
  else if tag = dtRelent then do
    let val ← f.readWord (off + 4)
    require (val = sizeofRel) .badFile
    pure { d with hasRelocs := d.hasRelocs ||| 4 }
  else if tag = dtMxAbi then do
    let val ← f.readWord (off + 4)
    require (val = dvMxAbiV1) (.runtimeError "Unknown/unsupported DT_MX_ABI")
    pure { d with miosixTagFound := true }
  else if tag = dtMxRamsize then do
    let val ← f.readWord (off + 4)
    pure { d with ramSize := val }
  else if tag = dtMxStacksize then do
    let val ← f.readWord (off + 4)
    pure { d with stackSize := val }
  else if tag = dtRela ∨ tag = dtRelasz ∨ tag = dtRelaent then
    throw (.runtimeError "RELA relocations unsupported")
  else pure d

/-- The loop over the entries of the dynamic segment. -/
def scanDynamic (f : ElfFile) : ℕ → ℕ → DynamicTags → Except ElfError DynamicTags
  | 0, _, d => pure d
  | n + 1, off, d => do
    let d ← f.scanEntry off d
    f.scanDynamic n (off + sizeofDyn) d

/-- One relocation. -/
def checkRelocation (f : ElfFile) (dataSegmentSize off : ℕ) : Except ElfError Unit := do
  let info ← f.readWord (off + 4)
  if info % 256 = rArmNone then pure ()
  else if info % 256 = rArmRelative then do
    let offset ← f.readWord off
    require (dataBase ≤ offset) .badFile
    require (offset ≤ sub32 (add32 dataBase dataSegmentSize) 4) .badFile
    require (offset % 4 = 0) .badFile
  else throw (.runtimeError "Unexpected relocation type")

/-- The loop over the relocations. -/
def checkRelocations (f : ElfFile) (dataSegmentSize : ℕ) : ℕ → ℕ → Except ElfError Unit
  | 0, _ => pure ()
  | n + 1, off => do
    f.checkRelocation dataSegmentSize off
    f.checkRelocations dataSegmentSize n (off + sizeofRel)

def validateDynamicSegment (f : ElfFile) (dynamic : Phdr) (dataSegmentSize : ℕ) :
    Except ElfError Unit := do
  let d ← f.scanDynamic (dynamic.memsz / sizeofDyn) dynamic.offset ⟨0, 0, 0, false, 0, 0⟩
  d.check dataSegmentSize
  if d.hasRelocs ≠ 0 then
    require (d.dtRel < f.size) .badFile
    require (d.dtRelsz < f.size) .badFile
    require (add32 d.dtRel d.dtRelsz ≤ f.size) .badFile
    require (d.dtRel % 4 = 0) .badFile
    f.checkRelocations dataSegmentSize (d.dtRelsz / sizeofRel) d.dtRel
  else pure ()

def checkSegment (f : ElfFile) (entry : ℕ) (ph : Phdr) (st : Segments) : Except ElfError Segments := do
  ph.checkRange f.size
  if ph.isLoad then st.checkLoad ph entry
  else if ph.isDynamic then do
    require (!st.dynamicSegmentPresent) .badFile
    -- the dynamic segment must come after the data segment
    require st.dataSegmentPresent .badFile
    require (4 ≤ ph.align) .badFile
    f.validateDynamicSegment ph st.dataSegmentSize
    pure { st with dynamicSegmentPresent := true }
  else pure st

/-- The loop over the program headers. -/
def checkSegments (f : ElfFile) (entry : ℕ) : ℕ → ℕ → Segments → Except ElfError Segments
  | 0, _, st => pure st
  | n + 1, off, st => do
    let ph ← f.readPhdr off
    let st ← f.checkSegment entry ph st
    f.checkSegments entry n (off + sizeofPhdr) st

/-- The checks of the header. -/
def checkEhdr (f : ElfFile) (e : Ehdr) : Except ElfError Unit := do
  require (e.ident = magic) (.runtimeError "Unrecognized format")
  require (e.type = 2) (.runtimeError "Not an executable")
  require (e.machine = 0x28) (.runtimeError "Wrong CPU arch")
  require (e.version = 1) .badFile
  require (e.entry < f.size) .badFile
  require (e.phoff < sub32 f.size sizeofPhdr) .badFile
  require (e.phoff % 4 = 0) .badFile
  require (e.flags &&& 0xff000000 = 0x05000000) .badFile
  require (f.fpuUsed || e.flags &&& 0x400 = 0) (.runtimeError "FPU required")
  require (e.ehsize = sizeofEhdr) .badFile
  require (e.phentsize = sizeofPhdr) .badFile
  require (e.phnum ≤ 20) (.runtimeError "Too many segments")
  require (add32 e.phoff (e.phnum * sizeofPhdr) ≤ f.size) .badFile

/-- The constructor of `ElfProgram`. -/
def validateHeader (f : ElfFile) : Except ElfError Unit := do
  require (f.base % 8 = 0) (.runtimeError "Elf file load address alignment error")
  require (sizeofEhdr ≤ f.size) .badFile
  let e ← f.readEhdr
  f.checkEhdr e
  let st ← f.checkSegments e.entry e.phnum e.phoff ⟨false, false, false, 0⟩
  require st.codeSegmentPresent .badFile

end ElfFile

/-! ## Loading -/

/-- What `load` has found. The image is a block of memory. -/
structure Loading where
  dataSegment : Option Phdr
  dtRel : ℕ
  dtRelsz : ℕ
  hasRelocs : Bool
  image : Option (List UInt8)
  /-- How often the allocator was called. -/
  calls : ℕ

/-- `ProcessPool::allocate`, as a function of the number of earlier calls and the size: it throws, or
returns a block. -/
abbrev Allocate := ℕ → ℕ → Option (List UInt8)

namespace Image

def byte (image : List UInt8) (off : ℕ) : ℕ := (image.getD off 0).toNat

def word (image : List UInt8) (off : ℕ) : ℕ :=
  byte image off + 256 * byte image (off + 1) + 65536 * byte image (off + 2) +
    16777216 * byte image (off + 3)

def wordBytes (w : ℕ) : List UInt8 :=
  [UInt8.ofNat w, UInt8.ofNat (w / 256), UInt8.ofNat (w / 65536), UInt8.ofNat (w / 16777216)]

/-- Write bytes into the image. -/
def write (image : List UInt8) (off : ℕ) (l : List UInt8) : Except ElfError (List UInt8) :=
  if off + l.length ≤ image.length then
    pure (image.take off ++ l ++ image.drop (off + l.length))
  else throw .imageOutOfBounds

def readWord (image : List UInt8) (off : ℕ) : Except ElfError ℕ :=
  if off + 4 ≤ image.length then pure (word image off) else throw .imageOutOfBounds

end Image

namespace ElfFile

open Elf

/-- One entry of the dynamic segment. -/
def loadEntry (f : ElfFile) (allocate : Allocate) (off : ℕ) (l : Loading) :
    Except ElfError Loading := do
  let tag ← f.readWord off
  if tag = dtRel then do
    let ptr ← f.readWord (off + 4)
    pure { l with hasRelocs := true, dtRel := ptr }
  else if tag = dtRelsz then do
    let val ← f.readWord (off + 4)
    pure { l with hasRelocs := true, dtRelsz := val }
  else if tag = dtMxRamsize then do
    let val ← f.readWord (off + 4)
    match allocate l.calls val with
    | some image => pure { l with image := some image, calls := l.calls + 1 }
    | none => throw .badAlloc
  else pure l

/-- The loop over the entries of the dynamic segment. -/
def loadDynamic (f : ElfFile) (allocate : Allocate) : ℕ → ℕ → Loading → Except ElfError Loading
  | 0, _, l => pure l
  | n + 1, off, l => do
    let l ← f.loadEntry allocate off l
    f.loadDynamic allocate n (off + sizeofDyn) l

def loadSegment (f : ElfFile) (allocate : Allocate) (ph : Phdr) (l : Loading) :
    Except ElfError Loading :=
  if ph.isLoad then
    if ph.pfW && !ph.pfX then pure { l with dataSegment := some ph } else pure l
  else if ph.isDynamic then f.loadDynamic allocate (ph.memsz / sizeofDyn) ph.offset l
  else pure l

/-- The loop over the program headers. -/
def loadSegments (f : ElfFile) (allocate : Allocate) : ℕ → ℕ → Loading → Except ElfError Loading
  | 0, _, l => pure l
  | n + 1, off, l => do
    let ph ← f.readPhdr off
    let l ← f.loadSegment allocate ph l
    f.loadSegments allocate n (off + sizeofPhdr) l

/-- Read a part of the file. -/
def readBytes (f : ElfFile) (off n : ℕ) : Except ElfError (List UInt8) :=
  if off + n ≤ f.size then pure ((f.bytes.drop off).take n) else throw .outOfBounds

/-- One relocation. -/
def relocateEntry (f : ElfFile) (ramBase off : ℕ) (image : List UInt8) :
    Except ElfError (List UInt8) := do
  let offset := sub32 (← f.readWord off) dataBase / 4
  let info ← f.readWord (off + 4)
  if info % 256 = rArmRelative then do
    let w ← Image.readWord image (offset * 4)
    let base := if dataBase ≤ w then sub32 ramBase dataBase else f.base
    Image.write image (offset * 4) (Image.wordBytes (add32 w base))
  else pure image

/-- The loop over the relocations. -/
def relocate (f : ElfFile) (ramBase : ℕ) : ℕ → ℕ → List UInt8 → Except ElfError (List UInt8)
  | 0, _, image => pure image
  | n + 1, off, image => do
    let image ← f.relocateEntry ramBase off image
    f.relocate ramBase n (off + sizeofRel) image

/-- The second part of `load`: copy the data segment, zero what is not in the file, relocate. -/
def fillImage (f : ElfFile) (ramBase : ℕ) (l : Loading) (data : Phdr) (image : List UInt8) :
    Except ElfError (List UInt8) := do
  let dataSegmentInFile ← f.readBytes data.offset data.filesz
  let image ← Image.write image 0 dataSegmentInFile
  let image ← Image.write image data.filesz (List.replicate (sub32 data.memsz data.filesz) 0)
  if l.hasRelocs then f.relocate ramBase (l.dtRelsz / sizeofRel) l.dtRel image else pure image

/-- `ProcessImage::load`, which makes the image of a process. -/
def load (f : ElfFile) (allocate : Allocate) (ramBase : ℕ) : Except ElfError (List UInt8) := do
  let e ← f.readEhdr
  let l ← f.loadSegments allocate e.phnum e.phoff ⟨none, 0, 0, false, none, 0⟩
  match l.dataSegment, l.image with
  | none, _ => throw .noDataSegment
  | _, none => throw .noImage
  | some data, some image => f.fillImage ramBase l data image

end ElfFile

end Miosix
