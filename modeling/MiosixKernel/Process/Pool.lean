import MiosixKernel.Lib.Bitmap
import Mathlib.Logic.Function.Basic
import Mathlib.Tactic.NormNum

/-!
# The process pool: the model

`ProcessPool` hands out the memory of processes in blocks whose size is a power of two. A bitmap has
one bit for each KByte of the pool, and the map `allocatedBlocks` has the size of each block. An
exception leaves the state as it is where it is thrown; touching a bit outside the array of the
bitmap is the error `outOfBounds`.

* `PoolRegion`: where the pool is;
* `ProcessPool`, `ProcessPool.new`: the data and the constructor;
* `ProcessPool.allocate`, `ProcessPool.deallocate`.
-/

namespace Miosix

open Lib

/-- The size of the minimum allocatable block, in bits. -/
def blockBits : ℕ := 10

/-- The size of the minimum allocatable block, in bytes. -/
def blockSize : ℕ := 1 <<< blockBits

theorem blockSize_eq : blockSize = 1024 := rfl

/-- The memory reserved for the images of processes. -/
structure PoolRegion where
  poolBase : ℕ
  poolSize : ℕ
  base_dvd : 1024 ∣ poolBase
  size_dvd : 1024 ∣ poolSize
  size_lt : poolSize < 2 ^ 32
  addressable : poolBase + poolSize ≤ 2 ^ 32

/-- How a call can fail: the two exceptions, an access outside the bitmap, a loop that does not
end. -/
inductive PoolError where
  | runtimeError
  | badAlloc
  | outOfBounds
  | diverges
deriving DecidableEq

structure ProcessPool extends PoolRegion where
  bitmap : Bitmap
  /-- Lists all allocated blocks, allows to retrieve their sizes. -/
  allocatedBlocks : ℕ → Option ℕ

/-- A call on the pool. -/
abbrev PoolM := EStateM PoolError ProcessPool

namespace ProcessPool

/-- The constructor. `memset` clears `numBytes` bytes: the whole array, and up to three bytes behind it. -/
def new (r : PoolRegion) : ProcessPool :=
  let numBytes := r.poolSize / blockSize / 8
  { r with bitmap := .zero (numBytes / 4), allocatedBlocks := fun _ => none }

/-- An access to the bitmap. -/
def bits {α : Type} (a : Option α) : PoolM α :=
  match a with
  | some a => pure a
  | none => throw .outOfBounds

/-- The inner loop of the scan: is one of the bits from `i` set? -/
def notEmpty (i sizeBit : ℕ) : PoolM Bool := do
  bits ((← get).bitmap.anySet i sizeBit)

def setBits (i sizeBit : ℕ) : PoolM Unit := do
  let bitmap ← bits ((← get).bitmap.setRange i sizeBit)
  modify fun s => { s with bitmap := bitmap }

def clearBits (i sizeBit : ℕ) : PoolM Unit := do
  let bitmap ← bits ((← get).bitmap.clearRange i sizeBit)
  modify fun s => { s with bitmap := bitmap }

/-- The loop over the slots. -/
def scan (size sizeBit : ℕ) : ℕ → ℕ → PoolM ℕ
  | 0, _ => throw .diverges
  | fuel + 1, i => do
    let s ← get
    if i ≤ s.poolSize / blockSize then
      if ← notEmpty i sizeBit then
        scan size sizeBit fuel (i + sizeBit)
      else
        setBits i sizeBit
        let result := s.poolBase + i * blockSize
        modify fun s =>
          { s with allocatedBlocks := Function.update s.allocatedBlocks result (some size) }
        pure result
    else
      throw .badAlloc

/-- The first bit of the first slot. -/
def startBit (poolBase size : ℕ) : ℕ :=
  (if poolBase % size ≠ 0 then size - poolBase % size else 0) / blockSize

def allocate (size : ℕ) : PoolM ℕ := do
  let s ← get
  -- if size is not a power of two, or too big or small
  if size &&& (size - 1) ≠ 0 ∨ size > s.poolSize ∨ size < blockSize then
    throw .runtimeError
  scan size (size / blockSize) (s.poolSize / blockSize + 2) (startBit s.poolBase size)

def deallocate (ptr : ℕ) : PoolM Unit := do
  let s ← get
  match s.allocatedBlocks ptr with
  | none => throw .runtimeError
  | some n =>
    clearBits ((ptr - s.poolBase) / blockSize) (n / blockSize)
    modify fun s => { s with allocatedBlocks := Function.update s.allocatedBlocks ptr none }

/-! ## Calls -/

/-- A call on the pool. -/
inductive Call where
  | allocate (size : ℕ)
  | deallocate (ptr : ℕ)

/-- What a call returns: a pointer, or nothing. -/
def Call.exec : Call → PoolM (Option ℕ)
  | .allocate size => do
    let p ← ProcessPool.allocate size
    pure (some p)
  | .deallocate ptr => do
    ProcessPool.deallocate ptr
    pure none

/-- The state in which a call leaves the pool, however it ends. -/
def after (s : ProcessPool) (c : Call) : ProcessPool :=
  match c.exec s with
  | .ok _ s' => s'
  | .error _ s' => s'

/-- A sequence of calls. -/
def run (s : ProcessPool) (calls : List Call) : ProcessPool :=
  calls.foldl after s

end ProcessPool

end Miosix
