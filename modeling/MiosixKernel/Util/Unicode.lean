import MiosixKernel.Lib.PrefixCode
import Mathlib.Tactic.IntervalCases
import Mathlib.Data.Nat.Bitwise

/-!
# Conversion between UTF-8 and UTF-16: the model

A pointer into the source is the rest of the string, with the nul that ends it, and reading past its end is
a fault. A pointer into the destination is an offset into the buffer, and writing past its end is a fault.
A fault is `none`.

* `nextUtf8`, `putUtf8`, `utf8toutf16`, `utf16toutf8`: the code;
* `Scalar`, `utf8`, `utf16`: the code points and their encodings.
-/

namespace Miosix

open Lib

namespace Unicode

inductive Error where
  | ok
  | insufficientSpace
  | invalidString
deriving DecidableEq

/-! ## Reading UTF-8 -/

/-- Represents an invalid code point. -/
def invalid : ℕ := 0xffffffff

/-- The loop over the additional bytes. `checkEnd` says that the end of the list is the end of the string. -/
def nextUtf8Loop (checkEnd : Bool) : ℕ → ℕ → List ℕ → Option (ℕ × List ℕ)
  | 0, c, it => some (c, it)
  | _ + 1, _, [] => if checkEnd then some (invalid, []) else none
  | i + 1, c, next :: it =>
    if next &&& 0xc0 ≠ 0x80 then some (invalid, it)
    else nextUtf8Loop checkEnd i (c <<< 6 ||| next &&& 0x3f) it

/-- What is checked once a code point of two bytes or more was decoded. -/
def checkCodePoint (additionalBytes c : ℕ) : ℕ :=
  if additionalBytes = 1 ∧ c < 0x80 then invalid
  else if additionalBytes = 2 ∧ c < 0x800 then invalid
  else if additionalBytes = 3 ∧ c < 0x10000 then invalid
  else if 0xd800 ≤ c ∧ c ≤ 0xdfff then invalid
  else if 0x10ffff < c then invalid
  else c

/-- The part of `nextUtf8` after the first byte, which announces more bytes. -/
def nextUtf8Tail (checkEnd : Bool) (additionalBytes c : ℕ) (it : List ℕ) : Option (ℕ × List ℕ) := do
  let (c, it) ← nextUtf8Loop checkEnd additionalBytes c it
  if c = invalid then some (invalid, it) else some (checkCodePoint additionalBytes c, it)

def nextUtf8 (checkEnd : Bool) : List ℕ → Option (ℕ × List ℕ)
  | [] => if checkEnd then some (0, []) else none
  | c :: it =>
    if c < 0x80 then some (c, it)
    else if c &&& 0xe0 = 0xc0 then nextUtf8Tail checkEnd 1 (c &&& 0x1f) it
    else if c &&& 0xf0 = 0xe0 then nextUtf8Tail checkEnd 2 (c &&& 0x0f) it
    else if c &&& 0xf8 = 0xf0 then nextUtf8Tail checkEnd 3 (c &&& 0x07) it
    else some (invalid, it)

/-! ## Writing -/

/-- `*dst++ = x`. -/
def write (buf : List ℕ) (dst x : ℕ) : Option (List ℕ) :=
  if dst < buf.length then some (buf.set dst x) else none

/-- `PUT` one unit of `bits` bits after the other. The buffer starts at `dst`, and `length` units of it are
used. -/
def put (bits : ℕ) (dstSize : ℤ) (dst : ℕ) : List ℕ → ℕ → List ℕ → Option (Error × ℕ × List ℕ)
  | [], length, buf => some (.ok, length, buf)
  | x :: xs, length, buf =>
    if dstSize ≤ length then some (.insufficientSpace, length, buf)
    else do
      let buf ← write buf (dst + length) (x % 2 ^ bits)
      put bits dstSize dst xs (length + 1) buf

def putUtf8 (dst c : ℕ) (dstSize : ℤ) (buf : List ℕ) : Option (Error × ℕ × List ℕ) :=
  if 0xd800 ≤ c ∧ c ≤ 0xdfff then some (.invalidString, 0, buf)
  else if 0x10ffff < c then some (.invalidString, 0, buf)
  else if c < 0x80 then put 8 dstSize dst [c] 0 buf
  else if c < 0x800 then put 8 dstSize dst [c >>> 6 ||| 0xc0, c &&& 0x3f ||| 0x80] 0 buf
  else if c < 0x10000 then
    put 8 dstSize dst [c >>> 12 ||| 0xe0, c >>> 6 &&& 0x3f ||| 0x80, c &&& 0x3f ||| 0x80] 0 buf
  else
    put 8 dstSize dst [c >>> 18 ||| 0xf0, c >>> 12 &&& 0x3f ||| 0x80, c >>> 6 &&& 0x3f ||| 0x80,
      c &&& 0x3f ||| 0x80] 0 buf

/-! ## The conversions -/

/-- `PUT(0)`, which ends the string. -/
def terminate (bits : ℕ) (dstSize : ℤ) (length : ℕ) (buf : List ℕ) : Option (Error × ℕ × List ℕ) := do
  let (e, length, buf) ← put bits dstSize 0 [0] length buf
  some (e, if e = .ok then length - 1 else length, buf)

/-- The loop of `utf8toutf16`. A loop that goes on for ever is `none` too. -/
def utf8toutf16Loop (dstSize : ℤ) : ℕ → List ℕ → ℕ → List ℕ → Option (Error × ℕ × List ℕ)
  | 0, _, _, _ => none
  | fuel + 1, src, length, buf => do
    let (c, src) ← nextUtf8 false src
    if c = 0 then terminate 16 dstSize length buf
    else if c = invalid then some (.invalidString, length, buf)
    else
      let leadOffset := 0xd800 - 0x10000 >>> 10
      let units := if 0xffff < c then [leadOffset + c >>> 10, 0xdc00 + (c &&& 0x3ff)] else [c]
      let (e, length, buf) ← put 16 dstSize 0 units length buf
      if e = .ok then utf8toutf16Loop dstSize fuel src length buf else some (e, length, buf)

def utf8toutf16 (buf : List ℕ) (dstSize : ℤ) (src : List ℕ) : Option (Error × ℕ × List ℕ) :=
  utf8toutf16Loop dstSize src.length src 0 buf

/-- The loop of `utf16toutf8`. -/
def utf16toutf8Loop (dstSize : ℤ) : ℕ → List ℕ → ℕ → List ℕ → Option (Error × ℕ × List ℕ)
  | 0, _, _, _ => none
  | _ + 1, [], _, _ => none
  | fuel + 1, c :: src, length, buf =>
    if c = 0 then terminate 8 dstSize length buf
    else if c < 0x80 then do
      let (e, length, buf) ← put 8 dstSize 0 [c] length buf
      if e = .ok then utf16toutf8Loop dstSize fuel src length buf else some (e, length, buf)
    else if 0xd800 ≤ c ∧ c ≤ 0xdbff then
      match src with
      | [] => none
      | next :: src =>
        if next < 0xdc00 ∨ 0xdfff < next then some (.invalidString, length, buf)
        else do
          let surrogateOffset := 2 ^ 32 + 0x10000 - 0xd800 <<< 10 - 0xdc00
          let c := (c <<< 10 + next + surrogateOffset) % 2 ^ 32
          let (e, n, buf) ← putUtf8 length c (dstSize - length) buf
          if e = .ok then utf16toutf8Loop dstSize fuel src (length + n) buf else some (e, length + n, buf)
    else if 0xdc00 ≤ c ∧ c ≤ 0xdfff then some (.invalidString, length, buf)
    else do
      let (e, n, buf) ← putUtf8 length c (dstSize - length) buf
      if e = .ok then utf16toutf8Loop dstSize fuel src (length + n) buf else some (e, length + n, buf)

def utf16toutf8 (buf : List ℕ) (dstSize : ℤ) (src : List ℕ) : Option (Error × ℕ × List ℕ) :=
  utf16toutf8Loop dstSize src.length src 0 buf

/-! ## The encodings -/

/-- A code point that is not a surrogate. -/
def Scalar (c : ℕ) : Prop := c < 0xd800 ∨ 0xdfff < c ∧ c ≤ 0x10ffff

instance (c : ℕ) : Decidable (Scalar c) := inferInstanceAs (Decidable (_ ∨ _))

/-- A code point that can be in a string that ends with a nul. -/
def Valid (c : ℕ) : Prop := c ≠ 0 ∧ Scalar c

/-- The shortest form. -/
def utf8 (c : ℕ) : List ℕ :=
  if c < 0x80 then [c]
  else if c < 0x800 then [0xc0 + c / 64, 0x80 + c % 64]
  else if c < 0x10000 then [0xe0 + c / 4096, 0x80 + c / 64 % 64, 0x80 + c % 64]
  else [0xf0 + c / 262144, 0x80 + c / 4096 % 64, 0x80 + c / 64 % 64, 0x80 + c % 64]

def utf16 (c : ℕ) : List ℕ :=
  if c < 0x10000 then [c] else [0xd800 + (c - 0x10000) / 1024, 0xdc00 + (c - 0x10000) % 1024]

end Unicode

end Miosix
