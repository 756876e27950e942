import Mathlib.Logic.Function.Basic
import MiosixKernel.Lib.Marked
import MiosixKernel.Path.WorkingDirectory

/-!
# Parts of a string

A `StringPart` puts a NUL character in a string, so that what is before it is a C string, and puts the character that was
there back when it is destroyed.

* `StringPart`: the fields of an object;
* `Strings`: the objects, the string they are made of and the blocks they allocate;
* `fromString`, `fromCString`, `fromConst`, `sub`, `copy`, `operatorAssign`, `clear`, `destroy`: the calls, with `none` for
  an access that is out of bounds or to what is not there any more.
-/

namespace Miosix

open Lib PathResolution

/-- `size_t` has 32 bits. -/
def sizeRange : ℕ := 2 ^ 32

/-- `string::npos` -/
def npos : ℕ := sizeRange - 1

/-- The buffer of the string that the parts are made of, or an allocated block. -/
inductive Place where
  | base
  | heap (b : ℕ)
deriving DecidableEq

/-- What `cstr` or `str` points to: `saved` is that field of an object. -/
inductive CharPointer (O : Type) where
  | place (q : Place)
  | saved (o : O)
deriving DecidableEq

inductive StringType where
  | CPPSTR
  | CSTR
  | CCSTR
deriving DecidableEq

structure StringPart (O : Type) where
  ptr : CharPointer O
  /-- Index into the character substituted by NUL. -/
  index : ℕ
  /-- Offset to skip the first part of a string. -/
  offset : ℕ
  /-- Char that was replaced by NUL. -/
  saved : Char
  /-- True if this object owns what `ptr` points to. -/
  owner : Bool
  type : StringType
  offset_le : offset ≤ index

namespace StringPart

variable {O : Type}

def length (r : StringPart O) : ℕ := r.index - r.offset

/-- `StringPart()` at `o` -/
def empty (o : O) : StringPart O where
  ptr := .saved o
  index := 0
  offset := 0
  saved := nul
  owner := false
  type := .CSTR
  offset_le := le_rfl

end StringPart

/-- The characters in each place. -/
abbrev Memory := Place → Option (List Char)

structure Strings (O : Type) where
  mem : Memory
  obj : O → Option (StringPart O)
  /-- The next block that `new` returns. -/
  next : ℕ
  /-- The blocks given to `delete`. -/
  deleted : List ℕ

namespace Strings

variable {O : Type} [DecidableEq O] (junk : ℕ → ℕ → Char) (s : Strings O)

/-! ## Memory -/

/-- The characters that a pointer points to. -/
def chars : CharPointer O → Option (List Char)
  | .place q => s.mem q
  | .saved o => (s.obj o).map fun r => [r.saved]

def setMem (q : Place) (l : Option (List Char)) : Strings O := { s with mem := Function.update s.mem q l }

def setObj (o : O) (r : Option (StringPart O)) : Strings O := { s with obj := Function.update s.obj o r }

/-- `ptr[i]` -/
def read (ptr : CharPointer O) (i : ℕ) : Option Char := (s.chars ptr).bind (·[i]?)

/-- `ptr[i] = c` -/
def write (ptr : CharPointer O) (i : ℕ) (c : Char) : Option (Strings O) :=
  match ptr with
  | .place q => (s.mem q).bind fun l => if i < l.length then some (s.setMem q (some (l.set i c))) else none
  | .saved o => (s.obj o).bind fun r => if i = 0 then some (s.setObj o (some { r with saved := c })) else none

/-- The C string at `ptr + i`. -/
def cString (ptr : CharPointer O) (i : ℕ) : Option (List Char) := (s.chars ptr).bind fun l => upTo nul (l.drop i)

/-- `saved = ptr[i]; ptr[i] = '\0'` -/
def cut (ptr : CharPointer O) (i : ℕ) : Option (Char × Strings O) := do
  let saved ← s.read ptr i
  let s ← s.write ptr i nul
  return (saved, s)

/-- `delete` of what a pointer points to. -/
def delete (ptr : CharPointer O) : Option (Strings O) :=
  match ptr with
  | .place (.heap b) =>
    (s.mem (.heap b)).map fun _ => { s.setMem (.heap b) none with deleted := b :: s.deleted }
  | _ => none

/-! ## Members -/

/-- `c_str`, as the C string that is read there. -/
def cStr (o : O) : Option (List Char) := do
  let r ← s.obj o
  match r.type with
  | .CSTR => s.cString r.ptr r.offset
  | .CCSTR => s.cString r.ptr 0
  | .CPPSTR => s.cString r.ptr r.offset

/-- `new char[rhs.length()+1]` and `strcpy(cstr,rhs.c_str())`: the block, whose other characters are `junk`. -/
def duplicate (rhs : O) : Option (ℕ × Strings O) := do
  let r ← s.obj rhs
  let src ← s.cStr rhs
  let dst := (List.range (r.length + 1)).map (junk s.next)
  if src.length < dst.length then
    let copy := src ++ nul :: dst.drop (src.length + 1)
    return (s.next, { s.setMem (.heap s.next) (some copy) with next := s.next + 1 })
  else none

/-- `if(rhs.empty()==false) assign(rhs)` -/
def assign (o rhs : O) : Option (Strings O) := do
  let r ← s.obj rhs
  if r.length = 0 then return s
  let (b, s) ← s.duplicate junk rhs
  let me ← s.obj o
  return s.setObj o (some { me with
    ptr := .place (.heap b), index := r.length, offset := 0, owner := true, offset_le := Nat.zero_le _ })

def clear (o : O) : Option (Strings O) := do
  let r ← s.obj o
  match r.type with
  | .CSTR =>
    let s ← s.write r.ptr r.index r.saved
    let s ← if r.owner then s.delete r.ptr else some s
    return s.setObj o (some (.empty o))
  | .CPPSTR =>
    let str ← s.chars r.ptr
    let s ← if r.index ≠ str.length - 1 then s.write r.ptr r.index r.saved else some s
    let s ← if r.owner then s.delete r.ptr else some s
    return s.setObj o (some (.empty o))
  | .CCSTR => return s.setObj o (some (.empty o))

/-! ## Constructors -/

/-- `StringPart(string& str, size_t idx, size_t off)` at `o`. The buffer of the string ends with a NUL. -/
def fromString (o : O) (idx off : ℕ) : Option (Strings O) := do
  let str ← s.mem .base
  let length := str.length - 1
  if idx = npos ∨ length ≤ idx then
    return s.setObj o (some ⟨.place .base, length, min off length, nul, false, .CPPSTR, min_le_right ..⟩)
  let (saved, s) ← s.cut (.place .base) idx
  return s.setObj o (some ⟨.place .base, idx, min off idx, saved, false, .CPPSTR, min_le_right ..⟩)

/-- `StringPart(char* s, size_t idx, size_t off)` at `o` -/
def fromCString (o : O) (idx off : ℕ) : Option (Strings O) := do
  let cstr ← s.cString (.place .base) 0
  let len := cstr.length
  if idx = npos ∨ len ≤ idx then
    return s.setObj o (some ⟨.place .base, len, min off len, nul, false, .CSTR, min_le_right ..⟩)
  let (saved, s) ← s.cut (.place .base) idx
  return s.setObj o (some ⟨.place .base, idx, min off idx, saved, false, .CSTR, min_le_right ..⟩)

/-- `StringPart(const char* s)` at `o` -/
def fromConst (o : O) : Option (Strings O) := do
  let ccstr ← s.cString (.place .base) 0
  return s.setObj o (some ⟨.place .base, ccstr.length, 0, nul, false, .CCSTR, Nat.zero_le _⟩)

/-- What the substring constructor makes its substring of: a copy if the string is constant. -/
def shared (o rhs : O) : Option (CharPointer O × Bool × StringType × Strings O) := do
  let r ← s.obj rhs
  match r.type with
  | .CSTR => return (r.ptr, false, .CSTR, s)
  | .CPPSTR => return (r.ptr, false, .CPPSTR, s)
  | .CCSTR =>
    if r.length = 0 then return (.saved o, false, .CSTR, s)
    let (b, s) ← s.duplicate junk rhs
    return (.place (.heap b), true, .CSTR, s)

/-- `StringPart(StringPart& rhs, size_t idx, size_t off)` at `o` -/
def sub (o rhs : O) (idx off : ℕ) : Option (Strings O) := do
  let r ← s.obj rhs
  let (ptr, owner, type, s) ← s.shared junk o rhs
  let start := (r.offset + off) % sizeRange
  if idx ≠ npos ∧ idx < r.length then
    let index := (r.offset + idx) % sizeRange
    let (saved, s) ← s.cut ptr index
    return s.setObj o (some ⟨ptr, index, min start index, saved, owner, type, min_le_right ..⟩)
  return s.setObj o (some ⟨ptr, r.index, min start r.index, nul, owner, type, min_le_right ..⟩)

/-- `StringPart(const StringPart& rhs)` at `o` -/
def copy (o rhs : O) : Option (Strings O) := (s.setObj o (some (.empty o))).assign junk o rhs

def operatorAssign (o rhs : O) : Option (Strings O) :=
  if o = rhs then some s
  else do
    let s ← s.clear o
    s.assign junk o rhs

/-- `~StringPart()` -/
def destroy (o : O) : Option (Strings O) := do
  let s ← s.clear o
  return s.setObj o none

end Strings

/-! ## What the calls do -/

namespace StringPart

variable {O : Type}

/-- The block that an object owns. -/
def block (r : StringPart O) : Option ℕ :=
  match r.owner, r.ptr with
  | true, .place (.heap b) => some b
  | _, _ => none

/-- The memory with the saved character back in its place. -/
def unset (r : StringPart O) (mem : Memory) : Memory :=
  match r.ptr with
  | .place q => Function.update mem q ((mem q).map (·.set r.index r.saved))
  | .saved _ => mem

/-- The memory after `clear`. -/
def release (r : StringPart O) (mem : Memory) : Memory :=
  match r.block with
  | some b => Function.update (r.unset mem) (.heap b) none
  | none => r.unset mem

/-- A part of a string that it does not own, with a NUL at `i`. -/
def share (q : Place) (i off : ℕ) (saved : Char) (type : StringType) : StringPart O :=
  ⟨.place q, i, min off i, saved, false, type, min_le_right ..⟩

/-- An object with a copy of `n` characters in a block. -/
def filled (b n : ℕ) : StringPart O := ⟨.place (.heap b), n, 0, nul, true, .CSTR, Nat.zero_le n⟩

end StringPart

/-- Where a part ends if the string has `len` characters. -/
def cutIndex (idx len : ℕ) : ℕ := if idx = npos ∨ len ≤ idx then len else idx

theorem cutIndex_eq_min {idx len : ℕ} (h : len < npos) : cutIndex idx len = min idx len := by
  rw [cutIndex]
  split_ifs <;> omega

namespace Strings

variable {O : Type} (junk : ℕ → ℕ → Char) {s : Strings O} {o o' rhs : O} {r : StringPart O} {q : Place} {l v : List Char}
  {c : Char} {i len idx off : ℕ}

@[simp] theorem setMem_mem (s : Strings O) (q : Place) (l : Option (List Char)) :
    (s.setMem q l).mem = Function.update s.mem q l := rfl

theorem setMem_self (hl : s.mem q = some l) : s.setMem q (some l) = s := by
  rw [setMem, ← hl, Function.update_eq_self]

theorem setMem_set_self (hl : s.mem q = some l) (hi : l[i]? = some c) : s.setMem q (some (l.set i c)) = s := by
  obtain ⟨hlt, rfl⟩ := List.getElem?_eq_some_iff.1 hi
  rw [List.set_getElem_self hlt, setMem_self hl]

theorem cStr_eq (hr : s.obj o = some r) (h : r.type = .CCSTR → r.offset = 0) : s.cStr o = s.cString r.ptr r.offset := by
  rw [cStr, hr]
  cases htype : r.type with
  | CSTR => simp [htype]
  | CPPSTR => simp [htype]
  | CCSTR => simp [htype, h htype]

theorem noNul_of_cStr (h : s.cStr o = some v) : nul ∉ v := by
  obtain ⟨r, hr, h⟩ := Option.bind_eq_some_iff.1 h
  have hcString : ∃ ptr i, s.cString ptr i = some v := by
    cases htype : r.type with
    | CSTR | CPPSTR | CCSTR => exact ⟨_, _, by simpa only [htype] using h⟩
  obtain ⟨ptr, i, hcString⟩ := hcString
  obtain ⟨l, -, hv⟩ := Option.bind_eq_some_iff.1 hcString
  exact notMem_of_upTo hv

/-- The copy holds the C string that was read. -/
theorem duplicate_spec (hr : s.obj rhs = some r) (hv : s.cStr rhs = some v) (hlen : v.length ≤ r.length) :
    ∃ rest, (v ++ nul :: rest).length = r.length + 1 ∧ s.duplicate junk rhs =
      some (s.next, { s.setMem (.heap s.next) (some (v ++ nul :: rest)) with next := s.next + 1 }) := by
  refine ⟨((List.range (r.length + 1)).map (junk s.next)).drop (v.length + 1), ?_, ?_⟩
  · simp only [List.length_append, List.length_cons, List.length_drop, List.length_map, List.length_range]
    omega
  · rw [duplicate, hr, hv]
    simp only [Option.bind_eq_bind, Option.bind_some, List.length_map, List.length_range]
    rw [if_pos (by omega)]
    rfl

theorem shared_of_ne (hr : s.obj rhs = some r) (htype : r.type ≠ .CCSTR) (o : O) :
    s.shared junk o rhs = some (r.ptr, false, r.type, s) := by
  rw [shared, hr]
  cases h : r.type with
  | CSTR => simp [h]
  | CPPSTR => simp [h]
  | CCSTR => exact absurd h htype

theorem shared_empty (hr : s.obj rhs = some r) (htype : r.type = .CCSTR) (hlen : r.length = 0) (o : O) :
    s.shared junk o rhs = some (.saved o, false, .CSTR, s) := by
  rw [shared, hr]
  simp [htype, hlen]

theorem shared_copy (hr : s.obj rhs = some r) (htype : r.type = .CCSTR) (hlen : r.length ≠ 0) {b : ℕ} {t : Strings O}
    (hdup : s.duplicate junk rhs = some (b, t)) (o : O) :
    s.shared junk o rhs = some (.place (.heap b), true, .CSTR, t) := by
  rw [shared, hr]
  simp [htype, hlen, hdup]

/-! ### `clear` -/

theorem unset_place (hptr : r.ptr = .place q) (hl : s.mem q = some l) :
    r.unset s.mem = Function.update s.mem q (some (l.set r.index r.saved)) := by
  rw [StringPart.unset, hptr]
  simp [hl]

/-- If the character is already there then nothing changes. -/
theorem unset_kept (hptr : r.ptr = .place q) (hl : s.mem q = some l) (hkept : l[r.index]? = some r.saved) :
    r.unset s.mem = s.mem := by
  rw [unset_place hptr hl, ← setMem_mem, setMem_set_self hl hkept]

/-- Only an object of type `CSTR` owns something. -/
theorem not_owner {P : Prop} (h : r.owner = true → r.type = .CSTR ∧ P) (htype : r.type ≠ .CSTR) : r.owner = false :=
  eq_false_of_ne_true fun howner => htype (h howner).1

/-- An object that `clear` can detach. -/
inductive Clearable (s : Strings O) (r : StringPart O) : Prop
  | placed {q : Place} {l : List Char} (ptr : r.ptr = .place q) (mem : s.mem q = some l) (index : r.index < l.length)
    (owner : r.owner = true → r.type = .CSTR ∧ ∃ b, q = .heap b)
    (kept : r.type = .CCSTR ∨ r.type = .CPPSTR ∧ r.index + 1 = l.length → l[r.index]? = some r.saved)
  | saved {o : O} {r' : StringPart O} (ptr : r.ptr = .saved o) (obj : s.obj o = some r') (saved : r'.saved = r.saved)
    (index : r.index = 0) (owner : r.owner = false) (type : r.type = .CSTR)

variable [DecidableEq O]

@[simp] theorem setObj_mem (s : Strings O) (o : O) (r : Option (StringPart O)) : (s.setObj o r).mem = s.mem := rfl

theorem write_place (hl : s.mem q = some l) (hi : i < l.length) :
    s.write (.place q) i c = some (s.setMem q (some (l.set i c))) := by
  rw [write, hl, Option.bind_some, if_pos hi]

theorem cut_place (hl : s.mem q = some l) (hi : l[i]? = some c) :
    s.cut (.place q) i = some (c, s.setMem q (some (l.set i nul))) := by
  have hread : s.read (.place q) i = some c := by rw [read, chars, hl, Option.bind_some, hi]
  rw [cut, hread, write_place hl (List.getElem?_eq_some_iff.1 hi).1]
  rfl

/-- The state after `clear`. -/
def cleared (s : Strings O) (o : O) (r : StringPart O) : Strings O where
  mem := r.release s.mem
  obj := Function.update s.obj o (some (.empty o))
  next := s.next
  deleted := r.block.toList ++ s.deleted

theorem cleared_of_not_owner (howner : r.owner = false) :
    s.cleared o r = { s with mem := r.unset s.mem, obj := Function.update s.obj o (some (.empty o)) } := by
  have hblock : r.block = none := by simp [StringPart.block, howner]
  simp [cleared, StringPart.release, hblock]

theorem clear_spec (hr : s.obj o = some r) (h : s.Clearable r) : s.clear o = some (s.cleared o r) := by
  cases h with
  | saved ptr obj saved index owner type =>
    have hwrite : s.write r.ptr r.index r.saved = some s := by
      rw [ptr, write, obj, Option.bind_some, if_pos index, ← saved, setObj, ← obj, Function.update_eq_self]
    rw [clear, hr, cleared_of_not_owner owner, StringPart.unset, ptr]
    simp [type, hwrite, owner, setObj]
  | @placed q l ptr mem index owner kept =>
    have hwrite : s.write r.ptr r.index r.saved = some { s with mem := r.unset s.mem } := by
      rw [unset_place ptr mem, ptr, write_place mem index]
      rfl
    cases htype : r.type with
    | CCSTR =>
      have howner := not_owner owner (htype ▸ nofun)
      rw [clear, hr, cleared_of_not_owner howner, unset_kept ptr mem (kept (.inl htype))]
      simp [htype, setObj]
    | CPPSTR =>
      have howner := not_owner owner (htype ▸ nofun)
      have hchars : s.chars r.ptr = some l := by rw [ptr, chars, mem]
      rw [clear, hr, cleared_of_not_owner howner]
      by_cases hindex : r.index = l.length - 1
      · rw [unset_kept ptr mem (kept (.inr ⟨htype, by omega⟩))]
        simp [htype, hchars, hindex, howner, setObj]
      · simp [htype, hchars, hindex, hwrite, howner, setObj]
    | CSTR =>
      rw [clear, hr]
      simp only [Option.bind_eq_bind, Option.bind_some, htype, hwrite]
      cases howner : r.owner with
      | false =>
        rw [cleared_of_not_owner howner]
        simp [setObj]
      | true =>
        obtain ⟨-, b, rfl⟩ := owner howner
        have hblock : r.block = some b := by simp [StringPart.block, howner, ptr]
        have hmem : (r.unset s.mem) (.heap b) = some (l.set r.index r.saved) := by
          rw [unset_place ptr mem, Function.update_self]
        simp [delete, ptr, hmem, cleared, StringPart.release, hblock, setObj, setMem]

/-! ### Constructors -/

/-- The state after a constructor puts a NUL in `l`, which is at `q`. -/
def taken (s : Strings O) (o : O) (q : Place) (l : List Char) (r : StringPart O) : Strings O :=
  (s.setMem q (some (l.set r.index nul))).setObj o (some r)

/-- What comes out of a constructor that takes part of a string that ends at `len`. -/
theorem cut_or_end (hl : s.mem q = some l) (hend : l[len]? = some nul) (o : O) (idx off : ℕ) (type : StringType) :
    ∃ saved, l[cutIndex idx len]? = some saved ∧
      (if idx = npos ∨ len ≤ idx then
        some (s.setObj o (some ⟨.place q, len, min off len, nul, false, type, min_le_right ..⟩))
      else (s.cut (.place q) idx).bind fun (saved, s) =>
        some (s.setObj o (some ⟨.place q, idx, min off idx, saved, false, type, min_le_right ..⟩))) =
      some (s.taken o q l (.share q (cutIndex idx len) off saved type)) := by
  rw [cutIndex]
  split_ifs with hidx
  · refine ⟨nul, hend, ?_⟩
    rw [taken, StringPart.share, setMem_set_self hl hend]
  · have hlt : idx < l.length := lt_trans (by omega) (List.getElem?_eq_some_iff.1 hend).1
    have hsaved := List.getElem?_eq_getElem hlt
    refine ⟨l[idx], hsaved, ?_⟩
    rw [cut_place hl hsaved]
    rfl

theorem fromString_spec (hl : s.mem .base = some l) (hend : l[l.length - 1]? = some nul) (o : O) (idx off : ℕ) :
    ∃ saved, l[cutIndex idx (l.length - 1)]? = some saved ∧
      s.fromString o idx off = some (s.taken o .base l (.share .base (cutIndex idx (l.length - 1)) off saved .CPPSTR)) := by
  rw [fromString, hl]
  exact cut_or_end hl hend o idx off .CPPSTR

theorem fromCString_spec (hl : s.mem .base = some l) (hv : upTo nul l = some v) (hend : l[v.length]? = some nul) (o : O)
    (idx off : ℕ) :
    ∃ saved, l[cutIndex idx v.length]? = some saved ∧
      s.fromCString o idx off = some (s.taken o .base l (.share .base (cutIndex idx v.length) off saved .CSTR)) := by
  have hcString : s.cString (.place .base) 0 = some v := by rw [cString, chars, hl, Option.bind_some, List.drop_zero, hv]
  rw [fromCString, hcString]
  exact cut_or_end hl hend o idx off .CSTR

theorem fromConst_spec (hl : s.mem .base = some l) (hv : upTo nul l = some v) (hend : l[v.length]? = some nul) (o : O) :
    s.fromConst o = some (s.taken o .base l ⟨.place .base, v.length, 0, nul, false, .CCSTR, Nat.zero_le _⟩) := by
  have hcString : s.cString (.place .base) 0 = some v := by rw [cString, chars, hl, Option.bind_some, List.drop_zero, hv]
  rw [fromConst, hcString, taken, setMem_set_self hl hend]
  rfl

/-- A substring of what is in a place. -/
theorem sub_place (hr : s.obj rhs = some r) {owner : Bool} {type : StringType} {t : Strings O}
    (hshared : s.shared junk o rhs = some (.place q, owner, type, t)) (hl : t.mem q = some l) (hindex : r.index < npos)
    (hlt : r.index < l.length) (off : ℕ) (hend : r.length ≤ idx → l[r.index]? = some nul) :
    ∃ saved, l[r.offset + min idx r.length]? = some saved ∧
      s.sub junk o rhs idx off = some (t.taken o q l ⟨.place q, r.offset + min idx r.length,
        min ((r.offset + off) % sizeRange) (r.offset + min idx r.length), saved, owner, type, min_le_right ..⟩) := by
  have hlength : r.offset + r.length = r.index := Nat.add_sub_cancel' r.offset_le
  have hsize : npos + 1 = sizeRange := rfl
  rw [sub, hr]
  simp only [Option.bind_eq_bind, Option.bind_some, hshared]
  by_cases hidx : idx < r.length
  · have hcut : (r.offset + idx) % sizeRange = r.offset + idx := Nat.mod_eq_of_lt (by omega)
    have hsaved : l[r.offset + idx]? = some l[r.offset + idx] := List.getElem?_eq_getElem (by omega)
    rw [if_pos ⟨by omega, hidx⟩, hcut, Nat.min_eq_left hidx.le, cut_place hl hsaved]
    exact ⟨_, hsaved, rfl⟩
  · rw [if_neg fun h => hidx h.2, Nat.min_eq_right (not_lt.1 hidx), hlength]
    refine ⟨nul, hend (not_lt.1 hidx), ?_⟩
    rw [taken, setMem_set_self hl (hend (not_lt.1 hidx))]
    rfl

/-- A substring of an empty part. -/
theorem sub_saved (hr : s.obj rhs = some r) (hshared : s.shared junk o rhs = some (.saved o', false, .CSTR, s))
    (hindex : r.index = 0) :
    s.sub junk o rhs idx off = some (s.setObj o (some ⟨.saved o', 0, 0, nul, false, .CSTR, le_rfl⟩)) := by
  have hlength : r.length = 0 := by rw [StringPart.length, hindex, Nat.zero_sub]
  rw [sub, hr]
  simp [hshared, hlength, hindex]

theorem assign_empty (hr : s.obj rhs = some r) (hlen : r.length = 0) (o : O) : s.assign junk o rhs = some s := by
  rw [assign, hr]
  simp [hlen]

theorem assign_copy (hr : s.obj rhs = some r) (hlen : r.length ≠ 0) {b : ℕ} {t : Strings O}
    (hdup : s.duplicate junk rhs = some (b, t)) (ho : t.obj o = some (.empty o)) :
    s.assign junk o rhs = some (t.setObj o (some (.filled b r.length))) := by
  rw [assign, hr]
  simp [hlen, hdup, ho, StringPart.filled, StringPart.empty]

end Strings

end Miosix
