import MiosixKernel.Lib.Bytes
import Mathlib.Data.Int.Notation

/-!
# Directory listings

`DirectoryBase` writes directory entries one after the other in a buffer, each with its length. A reader goes from
one to the next by that length and stops at an entry of length zero.

* `addEntry`, `addDefaultEntries`, `addTerminatingEntry`: writing;
* `readDirents`: reading;
* `Appends`: some entries were written at the end of a buffer; **`readDirents_appends`**: they are read;
* `ListingRight`: what successive calls of `getdents` promise; **`run_right`**: it is enough to look at each call.
-/

namespace Miosix

open Lib

/-! ## Writing -/

def DT_DIR : UInt8 := 4

def DT_REG : UInt8 := 8

def direntHeaderSizeNoPadding : ℕ := 19

def direntHeaderSize : ℕ := (direntHeaderSizeNoPadding + 3 + 3) / 4 * 4

def minimumBufferSize : ℕ := 3 * direntHeaderSize

/-- The size of an entry, aligned to 4 bytes. -/
def recordLength (n : List UInt8) : ℕ := (direntHeaderSizeNoPadding + n.length + 1 + 3) / 4 * 4

/-- A directory entry. -/
structure Dirent where
  ino : BitVec 32
  type : UInt8
  name : List UInt8
  deriving DecidableEq

namespace Dirent

def size (r : Dirent) : ℕ := recordLength r.name

/-- The name is a string, and the size fits in `d_reclen`. -/
structure Sound (r : Dirent) : Prop where
  string : 0 ∉ r.name
  short : r.size < 2 ^ 16

theorem lt_size (r : Dirent) : direntHeaderSizeNoPadding + r.name.length < r.size := by
  unfold size recordLength
  omega

end Dirent

def dot (ino : BitVec 32) : Dirent := ⟨ino, DT_DIR, [0x2e]⟩

def dotDot (ino : BitVec 32) : Dirent := ⟨ino, DT_DIR, [0x2e, 0x2e]⟩

/-- The header size has room for the names of the default entries. -/
theorem dot_size (ino : BitVec 32) : (dot ino).size = direntHeaderSize := show recordLength [0x2e] = _ by decide

theorem dotDot_size (ino : BitVec 32) : (dotDot ino).size = direntHeaderSize := show recordLength [0x2e, 0x2e] = _ by decide

theorem dot_sound (ino : BitVec 32) : (dot ino).Sound := ⟨by simp [dot], by rw [dot_size]; decide⟩

theorem dotDot_sound (ino : BitVec 32) : (dotDot ino).Sound := ⟨by simp [dotDot], by rw [dotDot_size]; decide⟩

/-- A memory, and the position where the next entry goes. -/
structure DirBuffer where
  mem : ℕ → UInt8
  pos : ℕ

namespace DirBuffer

/-- The stores to the members of a `struct dirent`. The bytes between `d_ino` and `d_off` are padding. -/
def put (b : DirBuffer) (r : Dirent) (reclen : ℕ) : DirBuffer where
  mem :=
    let m := store b.mem b.pos (littleEndian 4 r.ino.toNat)
    let m := store m (b.pos + 8) (littleEndian 8 0)
    let m := store m (b.pos + 16) (littleEndian 2 reclen)
    let m := store m (b.pos + 18) [r.type]
    store m (b.pos + direntHeaderSizeNoPadding) (r.name ++ [0])
  pos := b.pos + reclen

def addEntry (b : DirBuffer) (stop : ℕ) (r : Dirent) : Option DirBuffer :=
  let reclen := recordLength r.name
  if (reclen : ℤ) > stop - b.pos then none else some (b.put r reclen)

def addDefaultEntries (b : DirBuffer) (thisIno upIno : BitVec 32) : DirBuffer :=
  (b.put (dot thisIno) direntHeaderSize).put (dotDot upIno) direntHeaderSize

def addTerminatingEntry (b : DirBuffer) (stop : ℕ) : Option DirBuffer :=
  if (direntHeaderSize : ℤ) > stop - b.pos then none
  else some ⟨store b.mem b.pos (List.replicate direntHeaderSize 0), b.pos + direntHeaderSize⟩

end DirBuffer

/-! ## Reading -/

def reclenAt (mem : ℕ → UInt8) (pos : ℕ) : ℕ := ofLittleEndian (load mem (pos + 16) 2)

/-- The entry in the `reclen` bytes from `pos` on. -/
def direntAt (mem : ℕ → UInt8) (pos reclen : ℕ) : Dirent where
  ino := BitVec.ofNat 32 (ofLittleEndian (load mem pos 4))
  type := mem (pos + 18)
  name := loadString mem (pos + direntHeaderSizeNoPadding) (reclen - direntHeaderSizeNoPadding)

/-- The entries from `pos` to `stop`, and if there was one that ends the directory. -/
def readDirents (mem : ℕ → UInt8) (stop : ℕ) : ℕ → ℕ → List Dirent × Bool
  | 0, _ => ([], false)
  | fuel + 1, pos =>
    if stop ≤ pos then ([], false)
    else
      let reclen := reclenAt mem pos
      if reclen = 0 ∨ stop < pos + reclen then ([], true)
      else
        let rest := readDirents mem stop fuel (pos + reclen)
        (direntAt mem pos reclen :: rest.1, rest.2)

/-! ## Entries in memory -/

section Holds

variable {mem mem' : ℕ → UInt8} {pos stop stop' fuel x : ℕ} {r : Dirent} {rs rs' : List Dirent} {b b' b'' : DirBuffer}

/-- There is an entry at a position. -/
structure HoldsDirent (mem : ℕ → UInt8) (pos : ℕ) (r : Dirent) : Prop where
  reclen : reclenAt mem pos = r.size
  dirent : direntAt mem pos r.size = r

/-- There are entries one after the other from `pos` to `stop`. -/
def HoldsDirents (mem : ℕ → UInt8) (pos stop : ℕ) : List Dirent → Prop
  | [] => pos = stop
  | r :: rs => HoldsDirent mem pos r ∧ HoldsDirents mem (pos + r.size) stop rs

theorem HoldsDirents.le (h : HoldsDirents mem pos stop rs) : pos ≤ stop := by
  induction rs generalizing pos with
  | nil => exact le_of_eq h
  | cons r rs ih => exact le_trans (Nat.le_add_right _ _) (ih h.2)

theorem HoldsDirent.congr (h : HoldsDirent mem pos r) (hmem : ∀ x, pos ≤ x → x < pos + r.size → mem' x = mem x) :
    HoldsDirent mem' pos r := by
  have hsize := r.lt_size
  rw [show direntHeaderSizeNoPadding = 19 from rfl] at hsize
  constructor
  · rw [reclenAt, load_congr fun x h1 h2 => hmem x (by omega) (by omega)]
    exact h.reclen
  · have h4 : load mem' pos 4 = load mem pos 4 := load_congr fun x h1 h2 => hmem x h1 (by omega)
    have hname : loadString mem' (pos + 19) (r.size - 19) = loadString mem (pos + 19) (r.size - 19) :=
      loadString_congr fun x h1 h2 => hmem x (by omega) (by omega)
    have h18 : mem' (pos + 18) = mem (pos + 18) := hmem _ (by omega) (by omega)
    have hdirent := h.dirent
    rw [direntAt, show direntHeaderSizeNoPadding = 19 from rfl] at hdirent ⊢
    rw [h4, h18, hname]
    exact hdirent

theorem HoldsDirents.congr (h : HoldsDirents mem pos stop rs) (hmem : ∀ x, pos ≤ x → x < stop → mem' x = mem x) :
    HoldsDirents mem' pos stop rs := by
  induction rs generalizing pos with
  | nil => exact h
  | cons r rs ih =>
    have hle := h.2.le
    refine ⟨h.1.congr fun x h1 h2 => hmem x h1 (by omega), ih h.2 fun x h1 h2 => hmem x (by omega) h2⟩

theorem HoldsDirents.append (h : HoldsDirents mem pos stop rs) (h' : HoldsDirents mem stop stop' rs') :
    HoldsDirents mem pos stop' (rs ++ rs') := by
  induction rs generalizing pos with
  | nil =>
    obtain rfl : pos = stop := h
    exact h'
  | cons r rs ih => exact ⟨h.1, ih h.2⟩

/-- `rs` was written at the end of `b`, which gave `b'`. -/
structure Appends (b b' : DirBuffer) (rs : List Dirent) : Prop where
  holds : HoldsDirents b'.mem b.pos b'.pos rs
  frame : ∀ x, x < b.pos ∨ b'.pos ≤ x → b'.mem x = b.mem x

namespace Appends

theorem le (h : Appends b b' rs) : b.pos ≤ b'.pos := h.holds.le

theorem nil (b : DirBuffer) : Appends b b [] := ⟨rfl, fun _ _ => rfl⟩

theorem trans (h : Appends b b' rs) (h' : Appends b' b'' rs') : Appends b b'' (rs ++ rs') := by
  have hle := h.le
  have hle' := h'.le
  constructor
  · exact (h.holds.congr fun x _ hx => h'.frame x (.inl hx)).append h'.holds
  · intro x hx
    rw [h'.frame x (by omega), h.frame x (by omega)]

theorem lt (h : Appends b b' rs) (hne : rs ≠ []) : b.pos < b'.pos := by
  obtain ⟨r, rs, rfl⟩ := List.exists_cons_of_ne_nil hne
  have hsize := r.lt_size
  have hle := h.holds.2.le
  omega

end Appends

namespace DirBuffer

theorem put_mem_outside (hx : x < b.pos ∨ b.pos + r.size ≤ x) (reclen : ℕ) : (b.put r reclen).mem x = b.mem x := by
  have hsize := r.lt_size
  rw [show direntHeaderSizeNoPadding = 19 from rfl] at hsize
  simp only [put, show direntHeaderSizeNoPadding = 19 from rfl]
  rw [store_outside, store_outside, store_outside, store_outside, store_outside] <;>
    simp only [length_littleEndian, List.length_singleton, List.length_append] <;> omega

theorem put_holds (hr : r.Sound) : HoldsDirent (b.put r r.size).mem b.pos r := by
  have hsize := r.lt_size
  rw [show direntHeaderSizeNoPadding = 19 from rfl] at hsize
  constructor
  · rw [reclenAt, put, load_store_of_disjoint (by simp [direntHeaderSizeNoPadding]),
      load_store_of_disjoint (by simp), load_store (by simp)]
    exact ofLittleEndian_of_lt hr.short
  · simp only [direntAt, put, show direntHeaderSizeNoPadding = 19 from rfl]
    have hino : ∀ (m : ℕ → UInt8) (cs : List UInt8) (k : ℕ), 4 ≤ k → load (store m (b.pos + k) cs) b.pos 4 = load m b.pos 4 :=
      fun m cs k hk => load_store_of_disjoint (.inl (by omega))
    have htype : ∀ m : ℕ → UInt8, store (store m (b.pos + 18) [r.type]) (b.pos + 19) (r.name ++ [0]) (b.pos + 18) = r.type := by
      intro m
      rw [store_outside (.inl (by omega)), store, if_pos (by simp), Nat.sub_self]
      rfl
    rw [htype, loadString_store hr.string (by omega), hino _ _ 19 (by omega), hino _ _ 18 (by omega), hino _ _ 16 (by omega),
      hino _ _ 8 (by omega), load_store (by simp), ofLittleEndian_of_lt r.ino.isLt, BitVec.ofNat_toNat, BitVec.setWidth_eq]

/-- An entry is written as it will be read. -/
theorem put_appends (hr : r.Sound) : Appends b (b.put r r.size) [r] :=
  ⟨⟨put_holds hr, rfl⟩, fun _ hx => put_mem_outside hx _⟩

theorem addEntry_eq_some (h : b.addEntry stop r = some b') : b' = b.put r r.size ∧ b.pos + r.size ≤ stop := by
  simp only [addEntry] at h
  split_ifs at h with hfull
  rw [← Dirent.size] at hfull
  exact ⟨(Option.some.inj h).symm, by omega⟩

theorem addEntry_appends (hr : r.Sound) (h : b.addEntry stop r = some b') : Appends b b' [r] ∧ b'.pos ≤ stop := by
  obtain ⟨rfl, hstop⟩ := addEntry_eq_some h
  exact ⟨put_appends hr, hstop⟩

/-- Each entry takes some of the room that is left. -/
theorem addEntry_room (h : b.addEntry stop r = some b') : stop - b'.pos < stop - b.pos := by
  obtain ⟨rfl, hstop⟩ := addEntry_eq_some h
  have hsize := r.lt_size
  simp only [put]
  omega

theorem addEntry_eq_none : b.addEntry stop r = none ↔ stop < b.pos + r.size := by
  simp only [addEntry, Dirent.size]
  split_ifs with hfull
  · exact iff_of_true rfl (by omega)
  · exact iff_of_false nofun (by omega)

theorem addDefaultEntries_appends (b : DirBuffer) (thisIno upIno : BitVec 32) :
    Appends b (b.addDefaultEntries thisIno upIno) [dot thisIno, dotDot upIno] := by
  have h := (put_appends (b := b) (dot_sound thisIno)).trans (put_appends (dotDot_sound upIno))
  rw [dot_size, dotDot_size] at h
  exact h

theorem addDefaultEntries_pos (b : DirBuffer) (thisIno upIno : BitVec 32) :
    (b.addDefaultEntries thisIno upIno).pos = b.pos + 2 * direntHeaderSize := Nat.add_assoc _ _ _

end DirBuffer

/-! ## Reading what was written -/

/-- Entries that fill the buffer are read. -/
theorem readDirents_holds (h : HoldsDirents mem pos stop rs) (hfuel : stop < pos + fuel) :
    readDirents mem stop fuel pos = (rs, false) := by
  induction fuel generalizing pos rs with
  | zero => exact absurd h.le (by omega)
  | succ fuel ih =>
    cases rs with
    | nil => rw [readDirents, if_pos (le_of_eq (Eq.symm h))]
    | cons r rs =>
      have hle := h.2.le
      have hsize := r.lt_size
      rw [readDirents, if_neg (by omega), h.1.reclen, if_neg (by omega), ih h.2 (by omega), h.1.dirent]

/-- Entries with one of length zero after them are read up to there. -/
theorem readDirents_holds_zero (h : HoldsDirents mem pos stop' rs) (hzero : reclenAt mem stop' = 0) (hstop : stop' < stop)
    (hfuel : stop < pos + fuel) : readDirents mem stop fuel pos = (rs, true) := by
  induction fuel generalizing pos rs with
  | zero => exact absurd h.le (by omega)
  | succ fuel ih =>
    cases rs with
    | nil =>
      obtain rfl : pos = stop' := h
      rw [readDirents, if_neg (by omega), if_pos (.inl hzero)]
    | cons r rs =>
      have hle := h.2.le
      have hsize := r.lt_size
      rw [readDirents, if_neg (by omega), h.1.reclen, if_neg (by omega), ih h.2 (by omega), h.1.dirent]

theorem reclenAt_zero (mem : ℕ → UInt8) (pos : ℕ) :
    reclenAt (store mem pos (List.replicate direntHeaderSize 0)) pos = 0 := by
  have h : load (store mem pos (List.replicate direntHeaderSize 0)) pos 24 =
      List.replicate 16 0 ++ ([0, 0] ++ List.replicate 6 0) := load_store rfl
  rw [show 24 = 16 + (2 + 6) from rfl, load_add, load_add] at h
  have h2 := (List.append_inj (List.append_inj h (by simp)).2 (by simp)).1
  rw [reclenAt, h2]
  rfl

end Holds

/-! ## Calls -/

/-- The arguments of `getdents`, and the memory before the call. -/
structure DirectoryCall where
  dp : ℕ
  len : ℤ
  mem : ℕ → UInt8

/-- What a call returns, the memory after it and the directory after it. -/
structure DirectoryAnswer (σ : Type) where
  ret : ℤ
  mem : ℕ → UInt8
  next : σ

/-- A call with the directory before it. -/
structure MadeCall (σ : Type) where
  dir : σ
  call : DirectoryCall
  answer : DirectoryAnswer σ

section Run

variable {σ : Type}

/-- Successive calls on a directory. -/
def runGetdents (getdents : σ → DirectoryCall → DirectoryAnswer σ) (d : σ) : List DirectoryCall → List (MadeCall σ)
  | [] => []
  | c :: cs => ⟨d, c, getdents d c⟩ :: runGetdents getdents (getdents d c).next cs

namespace MadeCall

/-- What the caller reads in the returned bytes. -/
def read (m : MadeCall σ) : List Dirent × Bool :=
  readDirents m.answer.mem (m.call.dp + m.answer.ret.toNat) (m.answer.ret.toNat + 1) m.call.dp

def records (m : MadeCall σ) : List Dirent := m.read.1

/-- The call tells that the directory has ended. -/
def Ends (m : MadeCall σ) : Prop := m.answer.ret = 0 ∨ m.read.2 = true

instance (m : MadeCall σ) : Decidable m.Ends := by unfold Ends; infer_instance

/-- Nothing is written outside of the buffer. -/
def Inside (m : MadeCall σ) : Prop :=
  ∀ x : ℕ, x < m.call.dp ∨ m.call.dp + m.call.len ≤ x → m.answer.mem x = m.call.mem x

/-- What one call does if `todo` are the entries that a directory has yet to return. -/
structure StepRight (todo : σ → List Dirent) (m : MadeCall σ) : Prop where
  inside : m.Inside
  todo_eq : todo m.dir = m.records ++ todo m.answer.next
  ended : m.Ends → todo m.answer.next = []
  blocked : ∀ r, (todo m.dir).head? = some r → m.call.len < r.size → m.answer.ret < 0

end MadeCall

/-- What some calls do if `wanted` are the entries of the directory. -/
structure ListingRight (wanted : List Dirent) (ms : List (MadeCall σ)) : Prop where
  /-- No call writes outside of its buffer. -/
  inside : ∀ m ∈ ms, m.Inside
  /-- Before the end, the calls return the first entries. -/
  sound : ∀ before after, ms = before ++ after → (∀ m ∈ before, ¬ m.Ends) → before.flatMap MadeCall.records <+: wanted
  /-- Up to the end, the calls return all entries. -/
  complete : ∀ before m after, ms = before ++ m :: after → (∀ p ∈ before, ¬ p.Ends) → m.Ends →
    (before ++ [m]).flatMap MadeCall.records = wanted
  /-- A call whose buffer is too small for the next entry returns an error. -/
  blocked : ∀ before m after, ms = before ++ m :: after → (∀ p ∈ before, ¬ p.Ends) →
    ∀ r, wanted[(before.flatMap MadeCall.records).length]? = some r → m.call.len < r.size → m.answer.ret < 0

variable {todo : σ → List Dirent} {m : MadeCall σ} {ms : List (MadeCall σ)} {wanted : List Dirent}

theorem listingRight_nil : ListingRight wanted ([] : List (MadeCall σ)) where
  inside := nofun
  sound := by
    rintro before after hms -
    rw [(List.append_eq_nil_iff.1 hms.symm).1]
    exact List.nil_prefix
  complete := by
    rintro before m after hms
    cases before <;> cases hms
  blocked := by
    rintro before m after hms
    cases before <;> cases hms

theorem ListingRight.cons (hm : m.StepRight todo) (hms : ListingRight (todo m.answer.next) ms) :
    ListingRight (todo m.dir) (m :: ms) where
  inside := List.forall_mem_cons.2 ⟨hm.inside, hms.inside⟩
  sound := by
    intro before after heq hbefore
    cases before with
    | nil => exact List.nil_prefix
    | cons p before =>
      obtain ⟨rfl, hrest⟩ := List.cons.inj heq
      rw [hm.todo_eq, List.flatMap_cons]
      exact (List.prefix_append_right_inj _).2 (hms.sound _ _ hrest fun q hq => hbefore q (List.mem_cons_of_mem _ hq))
  complete := by
    intro before p after heq hbefore hp
    cases before with
    | nil =>
      obtain ⟨rfl, -⟩ := List.cons.inj heq
      rw [hm.todo_eq, hm.ended hp]
      simp
    | cons q before =>
      obtain ⟨rfl, hrest⟩ := List.cons.inj heq
      rw [hm.todo_eq, List.cons_append, List.flatMap_cons]
      rw [hms.complete _ _ _ hrest (fun r hr => hbefore r (List.mem_cons_of_mem _ hr)) hp]
  blocked := by
    intro before p after heq hbefore r hr
    cases before with
    | nil =>
      obtain ⟨rfl, -⟩ := List.cons.inj heq
      rw [List.flatMap_nil, List.length_nil, ← List.head?_eq_getElem?] at hr
      exact hm.blocked r hr
    | cons q before =>
      obtain ⟨rfl, hrest⟩ := List.cons.inj heq
      rw [hm.todo_eq, List.flatMap_cons, List.length_append, List.getElem?_append_right (Nat.le_add_right _ _),
        Nat.add_sub_cancel_left] at hr
      exact hms.blocked _ _ _ hrest (fun s hs => hbefore s (List.mem_cons_of_mem _ hs)) r hr

/-- **Calls that each do their part give the listing.** -/
theorem run_right {getdents : σ → DirectoryCall → DirectoryAnswer σ} {Inv : σ → Prop} {Room : σ → DirectoryCall → Prop}
    (hstep : ∀ d c, Inv d → Room d c → Inv (getdents d c).next ∧ MadeCall.StepRight todo ⟨d, c, getdents d c⟩)
    {d : σ} (hd : Inv d) {cs : List DirectoryCall} (hroom : ∀ m ∈ runGetdents getdents d cs, Room m.dir m.call) :
    ListingRight (todo d) (runGetdents getdents d cs) := by
  induction cs generalizing d with
  | nil => exact listingRight_nil
  | cons c cs ih =>
    rw [runGetdents, List.forall_mem_cons] at hroom
    obtain ⟨hnext, hright⟩ := hstep d c hd hroom.1
    exact ListingRight.cons hright (ih hnext hroom.2)

/-! ## One call -/

/-- The buffer at the start of a call. -/
def DirectoryCall.buffer (c : DirectoryCall) : DirBuffer := ⟨c.mem, c.dp⟩

/-- The memory and the result of a call that fills a buffer up to `b`. -/
structure MadeCall.Returns (m : MadeCall σ) (b : DirBuffer) : Prop where
  mem : m.answer.mem = b.mem
  ret : m.answer.ret = b.pos - m.call.dp
  stop : b.pos ≤ m.call.dp + m.call.len

namespace MadeCall

variable {b : DirBuffer} {stop : ℕ} {rs : List Dirent}

/-- Nothing is read after a call that returns no bytes. -/
theorem read_of_nonpos (h : m.answer.ret ≤ 0) : m.read = ([], false) := by
  rw [read, Int.toNat_of_nonpos h]
  have hnone : HoldsDirents m.answer.mem m.call.dp (m.call.dp + 0) [] := rfl
  exact readDirents_holds hnone (Nat.lt_succ_self _)

theorem Returns.inside (h : m.Returns b) (hframe : ∀ x, x < m.call.dp ∨ b.pos ≤ x → b.mem x = m.call.mem x) : m.Inside := by
  intro x hx
  have := h.stop
  rw [h.mem, hframe x (by omega)]

theorem Returns.read (h : m.Returns b) (hb : Appends m.call.buffer b rs) : m.read = (rs, false) := by
  have hle : m.call.dp ≤ b.pos := hb.le
  have hret := h.ret
  rw [MadeCall.read, h.mem, show m.call.dp + m.answer.ret.toNat = b.pos by omega]
  exact readDirents_holds hb.holds (show b.pos < m.call.dp + _ by omega)

/-- A call that returned with an error. -/
theorem stepRight_of_error (hmem : m.answer.mem = m.call.mem) (hret : m.answer.ret < 0)
    (htodo : todo m.answer.next = todo m.dir) : m.StepRight todo := by
  have hread := read_of_nonpos (le_of_lt hret)
  refine ⟨fun x _ => by rw [hmem], ?_, ?_, fun _ _ _ => hret⟩
  · rw [records, hread, htodo]
    rfl
  · rintro (h | h)
    · exact absurd h (by omega)
    · rw [hread] at h
      exact absurd h Bool.false_ne_true

/-- A call after the end. -/
theorem stepRight_of_end (hmem : m.answer.mem = m.call.mem) (hret : m.answer.ret = 0) (htodo : todo m.dir = [])
    (hnext : todo m.answer.next = []) : m.StepRight todo := by
  refine ⟨fun x _ => by rw [hmem], ?_, fun _ => hnext, fun r hr => ?_⟩
  · rw [records, read_of_nonpos (le_of_eq hret), htodo, hnext]
    rfl
  · rw [htodo] at hr
    cases hr

/-- A call that has returned some entries. -/
theorem stepRight_of_some (h : m.Returns b) (hb : Appends m.call.buffer b rs) (hne : rs ≠ [])
    (htodo : todo m.dir = rs ++ todo m.answer.next)
    (hroom : ∀ r, (todo m.dir).head? = some r → r.size ≤ m.call.len) : m.StepRight todo := by
  have hread := h.read hb
  have hlt : m.call.dp < b.pos := hb.lt hne
  refine ⟨h.inside hb.frame, ?_, ?_, fun r hr hlen => absurd (hroom r hr) (by omega)⟩
  · rw [records, hread, htodo]
  · rintro (h0 | h0)
    · have := h.ret
      omega
    · rw [hread] at h0
      exact absurd h0 Bool.false_ne_true

/-- A call that has returned the last entries, with a terminating entry if there is room. -/
theorem stepRight_of_all (hstop : (stop : ℤ) = m.call.dp + m.call.len) (hb : Appends m.call.buffer b rs) (hle : b.pos ≤ stop)
    (h : m.answer.mem = ((b.addTerminatingEntry stop).getD b).mem)
    (hret : m.answer.ret = ((b.addTerminatingEntry stop).getD b).pos - m.call.dp)
    (htodo : todo m.dir = rs) (hnext : todo m.answer.next = [])
    (hroom : ∀ r, (todo m.dir).head? = some r → r.size ≤ m.call.len) : m.StepRight todo := by
  have hpos : m.call.dp ≤ b.pos := hb.le
  have hread : m.Inside ∧ m.records = rs := by
    rw [DirBuffer.addTerminatingEntry] at h hret
    split_ifs at h hret with hfull
    · have hreturns : m.Returns b := ⟨h, hret, by omega⟩
      exact ⟨hreturns.inside hb.frame, by rw [records, hreturns.read hb]⟩
    · simp only [Option.getD_some] at h hret
      have hframe : ∀ x, x < b.pos ∨ b.pos + direntHeaderSize ≤ x → m.answer.mem x = b.mem x := by
        intro x hx
        rw [h, store_outside (by simpa using hx)]
      constructor
      · intro x hx
        rw [hframe x (by omega)]
        exact hb.frame x (by change x < m.call.dp ∨ _; omega)
      · have hzero := reclenAt_zero b.mem b.pos
        rw [← h] at hzero
        have hholds : HoldsDirents m.answer.mem m.call.dp b.pos rs := hb.holds.congr fun x _ hx => hframe x (.inl hx)
        have hheader : 0 < direntHeaderSize := by decide
        rw [records, MadeCall.read, show m.call.dp + m.answer.ret.toNat = b.pos + direntHeaderSize by omega,
          readDirents_holds_zero hholds hzero (by omega) (by omega)]
  refine ⟨hread.1, ?_, fun _ => hnext, fun r hr hlen => absurd (hroom r hr) (by omega)⟩
  rw [hread.2, hnext, htodo, List.append_nil]

end MadeCall

end Run

end Miosix
