import MiosixKernel.Filesystem.Directory
import MiosixKernel.Util.Errno
import Mathlib.Order.Lattice

/-!
# The calls that list a directory

A call of `getdents` returns as many entries as its buffer has room for, and the next one continues. Between calls a
`DevFsDirectory` or `MountpointFsDirectory` keeps the name of the next entry, a `Fat32Directory` the entry itself.
When not even the next entry fits, the first two return 0, which is how the end of a directory is told, and the last
one drops it.

* `MapDirectory`, `Fat32Directory`: the code;
* `MapDirectory.Room`, `Fat32Directory.Room`: the buffer has room for the next entry;
* **`run_listing`**: then the calls return every entry once.
-/

namespace Miosix

open Lib

/-! ## The loop over the entries -/

section Loop

variable {α : Type} (toDirent : α → Dirent)

/-- Entries are added until one does not fit. The ones left are returned. -/
def addFiles (stop : ℕ) : List α → DirBuffer → DirBuffer × List α
  | [], b => (b, [])
  | it :: its, b =>
    match b.addEntry stop (toDirent it) with
    | some b' => addFiles stop its b'
    | none => (b, it :: its)

/-- The result of `addTerminatingEntry` is ignored. -/
def DirBuffer.terminate (b : DirBuffer) (stop : ℕ) : DirBuffer := (b.addTerminatingEntry stop).getD b

/-- `return buffer-begin` -/
def DirectoryCall.returnBytes {σ : Type} (c : DirectoryCall) (b : DirBuffer) (next : σ) : DirectoryAnswer σ :=
  ⟨b.pos - c.dp, b.mem, next⟩

/-- One past the last byte of the buffer. -/
def DirectoryCall.stop (c : DirectoryCall) : ℕ := c.dp + c.len.toNat

end Loop

/-! ## Directories over a map -/

/-- A map from names to values, in order. -/
structure FileMap (V : Type) where
  files : List (List UInt8 × V)
  sorted : (files.map Prod.fst).Pairwise (· < ·)
  string : ∀ f ∈ files, 0 ∉ f.1

/-- `find`: the entries from one with the name on. -/
def FileMap.find {V : Type} (m : FileMap V) (name : List UInt8) : List (List UInt8 × V) :=
  m.files.dropWhile fun f => f.1 ≠ name

/-- A `DevFsDirectory` or a `MountpointFsDirectory`. -/
structure MapDirectory (V : Type) where
  files : FileMap V
  currentItem : List UInt8
  currentInode : BitVec 32
  parentInode : BitVec 32
  first : Bool
  last : Bool

namespace MapDirectory

variable {V : Type} (stat : V → BitVec 32 × UInt8)

/-- The constructors, with if the map is the content of the directory. -/
def new (files : FileMap V) (listed : Bool) (currentInode parentInode : BitVec 32) : MapDirectory V where
  files := files
  currentItem := if listed then (files.files.head?.map Prod.fst).getD [] else []
  currentInode := currentInode
  parentInode := parentInode
  first := true
  last := false

/-- The entry of a name, with the inode and the type of its value. -/
def direntOf (f : List UInt8 × V) : Dirent := ⟨(stat f.2).1, (stat f.2).2, f.1⟩

/-- The end of `getdents`, when all entries were added. -/
def finish (d : MapDirectory V) (c : DirectoryCall) (b : DirBuffer) : DirectoryAnswer (MapDirectory V) :=
  c.returnBytes (b.terminate c.stop) { d with last := true }

def getdents (d : MapDirectory V) (c : DirectoryCall) : DirectoryAnswer (MapDirectory V) :=
  if c.len < minimumBufferSize then ⟨-EINVAL, c.mem, d⟩
  else if d.last then ⟨0, c.mem, d⟩
  else
    let b := if d.first then c.buffer.addDefaultEntries d.currentInode d.parentInode else c.buffer
    let d := { d with first := false }
    if d.currentItem = [] then d.finish c b
    else
      match d.files.find d.currentItem with
      | [] => ⟨-EBADF, b.mem, d⟩
      | its =>
        match addFiles (direntOf stat) c.stop its b with
        | (b, []) => d.finish c b
        | (b, it :: _) => c.returnBytes b { d with currentItem := it.1 }

end MapDirectory

/-- What `Device::fstat` tells. -/
structure Device where
  st_ino : BitVec 32
  st_mode : ℕ

namespace DevFsDirectory

def stat (dev : Device) : BitVec 32 × UInt8 := (dev.st_ino, UInt8.ofNat (dev.st_mode >>> 12))

def new (files : FileMap Device) : BitVec 32 → BitVec 32 → MapDirectory Device := MapDirectory.new files true

def getdents : MapDirectory Device → DirectoryCall → DirectoryAnswer (MapDirectory Device) := MapDirectory.getdents stat

end DevFsDirectory

namespace MountpointFsDirectory

def stat (ino : BitVec 32) : BitVec 32 × UInt8 := (ino, DT_DIR)

def new (dirs : FileMap (BitVec 32)) (root : Bool) : BitVec 32 → BitVec 32 → MapDirectory (BitVec 32) :=
  MapDirectory.new dirs root

def getdents : MapDirectory (BitVec 32) → DirectoryCall → DirectoryAnswer (MapDirectory (BitVec 32)) :=
  MapDirectory.getdents stat

end MountpointFsDirectory

/-! ## Directories on a disk -/

/-- What `f_readdir` tells of an entry. -/
structure FilInfo where
  inode : BitVec 32
  fattrib : UInt8
  lfname : List UInt8

def AM_DIR : UInt8 := 0x10

def FilInfo.dirent (fi : FilInfo) : Dirent := ⟨fi.inode, if fi.fattrib &&& AM_DIR ≠ 0 then DT_DIR else DT_REG, fi.lfname⟩

/-- A `Fat32Directory`. Of `dir` there is how often it was read. -/
structure Fat32Directory where
  reads : ℕ
  fi : FilInfo
  currentInode : BitVec 32
  parentInode : BitVec 32
  first : Bool
  unfinished : Bool

namespace Fat32Directory

/-- The members that are not initialized are parameters. -/
def new (fi : FilInfo) (currentInode parentInode : BitVec 32) : Fat32Directory :=
  ⟨0, fi, currentInode, parentInode, true, false⟩

variable (f_readdir : ℕ → Except ℤ (Option FilInfo))

/-- The loop of `getdents`. The n-th call of `f_readdir` returns an error, an entry, or that there is none. -/
def readFiles (c : DirectoryCall) (d : Fat32Directory) (b : DirBuffer) : DirectoryAnswer Fat32Directory :=
  match f_readdir d.reads with
  | .error res => ⟨res, b.mem, { d with reads := d.reads + 1 }⟩
  | .ok none => c.returnBytes (b.terminate c.stop) { d with reads := d.reads + 1 }
  | .ok (some fi) =>
    let d := { d with reads := d.reads + 1, fi := fi }
    match _ : b.addEntry c.stop fi.dirent with
    | none => c.returnBytes b { d with unfinished := true }
    | some b' => readFiles c d b'
  termination_by c.stop - b.pos
  decreasing_by exact DirBuffer.addEntry_room ‹_›

def getdents (d : Fat32Directory) (c : DirectoryCall) : DirectoryAnswer Fat32Directory :=
  if c.len < minimumBufferSize then ⟨-EINVAL, c.mem, d⟩
  else
    let b := if d.first then c.buffer.addDefaultEntries d.currentInode d.parentInode else c.buffer
    let d := { d with first := false }
    if d.unfinished then
      let d := { d with unfinished := false }
      match b.addEntry c.stop d.fi.dirent with
      | none => ⟨-EINVAL, b.mem, d⟩
      | some b' => readFiles f_readdir c d b'
    else readFiles f_readdir c d b

end Fat32Directory

/-! ## The loop adds a part of the entries -/

section Loop

variable {α σ : Type} {toDirent : α → Dirent} {stop : ℕ} {its rest : List α} {b b' : DirBuffer} {it : α}
  {todo : σ → List Dirent} {m : MadeCall σ} {rs : List Dirent}

theorem addFiles_spec (hsound : ∀ x ∈ its, (toDirent x).Sound) (hle : b.pos ≤ stop) :
    ∃ done, its = done ++ (addFiles toDirent stop its b).2 ∧
      Appends b (addFiles toDirent stop its b).1 (done.map toDirent) ∧ (addFiles toDirent stop its b).1.pos ≤ stop := by
  induction its generalizing b with
  | nil => exact ⟨[], rfl, .nil b, hle⟩
  | cons it its ih =>
    rw [addFiles]
    cases hadd : b.addEntry stop (toDirent it) with
    | none => exact ⟨[], rfl, .nil b, hle⟩
    | some b' =>
      obtain ⟨happ, hle'⟩ := DirBuffer.addEntry_appends (hsound it List.mem_cons_self) hadd
      obtain ⟨done, hits, hdone, hstop⟩ := ih (fun x hx => hsound x (List.mem_cons_of_mem it hx)) hle'
      exact ⟨it :: done, congrArg (it :: ·) hits, happ.trans hdone, hstop⟩

/-- The loop goes on as long as there is room. -/
theorem addFiles_cons (h : b.pos + (toDirent it).size ≤ stop) :
    addFiles toDirent stop (it :: its) b = addFiles toDirent stop its (b.put (toDirent it) (toDirent it).size) := by
  rw [addFiles]
  cases hadd : b.addEntry stop (toDirent it) with
  | none => exact absurd (DirBuffer.addEntry_eq_none.1 hadd) (by omega)
  | some b' => rw [(DirBuffer.addEntry_eq_some hadd).1]

theorem defaults_appends (c : DirectoryCall) (first : Bool) (thisIno upIno : BitVec 32) (hlen : minimumBufferSize ≤ c.len) :
    Appends c.buffer (if first then c.buffer.addDefaultEntries thisIno upIno else c.buffer)
        (if first then [dot thisIno, dotDot upIno] else []) ∧
      (if first then c.buffer.addDefaultEntries thisIno upIno else c.buffer).pos ≤ c.stop := by
  cases first with
  | false => exact ⟨.nil _, Nat.le_add_right _ _⟩
  | true =>
    refine ⟨DirBuffer.addDefaultEntries_appends _ _ _, ?_⟩
    have h48 : minimumBufferSize = 72 ∧ 2 * direntHeaderSize = 48 := by decide
    rw [if_pos rfl, DirBuffer.addDefaultEntries_pos, h48.2]
    change c.dp + 48 ≤ c.dp + c.len.toNat
    omega

theorem stop_eq {c : DirectoryCall} (hlen : minimumBufferSize ≤ c.len) : (c.stop : ℤ) = c.dp + c.len := by
  rw [DirectoryCall.stop]
  omega

/-- A call that adds `rs` and then the entries `its` in a loop, if the first of all these fits in the buffer. -/
theorem stepRight_of_addFiles (hstop : m.call.stop = m.call.dp + m.call.len) (hb : Appends m.call.buffer b rs)
    (hle : b.pos ≤ m.call.stop) (hsound : ∀ x ∈ its, (toDirent x).Sound) (htodo : todo m.dir = rs ++ its.map toDirent)
    (hroom : ∀ r, (todo m.dir).head? = some r → r.size ≤ m.call.len)
    (hall : (addFiles toDirent m.call.stop its b).2 = [] → ∃ next, todo next = [] ∧
      m.answer = m.call.returnBytes ((addFiles toDirent m.call.stop its b).1.terminate m.call.stop) next)
    (hsome : ∀ it rest, (addFiles toDirent m.call.stop its b).2 = it :: rest → ∃ next,
      todo next = (it :: rest).map toDirent ∧ m.answer = m.call.returnBytes (addFiles toDirent m.call.stop its b).1 next) :
    m.StepRight todo := by
  obtain ⟨done, hits, hdone, hpos⟩ := addFiles_spec hsound hle
  have happ := hb.trans hdone
  cases hrest : (addFiles toDirent m.call.stop its b).2 with
  | nil =>
    obtain ⟨next, hnext, hanswer⟩ := hall hrest
    rw [hrest, List.append_nil] at hits
    exact MadeCall.stepRight_of_all hstop happ hpos (by rw [hanswer]; rfl) (by rw [hanswer]; rfl) (by rw [htodo, hits])
      (by rw [hanswer]; exact hnext) hroom
  | cons it rest =>
    obtain ⟨next, hnext, hanswer⟩ := hsome it rest hrest
    refine MadeCall.stepRight_of_some ⟨by rw [hanswer]; rfl, by rw [hanswer]; rfl, by omega⟩ happ ?_ ?_ hroom
    · intro hnil
      -- Nothing was added, but the first entry fits.
      obtain ⟨rfl, hmap⟩ := List.append_eq_nil_iff.1 hnil
      obtain rfl := List.map_eq_nil_iff.1 hmap
      rw [List.nil_append, hrest] at hits
      have hfits := hroom (toDirent it) (by rw [htodo, hits]; rfl)
      have hbpos : m.call.dp = b.pos := hb.holds
      rw [hits, addFiles_cons (by omega)] at hrest
      have hlen := congrArg List.length hrest
      have hput : (b.put (toDirent it) (toDirent it).size).pos ≤ m.call.stop := show b.pos + _ ≤ _ by omega
      have hrestsound : ∀ x ∈ rest, (toDirent x).Sound := fun x hx => hsound x (hits ▸ List.mem_cons_of_mem it hx)
      obtain ⟨done, hsplit, -, -⟩ := addFiles_spec hrestsound hput
      have hlen' := congrArg List.length hsplit
      rw [List.length_append] at hlen'
      rw [List.length_cons] at hlen
      omega
    · rw [htodo, hanswer, List.append_assoc, show (m.call.returnBytes _ next).next = next from rfl, hnext, ← hrest,
        ← List.map_append, ← hits]

end Loop

/-! ## Calls on a directory over a map -/

section Map

variable {V : Type} {stat : V → BitVec 32 × UInt8} {files : FileMap V} {d : MapDirectory V} {c : DirectoryCall}
  {f : List UInt8 × V} {done rest : List (List UInt8 × V)} {name : List UInt8}

/-- `find` finds an entry, as no other one has its name. -/
theorem FileMap.find_eq (h : files.files = done ++ f :: rest) : files.find f.1 = f :: rest := by
  have hsorted := files.sorted
  rw [h, List.map_append, List.map_cons, List.pairwise_append] at hsorted
  have hne : ∀ g ∈ done, decide (g.1 ≠ f.1) = true := by
    intro g hg
    have hlt : g.1 < f.1 := hsorted.2.2 _ (List.mem_map_of_mem hg) _ List.mem_cons_self
    exact decide_eq_true fun heq => List.lt_irrefl _ (heq ▸ hlt)
  rw [FileMap.find, h, List.dropWhile_append_of_pos hne, List.dropWhile_cons_of_neg (by simp)]

/-- No name is empty, and every size fits in `d_reclen`. -/
structure FileMap.Listable (files : FileMap V) : Prop where
  named : ∀ f ∈ files.files, f.1 ≠ []
  short : ∀ f ∈ files.files, recordLength f.1 < 2 ^ 16

namespace MapDirectory

/-- The entries that are left. -/
def remaining (d : MapDirectory V) : List (List UInt8 × V) := if d.currentItem = [] then [] else d.files.find d.currentItem

def todo (stat : V → BitVec 32 × UInt8) (d : MapDirectory V) : List Dirent :=
  if d.last then []
  else (if d.first then [dot d.currentInode, dotDot d.parentInode] else []) ++ d.remaining.map (direntOf stat)

/-- The buffer has room for the next entry. -/
def Room (d : MapDirectory V) (c : DirectoryCall) : Prop :=
  d.first = false → d.last = false → minimumBufferSize ≤ c.len → recordLength d.currentItem ≤ c.len

/-- The saved name is the one of an entry. -/
structure Inv (d : MapDirectory V) : Prop where
  listable : d.files.Listable
  saved : d.currentItem ≠ [] → ∃ v done rest, d.files.files = done ++ (d.currentItem, v) :: rest

theorem remaining_suffix : d.remaining <:+ d.files.files := by
  unfold MapDirectory.remaining
  split_ifs with hnil
  · exact List.nil_suffix
  · exact List.dropWhile_suffix _

theorem Inv.remaining_head (h : d.Inv) (hf : d.remaining.head? = some f) : f.1 = d.currentItem := by
  unfold MapDirectory.remaining at hf
  split_ifs at hf with hnil
  · cases hf
  · obtain ⟨v, done, rest, hfiles⟩ := h.saved hnil
    rw [FileMap.find_eq hfiles] at hf
    exact congrArg Prod.fst (Option.some.inj hf).symm

theorem Inv.sound (h : d.Inv) : ∀ f ∈ d.remaining, (direntOf stat f).Sound := fun f hf =>
  ⟨d.files.string f (remaining_suffix.subset hf), h.listable.short f (remaining_suffix.subset hf)⟩

/-- The first entry that is left fits. -/
theorem Inv.todo_head (h : d.Inv) (hroom : d.Room c) (hlen : minimumBufferSize ≤ c.len) (r : Dirent)
    (hr : (d.todo stat).head? = some r) : r.size ≤ c.len := by
  unfold todo at hr
  have h72 : minimumBufferSize = 72 := by decide
  split_ifs at hr with hlast hfirst
  · cases hr
  · obtain rfl := Option.some.inj hr
    rw [dot_size, show direntHeaderSize = 24 by decide]
    omega
  · rw [List.nil_append, List.head?_map] at hr
    obtain ⟨f, hf, rfl⟩ := Option.map_eq_some_iff.1 hr
    have hle := hroom (Bool.eq_false_of_not_eq_true hfirst) (Bool.eq_false_of_not_eq_true hlast) hlen
    rw [← h.remaining_head hf] at hle
    exact hle

/-- Past the first check, a call is the loop over the entries that are left. -/
theorem getdents_eq (h : d.Inv) (hlen : minimumBufferSize ≤ c.len) (hlast : d.last = false) :
    d.getdents stat c =
      let b := if d.first then c.buffer.addDefaultEntries d.currentInode d.parentInode else c.buffer
      let r := addFiles (direntOf stat) c.stop d.remaining b
      match r.2 with
      | [] => { d with first := false }.finish c r.1
      | it :: _ => c.returnBytes r.1 { d with first := false, currentItem := it.1 } := by
  rw [getdents, if_neg (by omega), hlast, if_neg Bool.false_ne_true]
  simp only [remaining]
  by_cases hnil : d.currentItem = []
  · rw [if_pos hnil, if_pos hnil]
    rfl
  · obtain ⟨v, done, rest, hfiles⟩ := h.saved hnil
    rw [if_neg hnil, if_neg hnil, FileMap.find_eq hfiles]
    cases hadd : addFiles (direntOf stat) c.stop ((d.currentItem, v) :: rest)
      (if d.first = true then c.buffer.addDefaultEntries d.currentInode d.parentInode else c.buffer) with
    | mk b its => cases its <;> simp only [hadd]

/-- **A call whose buffer has room for the next entry does its part.** -/
theorem getdents_step (d : MapDirectory V) (c : DirectoryCall) (h : d.Inv) (hroom : d.Room c) :
    (d.getdents stat c).next.Inv ∧ MadeCall.StepRight (todo stat) ⟨d, c, d.getdents stat c⟩ := by
  by_cases hlen : c.len < minimumBufferSize
  · rw [getdents, if_pos hlen]
    exact ⟨h, MadeCall.stepRight_of_error rfl (by decide : -EINVAL < 0) rfl⟩
  cases hlast : d.last with
  | true =>
    rw [getdents, if_neg hlen, hlast, if_pos rfl]
    exact ⟨h, MadeCall.stepRight_of_end rfl rfl (by rw [todo, if_pos hlast]) (by rw [todo, if_pos hlast])⟩
  | false =>
    rw [not_lt] at hlen
    rw [getdents_eq h hlen hlast]
    obtain ⟨happ, hle⟩ := defaults_appends c d.first d.currentInode d.parentInode hlen
    set b := if d.first then c.buffer.addDefaultEntries d.currentInode d.parentInode else c.buffer
    have hsound : ∀ f ∈ d.remaining, (direntOf stat f).Sound := h.sound
    obtain ⟨done, hits, -, -⟩ := addFiles_spec hsound hle
    obtain ⟨before, hfiles⟩ := d.remaining_suffix
    have hcut : ∀ it rest, (addFiles (direntOf stat) c.stop d.remaining b).2 = it :: rest →
        d.files.files = (before ++ done) ++ it :: rest := by
      intro it rest hrest
      rw [← hfiles, hits, hrest, List.append_assoc]
    constructor
    · cases hrest : (addFiles (direntOf stat) c.stop d.remaining b).2 <;> simp only [hrest]
      case nil => exact ⟨h.listable, h.saved⟩
      case cons it rest => exact ⟨h.listable, fun _ => ⟨it.2, before ++ done, rest, hcut it rest hrest⟩⟩
    · refine stepRight_of_addFiles (stop_eq hlen) happ hle hsound ?_ (h.todo_head hroom hlen) ?_ ?_
      · rw [todo, hlast, if_neg Bool.false_ne_true]
      · intro hrest
        simp only [hrest]
        exact ⟨{ d with first := false, last := true }, rfl, rfl⟩
      · intro it rest hrest
        simp only [hrest]
        refine ⟨{ d with first := false, currentItem := it.1 }, ?_, rfl⟩
        have hname : it.1 ≠ [] := h.listable.named it (by rw [hcut it rest hrest]; simp)
        rw [todo, hlast, if_neg Bool.false_ne_true, if_neg Bool.false_ne_true, List.nil_append, remaining, if_neg hname,
          FileMap.find_eq (hcut it rest hrest)]

theorem new_inv (hfiles : files.Listable) (listed : Bool) (currentInode parentInode : BitVec 32) :
    (new files listed currentInode parentInode).Inv := by
  refine ⟨hfiles, fun hnil => ?_⟩
  cases hf : files.files with
  | nil => exact absurd (by simp [new, hf]) hnil
  | cons f rest =>
    cases listed with
    | false => exact absurd rfl hnil
    | true => exact ⟨f.2, [], rest, by simp [new, hf]⟩

theorem new_todo (hfiles : files.Listable) (listed : Bool) (currentInode parentInode : BitVec 32) :
    (new files listed currentInode parentInode).todo stat = dot currentInode :: dotDot parentInode ::
      (if listed then files.files else []).map (direntOf stat) := by
  cases listed with
  | false => rfl
  | true =>
    cases hf : files.files with
    | nil => simp [todo, new, remaining, hf]
    | cons f rest =>
      have hname : f.1 ≠ [] := hfiles.named f (by rw [hf]; exact List.mem_cons_self)
      have hfind : files.find f.1 = f :: rest := FileMap.find_eq (show files.files = [] ++ f :: rest from hf)
      simp [todo, new, remaining, hf, hname, hfind]

end MapDirectory

end Map

/-! ## Calls on a directory on a disk -/

/-- The size of the buffer for a name. -/
def lfnSize : ℕ := (255 + 1) * 2

/-- The calls of `f_readdir` produce some entries, and then that there are no more. -/
structure Produces (f_readdir : ℕ → Except ℤ (Option FilInfo)) (entries : List FilInfo) : Prop where
  result : ∀ n, f_readdir n = .ok entries[n]?
  string : ∀ fi ∈ entries, 0 ∉ fi.lfname
  fits : ∀ fi ∈ entries, fi.lfname.length < lfnSize

namespace Fat32Directory

variable {f_readdir : ℕ → Except ℤ (Option FilInfo)} {entries its rest : List FilInfo} {d d' : Fat32Directory}
  {c : DirectoryCall} {b : DirBuffer} {rs : List Dirent} {fi : FilInfo}

theorem dirent_sound (h : Produces f_readdir entries) (hfi : fi ∈ entries) : fi.dirent.Sound := by
  refine ⟨h.string fi hfi, ?_⟩
  have hfits := h.fits fi hfi
  rw [show lfnSize = 512 from rfl] at hfits
  change (19 + fi.lfname.length + 1 + 3) / 4 * 4 < 2 ^ 16
  omega

/-- The entries that are left. -/
def todo (entries : List FilInfo) (d : Fat32Directory) : List Dirent :=
  (if d.first then [dot d.currentInode, dotDot d.parentInode] else []) ++
    ((if d.unfinished then [d.fi] else []) ++ entries.drop d.reads).map FilInfo.dirent

/-- The buffer has room for the entry that was kept. -/
def Room (d : Fat32Directory) (c : DirectoryCall) : Prop :=
  d.unfinished = true → minimumBufferSize ≤ c.len → recordLength d.fi.lfname ≤ c.len

/-- Before the end, there is an entry that was kept. -/
structure Inv (entries : List FilInfo) (d : Fat32Directory) : Prop where
  kept : d.unfinished = true → d.first = false ∧ d.fi ∈ entries
  ended : d.first = false → d.unfinished = false → entries.length ≤ d.reads

/-- The loop of `getdents` adds the entries that `f_readdir` produces. -/
theorem readFiles_spec (h : Produces f_readdir entries) (hits : entries.drop d.reads = its) :
    ((addFiles FilInfo.dirent c.stop its b).2 = [] → ∃ fi reads, entries.length ≤ reads ∧
      readFiles f_readdir c d b =
        c.returnBytes ((addFiles FilInfo.dirent c.stop its b).1.terminate c.stop) { d with fi := fi, reads := reads }) ∧
    ∀ fi rest, (addFiles FilInfo.dirent c.stop its b).2 = fi :: rest → ∃ reads, entries.drop reads = rest ∧
      readFiles f_readdir c d b =
        c.returnBytes (addFiles FilInfo.dirent c.stop its b).1 { d with fi := fi, reads := reads, unfinished := true } := by
  induction its generalizing d b with
  | nil =>
    have hle := List.drop_eq_nil_iff.1 hits
    refine ⟨fun _ => ⟨d.fi, d.reads + 1, by omega, ?_⟩, nofun⟩
    rw [readFiles, h.result, List.getElem?_eq_none hle]
    rfl
  | cons it its ih =>
    have hread : entries[d.reads]? = some it := by rw [← List.head?_drop, hits]; rfl
    have hdrop : entries.drop (d.reads + 1) = its := by rw [← List.tail_drop, hits]; rfl
    rw [readFiles, h.result, hread]
    simp only [addFiles]
    cases hadd : b.addEntry c.stop it.dirent with
    | none =>
      refine ⟨nofun, fun fi rest hrest => ?_⟩
      obtain ⟨rfl, rfl⟩ := List.cons.inj hrest
      exact ⟨d.reads + 1, hdrop, rfl⟩
    | some b' => exact ih (d := { d with reads := d.reads + 1, fi := it }) hdrop

/-- A call that adds `rs` and then goes on with the loop. -/
theorem readFiles_step (h : Produces f_readdir entries) (hlen : minimumBufferSize ≤ c.len) (hfirst : d'.first = false)
    (hunfinished : d'.unfinished = false) (happ : Appends c.buffer b rs) (hle : b.pos ≤ c.stop)
    (htodo : d.todo entries = rs ++ (entries.drop d'.reads).map FilInfo.dirent)
    (hroom : ∀ r, (d.todo entries).head? = some r → r.size ≤ c.len) :
    (readFiles f_readdir c d' b).next.Inv entries ∧
      MadeCall.StepRight (todo entries) ⟨d, c, readFiles f_readdir c d' b⟩ := by
  obtain ⟨hall, hsome⟩ := readFiles_spec (c := c) (b := b) h (rfl : entries.drop d'.reads = _)
  have hsound : ∀ fi ∈ entries.drop d'.reads, fi.dirent.Sound := fun fi hfi => dirent_sound h (List.mem_of_mem_drop hfi)
  constructor
  · cases hrest : (addFiles FilInfo.dirent c.stop (entries.drop d'.reads) b).2 with
    | nil =>
      obtain ⟨fi, reads, hreads, hanswer⟩ := hall hrest
      rw [hanswer]
      exact ⟨fun hk => absurd (hunfinished.symm.trans hk) Bool.false_ne_true, fun _ _ => hreads⟩
    | cons fi rest =>
      obtain ⟨reads, hreads, hanswer⟩ := hsome fi rest hrest
      obtain ⟨done, hits, -, -⟩ := addFiles_spec hsound hle
      have hfi : fi ∈ entries.drop d'.reads := by
        rw [hits, hrest]
        simp
      rw [hanswer]
      exact ⟨fun _ => ⟨hfirst, List.mem_of_mem_drop hfi⟩, fun _ hk => absurd hk.symm Bool.false_ne_true⟩
  · refine stepRight_of_addFiles (stop_eq hlen) happ hle hsound htodo hroom ?_ ?_
    · intro hrest
      obtain ⟨fi, reads, hreads, hanswer⟩ := hall hrest
      refine ⟨_, ?_, hanswer⟩
      simp [todo, hfirst, hunfinished, List.drop_eq_nil_of_le hreads]
    · intro fi rest hrest
      obtain ⟨reads, hreads, hanswer⟩ := hsome fi rest hrest
      refine ⟨_, ?_, hanswer⟩
      simp [todo, hfirst, hreads]

/-- The first entry that is left fits. -/
theorem Inv.todo_head (h : d.Inv entries) (hroom : d.Room c) (hlen : minimumBufferSize ≤ c.len) (r : Dirent)
    (hr : (d.todo entries).head? = some r) : r.size ≤ c.len := by
  have h72 : minimumBufferSize = 72 := by decide
  cases hfirst : d.first with
  | true =>
    rw [todo, hfirst] at hr
    obtain rfl := Option.some.inj hr
    rw [dot_size, show direntHeaderSize = 24 by decide]
    omega
  | false =>
    cases hkept : d.unfinished with
    | true =>
      rw [todo, hfirst, hkept] at hr
      obtain rfl := Option.some.inj hr
      exact hroom hkept hlen
    | false =>
      rw [todo, hfirst, hkept, List.drop_eq_nil_of_le (h.ended hfirst hkept)] at hr
      cases hr

/-- **A call whose buffer has room for the next entry does its part.** -/
theorem getdents_step (hp : Produces f_readdir entries) (d : Fat32Directory) (c : DirectoryCall) (h : d.Inv entries)
    (hroom : d.Room c) : (d.getdents f_readdir c).next.Inv entries ∧
      MadeCall.StepRight (todo entries) ⟨d, c, d.getdents f_readdir c⟩ := by
  by_cases hlen : c.len < minimumBufferSize
  · rw [getdents, if_pos hlen]
    exact ⟨h, MadeCall.stepRight_of_error rfl (by decide : -EINVAL < 0) rfl⟩
  rw [not_lt] at hlen
  rw [getdents, if_neg (not_lt.2 hlen)]
  have hhead := h.todo_head hroom hlen
  cases hkept : d.unfinished with
  | false =>
    obtain ⟨happ, hle⟩ := defaults_appends c d.first d.currentInode d.parentInode hlen
    refine readFiles_step hp hlen rfl rfl happ hle ?_ hhead
    rw [todo, hkept]
    rfl
  | true =>
    obtain ⟨hfirst, hfi⟩ := h.kept hkept
    have hstop := stop_eq hlen
    have hsize := hroom hkept hlen
    rw [hfirst]
    simp only [if_true, Bool.false_eq_true, if_false]
    cases hadd : c.buffer.addEntry c.stop d.fi.dirent with
    | none =>
      have hfull : c.stop < c.dp + recordLength d.fi.lfname := DirBuffer.addEntry_eq_none.1 hadd
      omega
    | some b =>
      obtain ⟨happ, hle⟩ := DirBuffer.addEntry_appends (dirent_sound hp hfi) hadd
      refine readFiles_step hp hlen rfl rfl happ hle ?_ hhead
      rw [todo, hfirst, hkept]
      rfl

theorem new_inv (entries : List FilInfo) (fi : FilInfo) (currentInode parentInode : BitVec 32) :
    (new fi currentInode parentInode).Inv entries :=
  ⟨fun h => absurd h Bool.false_ne_true, fun h => absurd h.symm Bool.false_ne_true⟩

end Fat32Directory

/-! ## Runs -/

/-- **If no name is empty, every size fits in `d_reclen`, and each buffer of 72 bytes or more has room for the next
entry, successive calls list the directory.** -/
theorem run_listing (i j : BitVec 32) (cs : List DirectoryCall) :
    (∀ files : FileMap Device, files.Listable →
      (∀ m ∈ runGetdents DevFsDirectory.getdents (DevFsDirectory.new files i j) cs, m.dir.Room m.call) →
      ListingRight (dot i :: dotDot j :: files.files.map (MapDirectory.direntOf DevFsDirectory.stat))
        (runGetdents DevFsDirectory.getdents (DevFsDirectory.new files i j) cs)) ∧
    (∀ (dirs : FileMap (BitVec 32)) (root : Bool), dirs.Listable →
      (∀ m ∈ runGetdents MountpointFsDirectory.getdents (MountpointFsDirectory.new dirs root i j) cs, m.dir.Room m.call) →
      ListingRight (dot i :: dotDot j ::
          (if root then dirs.files else []).map (MapDirectory.direntOf MountpointFsDirectory.stat))
        (runGetdents MountpointFsDirectory.getdents (MountpointFsDirectory.new dirs root i j) cs)) ∧
    ∀ (f_readdir : ℕ → Except ℤ (Option FilInfo)) (entries : List FilInfo) (fi : FilInfo), Produces f_readdir entries →
      (∀ m ∈ runGetdents (Fat32Directory.getdents f_readdir) (Fat32Directory.new fi i j) cs, m.dir.Room m.call) →
      ListingRight (dot i :: dotDot j :: entries.map FilInfo.dirent)
        (runGetdents (Fat32Directory.getdents f_readdir) (Fat32Directory.new fi i j) cs) := by
  refine ⟨fun files hfiles hroom => ?_, fun dirs root hdirs hroom => ?_, fun f_readdir entries fi hp hroom => ?_⟩
  · have h := run_right MapDirectory.getdents_step (MapDirectory.new_inv hfiles true i j) hroom
    rwa [MapDirectory.new_todo hfiles] at h
  · have h := run_right MapDirectory.getdents_step (MapDirectory.new_inv hdirs root i j) hroom
    rwa [MapDirectory.new_todo hdirs] at h
  · exact run_right (Fat32Directory.getdents_step hp) (Fat32Directory.new_inv entries fi i j) hroom

/-- The directory with the two devices that are always there. -/
def nullZero : FileMap Device where
  files := [([0x6e, 0x75, 0x6c, 0x6c], ⟨2#32, 0o020750⟩), ([0x7a, 0x65, 0x72, 0x6f], ⟨3#32, 0o020750⟩)]
  sorted := by decide
  string := by decide

def mountpoints : FileMap (BitVec 32) where
  files := [([0x62, 0x69, 0x6e], 2#32), ([0x64, 0x65, 0x76], 3#32)]
  sorted := by decide
  string := by decide

def oneFile : List FilInfo := [⟨2#32, 0, [0x61]⟩]

/-- A call with a buffer of some length. -/
def callWith (len : ℤ) : DirectoryCall := ⟨0, len, fun _ => 0⟩

instance {V : Type} (d : MapDirectory V) (c : DirectoryCall) : Decidable (d.Room c) := by
  unfold MapDirectory.Room
  infer_instance

/-- Listings in several calls, one of them with a buffer that is too small. -/
theorem run_listing_calls :
    ListingRight (dot 1#32 :: dotDot 1#32 :: nullZero.files.map (MapDirectory.direntOf DevFsDirectory.stat))
        (runGetdents DevFsDirectory.getdents (DevFsDirectory.new nullZero 1#32 1#32) [callWith 72, callWith 10, callWith 72]) ∧
      ListingRight (dot 1#32 :: dotDot 1#32 :: mountpoints.files.map (MapDirectory.direntOf MountpointFsDirectory.stat))
        (runGetdents MountpointFsDirectory.getdents (MountpointFsDirectory.new mountpoints true 1#32 1#32)
          [callWith 10, callWith 72, callWith 100]) ∧
      ListingRight (dot 1#32 :: dotDot 1#32 :: oneFile.map FilInfo.dirent)
        (runGetdents (Fat32Directory.getdents fun n => .ok oneFile[n]?) (Fat32Directory.new ⟨0#32, 0, []⟩ 1#32 1#32)
          [callWith 10, callWith 100]) := by
  refine ⟨(run_listing 1#32 1#32 _).1 nullZero ⟨by decide, by decide⟩ (by decide +kernel),
    (run_listing 1#32 1#32 _).2.1 mountpoints true ⟨by decide, by decide⟩ (by decide +kernel),
    (run_listing 1#32 1#32 _).2.2 _ oneFile ⟨0#32, 0, []⟩ ⟨fun _ => rfl, by decide, by decide⟩ ?_⟩
  intro m hm hkept
  simp only [runGetdents, List.mem_cons, List.not_mem_nil, or_false] at hm
  obtain rfl | rfl := hm
  · exact absurd hkept Bool.false_ne_true
  · exact absurd hkept Bool.false_ne_true

/-- A directory with a name for which a buffer of 72 bytes is too small. -/
def longName : FileMap Device where
  files := [(List.replicate 53 0x61, ⟨2#32, 0o020750⟩)]
  sorted := by decide
  string := by decide

/-- The second call returns 0, but the entry was not returned. -/
theorem not_right_long_name :
    ¬ ListingRight (dot 1#32 :: dotDot 1#32 :: longName.files.map (MapDirectory.direntOf DevFsDirectory.stat))
      (runGetdents DevFsDirectory.getdents (DevFsDirectory.new longName 1#32 1#32) [callWith 72, callWith 72]) := by
  intro h
  have hcomplete := h.complete [_] _ [] rfl (by decide +kernel) (by decide +kernel)
  exact absurd hcomplete (by decide +kernel)

end Miosix
