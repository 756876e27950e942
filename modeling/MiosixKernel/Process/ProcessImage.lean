import MiosixKernel.Lib.Bytes
import MiosixKernel.Process.Alloc
import MiosixKernel.Process.ElfSafety

/-!
# The image of a process

`ProcessImage::load` takes a block of the process pool for each `DT_MX_RAMSIZE` entry that it reads, and fills the
last one: the data segment is copied from the file, the part that is not in the file is zero, and the words that the
`R_ARM_RELATIVE` entries name are relocated in place.

* `ProcessImage.load`, `ProcessImage.destroy`: the code, on the pool and the memory;
* `ElfFile.dynamic`, `ElfFile.relocations`: what the file says;
* `Relocated`: the image after the relocations; **`fillImage_spec`**: what is in it.
-/

namespace Miosix

open Lib Elf

/-! ## The model -/

/-- An exception or a fault of the program, or one of the pool. -/
inductive LoadError where
  | program (e : ElfError)
  | pool (e : PoolError)

/-- A `ProcessImage`, with the pool and the memory. -/
structure ProcessImage where
  image : Option ℕ
  size : ℕ
  pool : ProcessPool
  mem : ℕ → UInt8

/-- The constructor. -/
def ProcessImage.new (pool : ProcessPool) (mem : ℕ → UInt8) : ProcessImage := ⟨none, 0, pool, mem⟩

/-- The local variables of `load`. -/
structure ImageLoading extends ProcessImage where
  dataSegment : Option Phdr
  dtRel : ℕ
  dtRelsz : ℕ
  hasRelocs : Bool

namespace ProcessImage

variable {α : Type}

/-- A part of `load` that reads the file. -/
def file (x : Except ElfError α) : Except LoadError α := x.mapError .program

/-- A call on the pool. -/
def call (m : PoolM α) (pool : ProcessPool) : Except LoadError (α × ProcessPool) :=
  match m pool with
  | .ok a pool => .ok (a, pool)
  | .error e _ => .error (.pool e)

/-- `if(image) ProcessPool::instance().deallocate(image)` -/
def release (s : ProcessImage) : Except LoadError ProcessImage :=
  match s.image with
  | none => pure s
  | some p => do
    let r ← call (ProcessPool.deallocate p) s.pool
    pure { s with pool := r.2 }

/-- The destructor. -/
def destroy : ProcessImage → Except LoadError ProcessImage := release

/-- One entry of the dynamic segment. -/
def loadEntry (f : ElfFile) (off : ℕ) (l : ImageLoading) : Except LoadError ImageLoading := do
  let tag ← file (f.readWord off)
  if tag = dtRel then do
    let ptr ← file (f.readWord (off + 4))
    pure { l with hasRelocs := true, dtRel := ptr }
  else if tag = dtRelsz then do
    let val ← file (f.readWord (off + 4))
    pure { l with hasRelocs := true, dtRelsz := val }
  else if tag = dtMxRamsize then do
    let val ← file (f.readWord (off + 4))
    let r ← call (ProcessPool.allocate val) l.pool
    pure { l with size := val, image := some r.1, pool := r.2 }
  else pure l

/-- The loop over the entries of the dynamic segment. -/
def loadDynamic (f : ElfFile) : ℕ → ℕ → ImageLoading → Except LoadError ImageLoading
  | 0, _, l => pure l
  | n + 1, off, l => do
    let l ← loadEntry f off l
    loadDynamic f n (off + sizeofDyn) l

def loadSegment (f : ElfFile) (ph : Phdr) (l : ImageLoading) : Except LoadError ImageLoading :=
  if ph.isLoad then
    if ph.pfW && !ph.pfX then pure { l with dataSegment := some ph } else pure l
  else if ph.isDynamic then loadDynamic f (ph.memsz / sizeofDyn) ph.offset l
  else pure l

/-- The loop over the program headers. -/
def loadSegments (f : ElfFile) : ℕ → ℕ → ImageLoading → Except LoadError ImageLoading
  | 0, _, l => pure l
  | n + 1, off, l => do
    let ph ← file (f.readPhdr off)
    let l ← loadSegment f ph l
    loadSegments f n (off + sizeofPhdr) l

/-- The bytes of the block that `image` points to. -/
def bytes (s : ProcessImage) (p : ℕ) : List UInt8 := Lib.load s.mem p s.size

def load (s : ProcessImage) (f : ElfFile) : Except LoadError ProcessImage := do
  let s ← s.release
  let e ← file f.readEhdr
  let l ← loadSegments f e.phnum e.phoff { s with dataSegment := none, dtRel := 0, dtRelsz := 0, hasRelocs := false }
  match l.dataSegment, l.image with
  | none, _ => throw (.program .noDataSegment)
  | _, none => throw (.program .noImage)
  | some data, some p => do
    let found : Loading := ⟨l.dataSegment, l.dtRel, l.dtRelsz, l.hasRelocs, none, 0⟩
    let image ← file (f.fillImage p found data (l.bytes p))
    pure { l.toProcessImage with mem := store l.mem p image }

theorem file_eq_ok {x : Except ElfError α} {a : α} (h : file x = .ok a) : x = .ok a := by
  cases x with
  | error e => cases h
  | ok b => exact congrArg _ (Except.ok.inj h)

theorem call_eq_ok {m : PoolM α} {pool : ProcessPool} {r : α × ProcessPool} (h : call m pool = .ok r) :
    m pool = .ok r.1 r.2 := by
  unfold call at h
  split at h <;> cases h
  assumption

end ProcessImage

/-! ## What the file says -/

namespace ElfFile

variable {f : ElfFile} {off n : ℕ}

/-- The program headers from an offset on. -/
def phdrsFrom (f : ElfFile) : ℕ → ℕ → List Phdr
  | 0, _ => []
  | n + 1, off => f.phdr off :: f.phdrsFrom n (off + sizeofPhdr)

def phdrs (f : ElfFile) : List Phdr := f.phdrsFrom f.ehdr.phnum f.ehdr.phoff

/-- The tags and values of a dynamic segment. -/
def entriesFrom (f : ElfFile) : ℕ → ℕ → List (ℕ × ℕ)
  | 0, _ => []
  | n + 1, off => (f.word off, f.word (off + 4)) :: f.entriesFrom n (off + sizeofDyn)

def entriesOf (f : ElfFile) (ph : Phdr) : List (ℕ × ℕ) :=
  if ph.isDynamic then f.entriesFrom (ph.memsz / sizeofDyn) ph.offset else []

/-- The entries of the dynamic segment. -/
def dynamic (f : ElfFile) : List (ℕ × ℕ) := f.phdrs.flatMap f.entriesOf

/-- The values of the `DT_MX_RAMSIZE` entries. -/
def ramSizes (es : List (ℕ × ℕ)) : List ℕ := (es.filter fun e => e.1 = dtMxRamsize).map Prod.snd

/-- The last value of a tag, or `v`. -/
def lastValue (tag v : ℕ) (es : List (ℕ × ℕ)) : ℕ := es.foldl (fun v e => if e.1 = tag then e.2 else v) v

/-- The `r_offset` of the `R_ARM_RELATIVE` entries from an offset on. -/
def relocationsFrom (f : ElfFile) : ℕ → ℕ → List ℕ
  | 0, _ => []
  | n + 1, off =>
    (if f.word (off + 4) % 256 = rArmRelative then [f.word off] else []) ++ f.relocationsFrom n (off + sizeofRel)

/-- The `r_offset` of the `R_ARM_RELATIVE` entries of the file. -/
def relocations (f : ElfFile) : List ℕ :=
  f.relocationsFrom (lastValue dtRelsz 0 f.dynamic / sizeofRel) (lastValue dtRel 0 f.dynamic)

/-- The data segment before it is relocated. -/
def segmentBytes (f : ElfFile) (data : Phdr) : List UInt8 :=
  (f.bytes.drop data.offset).take data.filesz ++ List.replicate (data.memsz - data.filesz) 0

theorem readWord_eq_ok {v : ℕ} (h : f.readWord off = .ok v) : v = f.word off := by
  unfold readWord at h
  split_ifs at h
  exact (Except.ok.inj h).symm

theorem readPhdr_eq_ok {ph : Phdr} (h : f.readPhdr off = .ok ph) : ph = f.phdr off := by
  unfold readPhdr at h
  split_ifs at h
  exact (Except.ok.inj h).symm

theorem readEhdr_eq_ok {e : Ehdr} (h : f.readEhdr = .ok e) : e = f.ehdr := by
  unfold readEhdr at h
  split_ifs at h
  exact (Except.ok.inj h).symm

end ElfFile

/-! ## Words of an image -/

namespace Image

variable {image image' l : List UInt8} {off i w : ℕ}

/-- An image as a memory. -/
def mem (image : List UInt8) (i : ℕ) : UInt8 := image.getD i 0

theorem write_eq_ok (h : write image off l = .ok image') :
    off + l.length ≤ image.length ∧ mem image' = store (mem image) off l := by
  have hlen := length_write h
  unfold write at h
  split_ifs at h with hle
  refine ⟨hle, funext fun i => ?_⟩
  obtain rfl := Except.ok.inj h
  have htake : (image.take off).length = off := by
    rw [List.length_take]
    omega
  simp only [mem, store, List.getD_eq_getElem?_getD]
  split_ifs with hi
  · rw [List.getElem?_append_left (by rw [List.length_append]; omega), List.getElem?_append_right (by omega), htake]
  · obtain hlt | hge := Nat.lt_or_ge i off
    · rw [List.append_assoc, List.getElem?_append_left (by omega), List.getElem?_take_of_lt hlt]
    · rw [List.getElem?_append_right (by rw [List.length_append]; omega), List.length_append, htake, List.getElem?_drop]
      congr 2
      omega

theorem word_congr (h : ∀ i, off ≤ i → i < off + 4 → mem image i = mem image' i) : word image off = word image' off := by
  have hbyte : ∀ i, off ≤ i → i < off + 4 → byte image i = byte image' i := fun i h1 h2 => congrArg UInt8.toNat (h i h1 h2)
  rw [word, word, hbyte off (by omega) (by omega), hbyte (off + 1) (by omega) (by omega),
    hbyte (off + 2) (by omega) (by omega), hbyte (off + 3) (by omega) (by omega)]

theorem word_store (h : mem image' = store (mem image) off (wordBytes w)) : word image' off = w % 2 ^ 32 := by
  have hbyte : ∀ k < 4, byte image' (off + k) = ((wordBytes w).getD k 0).toNat := by
    intro k hk
    change (mem image' (off + k)).toNat = _
    rw [h, store, if_pos ⟨Nat.le_add_right _ _, Nat.add_lt_add_left hk off⟩, Nat.add_sub_cancel_left]
  have h0 : byte image' off = _ := hbyte 0 (by decide)
  rw [word, h0, hbyte 1 (by decide), hbyte 2 (by decide), hbyte 3 (by decide)]
  change (UInt8.ofNat w).toNat + 256 * (UInt8.ofNat (w / 256)).toNat + 65536 * (UInt8.ofNat (w / 65536)).toNat +
    16777216 * (UInt8.ofNat (w / 16777216)).toNat = _
  simp only [UInt8.toNat_ofNat']
  omega

end Image

/-! ## The relocations -/

/-- The word that a relocation makes of a word. -/
def relocatedWord (ramBase fileBase w : ℕ) : ℕ :=
  if dataBase ≤ w then (w + ramBase - dataBase) % 2 ^ 32 else (w + fileBase) % 2 ^ 32

/-- The image `after` is `before` with the words at the offsets `rs` relocated. -/
structure Relocated (ramBase fileBase : ℕ) (rs : List ℕ) (before after : List UInt8) : Prop where
  length : after.length = before.length
  word : ∀ r ∈ rs, Image.word after (r - dataBase) = relocatedWord ramBase fileBase (Image.word before (r - dataBase))
  other : ∀ i, (∀ r ∈ rs, ¬ (r ≤ dataBase + i ∧ dataBase + i < r + 4)) → Image.mem after i = Image.mem before i

/-- An offset that names an aligned word of the data. -/
def NamesWord (r : ℕ) : Prop := dataBase ≤ r ∧ r % 4 = 0

/-- Different offsets name words that do not overlap. -/
theorem NamesWord.disjoint {r r' i : ℕ} (h : NamesWord r) (h' : NamesWord r') (hne : r ≠ r') (h1 : r - dataBase ≤ i)
    (h2 : i < r - dataBase + 4) : ¬ (r' ≤ dataBase + i ∧ dataBase + i < r' + 4) := by
  obtain ⟨ha, hb⟩ := h
  obtain ⟨ha', hb'⟩ := h'
  simp only [dataBase] at *
  omega

namespace Relocated

variable {ramBase fileBase : ℕ} {rs rs' : List ℕ} {image image' image'' : List UInt8}

theorem nil (image : List UInt8) : Relocated ramBase fileBase [] image image := ⟨rfl, nofun, fun _ _ => rfl⟩

theorem trans (h : Relocated ramBase fileBase rs image image') (h' : Relocated ramBase fileBase rs' image' image'')
    (hrs : ∀ r ∈ rs ++ rs', NamesWord r) (hnodup : (rs ++ rs').Nodup) :
    Relocated ramBase fileBase (rs ++ rs') image image'' := by
  have hne : ∀ r ∈ rs, ∀ r' ∈ rs', r ≠ r' := fun r hr r' hr' => (List.nodup_append.1 hnodup).2.2 r hr r' hr'
  constructor
  · rw [h'.length, h.length]
  · intro r hr
    obtain hr1 | hr1 := List.mem_append.1 hr
    · -- the later ones leave the word alone
      rw [← h.word r hr1]
      refine Image.word_congr fun i h1 h2 => h'.other i fun r' hr' => ?_
      exact (hrs r hr).disjoint (hrs r' (List.mem_append_right _ hr')) (hne r hr1 r' hr') h1 h2
    · rw [h'.word r hr1]
      congr 1
      refine Image.word_congr fun i h1 h2 => h.other i fun r' hr' => ?_
      exact (hrs r hr).disjoint (hrs r' (List.mem_append_left _ hr')) (hne r' hr' r hr1).symm h1 h2
  · intro i hi
    rw [h'.other i fun r hr => hi r (List.mem_append_right _ hr), h.other i fun r hr => hi r (List.mem_append_left _ hr)]

end Relocated

namespace ElfFile

variable {f : ElfFile} {off n ramBase : ℕ} {image image' : List UInt8}

theorem relocateEntry_relocated (hr : ∀ r ∈ f.relocationsFrom 1 off, NamesWord r)
    (h : f.relocateEntry ramBase off image = .ok image') :
    Relocated ramBase f.base (f.relocationsFrom 1 off) image image' := by
  obtain ⟨r, hread, h⟩ := bind_eq_ok h
  obtain ⟨info, hinfo, h⟩ := bind_eq_ok h
  obtain rfl := readWord_eq_ok hread
  obtain rfl := readWord_eq_ok hinfo
  rw [relocationsFrom, relocationsFrom, List.append_nil] at hr ⊢
  split_ifs at h hr ⊢ with hrel
  · obtain ⟨hbase, halign⟩ := hr _ (List.mem_singleton_self _)
    have hlt := f.word_lt_two_pow off
    have hoff : sub32 (f.word off) dataBase / 4 * 4 = f.word off - dataBase := by
      simp only [sub32, dataBase] at hbase ⊢
      omega
    rw [hoff] at h
    obtain ⟨w, hw, h⟩ := bind_eq_ok h
    obtain rfl : w = Image.word image (f.word off - dataBase) := by
      unfold Image.readWord at hw
      split_ifs at hw
      exact (Except.ok.inj hw).symm
    obtain ⟨-, hmem⟩ := Image.write_eq_ok h
    refine ⟨Image.length_write h, fun r hr => ?_, fun i hi => ?_⟩
    · obtain rfl := List.mem_singleton.1 hr
      rw [Image.word_store hmem, relocatedWord]
      split_ifs with hdata <;> simp only [add32, sub32, dataBase] at * <;> omega
    · rw [hmem]
      have hout := hi _ (List.mem_singleton_self _)
      refine store_outside ?_
      change _ ∨ _ + 4 ≤ _
      simp only [dataBase] at *
      omega
  · cases h
    exact .nil _

/-- **The loop over the relocations.** -/
theorem relocate_relocated (hrs : ∀ r ∈ f.relocationsFrom n off, NamesWord r) (hnodup : (f.relocationsFrom n off).Nodup)
    (h : f.relocate ramBase n off image = .ok image') :
    Relocated ramBase f.base (f.relocationsFrom n off) image image' := by
  induction n generalizing off image with
  | zero =>
    cases h
    exact .nil _
  | succ n ih =>
    have hsplit : f.relocationsFrom (n + 1) off = f.relocationsFrom 1 off ++ f.relocationsFrom n (off + sizeofRel) := by
      rw [relocationsFrom, relocationsFrom, relocationsFrom, List.append_nil]
    rw [hsplit] at hrs hnodup ⊢
    obtain ⟨image₁, hentry, h⟩ := bind_eq_ok h
    have hfirst := relocateEntry_relocated (fun r hr => hrs r (List.mem_append_left _ hr)) hentry
    have hrest := ih (fun r hr => hrs r (List.mem_append_right _ hr)) (List.nodup_append.1 hnodup).2.1 h
    exact hfirst.trans hrest hrs hnodup

/-- **The image of a process**: the data segment, with the words that are named relocated. -/
theorem fillImage_spec {l : Loading} {data : Phdr} (hle : data.filesz ≤ data.memsz)
    (hmax : data.memsz < maxProcessImageSize)
    (hrs : ∀ r ∈ f.relocationsFrom (l.dtRelsz / sizeofRel) l.dtRel, NamesWord r)
    (hnodup : (f.relocationsFrom (l.dtRelsz / sizeofRel) l.dtRel).Nodup)
    (h : f.fillImage ramBase l data image = .ok image') : ∃ before : List UInt8,
      before.length = image.length ∧ data.memsz ≤ image.length ∧
      (∀ i < data.memsz, Image.mem before i = Image.mem (f.segmentBytes data) i) ∧
      Relocated ramBase f.base (if l.hasRelocs then f.relocationsFrom (l.dtRelsz / sizeofRel) l.dtRel else []) before
        image' := by
  obtain ⟨bytes, hbytes, h⟩ := bind_eq_ok h
  obtain ⟨image₁, hcopy, h⟩ := bind_eq_ok h
  obtain ⟨image₂, hzero, h⟩ := bind_eq_ok h
  have hfile : bytes = (f.bytes.drop data.offset).take data.filesz ∧ bytes.length = data.filesz := by
    unfold readBytes at hbytes
    split_ifs at hbytes with hin
    obtain rfl := Except.ok.inj hbytes
    refine ⟨rfl, ?_⟩
    rw [List.length_take, List.length_drop]
    unfold size at hin
    omega
  have hsub : sub32 data.memsz data.filesz = data.memsz - data.filesz := by
    unfold maxProcessImageSize at hmax
    unfold sub32
    omega
  obtain ⟨hfit₁, hmem₁⟩ := Image.write_eq_ok hcopy
  obtain ⟨hfit₂, hmem₂⟩ := Image.write_eq_ok hzero
  have hlen₁ := Image.length_write hcopy
  have hlen₂ := Image.length_write hzero
  rw [List.length_replicate, hsub] at hfit₂
  refine ⟨image₂, by omega, by omega, fun i hi => ?_, ?_⟩
  · rw [hmem₂, store, List.length_replicate, hsub, segmentBytes, ← hfile.1]
    change _ = (bytes ++ _).getD i 0
    obtain hlt | hge := Nat.lt_or_ge i data.filesz
    · rw [if_neg (by omega), hmem₁, store, if_pos (by omega), Nat.sub_zero, List.getD_append _ _ _ _ (by omega)]
    · rw [if_pos (by omega), List.getD_append_right _ _ _ _ (by omega), hfile.2]
  · split_ifs at h ⊢
    · exact relocate_relocated hrs hnodup h
    · cases h
      exact .nil _

end ElfFile

end Miosix
