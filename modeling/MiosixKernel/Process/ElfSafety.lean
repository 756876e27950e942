import MiosixKernel.Process.ElfRecognition

/-!
# Programs in ELF format: full recognition before processing

`load` reads the file again, on its own. A simulation between the recognizer and the loader carries what
the checks have established to the accesses of the loader.

* `DynamicLoaded`, `Loaded`: what the loader has found, given what the recognizer has seen;
* `FullyRecognized`: the recognizer stays in the file, and so does the loader for every file that is
  accepted, which finds a data segment and an image and stays in the image;
* **`fullyRecognized_iff`**: this holds but for the files whose dynamic segment leaves the file, and those
  without one.
-/

namespace Miosix

open Lib

/-! ## The image -/

namespace Image

theorem length_write {image l image' : List UInt8} {off : ℕ} (h : write image off l = .ok image') :
    image'.length = image.length := by
  unfold write at h
  split_ifs at h with hl
  cases h
  simp only [List.length_append, List.length_take, List.length_drop]
  omega

theorem write_meets (image : List UInt8) {l : List UInt8} {off : ℕ} (h : off + l.length ≤ image.length) :
    Meets ElfError.IsFault (write image off l) (·.length = image.length) := by
  refine ⟨?_, fun _ => length_write⟩
  simp [write, h]

theorem readWord_of_le {image : List UInt8} {off : ℕ} (h : off + 4 ≤ image.length) :
    readWord image off = .ok (word image off) := if_pos h

end Image

namespace ElfFile

open Elf

variable {f : ElfFile} {allocate : Allocate}

theorem half_lt (f : ElfFile) (off : ℕ) : f.half off < 2 ^ 16 := by
  have h1 := (f.bytes.getD off 0).toNat_lt
  have h2 := (f.bytes.getD (off + 1) 0).toNat_lt
  unfold half byte
  omega

theorem word_lt_two_pow (f : ElfFile) (off : ℕ) : f.word off < 2 ^ 32 := by
  have h1 := f.half_lt off
  have h2 := f.half_lt (off + 2)
  unfold word
  omega

/-! ## The relocations -/

/-- A relocation that was checked: it is in the file, and what it relocates is in the data segment. -/
structure RelocationOk (f : ElfFile) (ds off : ℕ) : Prop where
  inFile : off + sizeofRel ≤ f.size
  inData : f.word (off + 4) % 256 = rArmRelative →
    dataBase ≤ f.word off ∧ f.word off + 4 ≤ dataBase + ds ∧ f.word off % 4 = 0

theorem relocationOk_of_check {ds off : ℕ} (hds : ds ≤ maxProcessImageSize)
    (hoff : off + sizeofRel ≤ f.size) (h : f.checkRelocation ds off = .ok ()) :
    f.RelocationOk ds off := by
  refine ⟨hoff, fun hrel => ?_⟩
  unfold sizeofRel at hoff
  rw [checkRelocation, readWord_of_le (by omega), ok_bind, hrel, if_neg (by decide), if_pos rfl,
    readWord_of_le (by omega), ok_bind] at h
  simp only [require_bind_eq_ok, require_eq_ok, decide_eq_true_eq] at h
  obtain ⟨h1, h2, h3⟩ := h
  unfold maxProcessImageSize at hds
  simp only [add32, sub32, dataBase] at h1 h2 ⊢
  omega

theorem relocationOk_of_checkRelocations {ds : ℕ} (hds : ds ≤ maxProcessImageSize) :
    ∀ (n : ℕ) {off : ℕ}, off + n * sizeofRel ≤ f.size → f.checkRelocations ds n off = .ok () →
      ∀ k < n, f.RelocationOk ds (off + k * sizeofRel)
  | 0, _, _, _, k, hk => absurd hk (Nat.not_lt_zero k)
  | n + 1, off, hoff, h, k, hk => by
    rw [Nat.succ_mul] at hoff
    obtain ⟨⟨⟩, h1, h2⟩ := bind_eq_ok h
    cases k with
    | zero => simpa using relocationOk_of_check hds (by omega) h1
    | succ k =>
      have := relocationOk_of_checkRelocations hds n (by omega) h2 k (by omega)
      rwa [show off + (k + 1) * sizeofRel = off + sizeofRel + k * sizeofRel by ring]

theorem relocateEntry_meets {ds off ramBase : ℕ} {image : List UInt8} (h : f.RelocationOk ds off)
    (hds : ds ≤ image.length) :
    Meets ElfError.IsFault (f.relocateEntry ramBase off image) (·.length = image.length) := by
  have hin := h.inFile
  unfold sizeofRel at hin
  rw [relocateEntry, readWord_of_le (by omega), ok_bind, readWord_of_le (by omega), ok_bind]
  split_ifs with hrel
  · obtain ⟨h1, h2, h3⟩ := h.inData hrel
    have hlt := f.word_lt_two_pow off
    have hoff : sub32 (f.word off) dataBase / 4 * 4 + 4 ≤ ds := by
      simp only [sub32, dataBase] at h1 h2 ⊢
      omega
    rw [Image.readWord_of_le (by omega), ok_bind]
    exact Image.write_meets image (by simp only [Image.wordBytes, List.length_cons, List.length_nil]; omega)
  · exact .of_ok rfl

theorem not_faults_relocate {ds ramBase : ℕ} : ∀ (n : ℕ) {off : ℕ} {image : List UInt8},
    (∀ k < n, f.RelocationOk ds (off + k * sizeofRel)) → ds ≤ image.length →
    Meets ElfError.IsFault (f.relocate ramBase n off image) fun _ => True
  | 0, _, _, _, _ => .of_ok trivial
  | n + 1, off, image, h, hds => by
    have h0 : f.RelocationOk ds off := by simpa using h 0 (by omega)
    refine (relocateEntry_meets h0 hds).bind fun image' hlen => ?_
    refine not_faults_relocate n (fun k hk => ?_) (hds.trans hlen.ge)
    rw [show off + sizeofRel + k * sizeofRel = off + (k + 1) * sizeofRel by ring]
    exact h (k + 1) (by omega)

/-! ## The dynamic segment -/

/-- What the loader has found of the dynamic segment, given what the recognizer has. -/
structure DynamicLoaded (d : DynamicTags) (l : Loading) : Prop where
  dtRel : l.dtRel = d.dtRel
  dtRelsz : l.dtRelsz = d.dtRelsz
  hasRelocs : l.hasRelocs = true → d.hasRelocs ≠ 0
  image : d.ramSize ≠ 0 → ∃ image, l.image = some image ∧ image.length = d.ramSize

/-- The allocator returns a block of the requested size or throws. -/
def Allocates (allocate : Allocate) : Prop :=
  ∀ k n image, allocate k n = some image → image.length = n

theorem loadEntry_meets (ha : Allocates allocate) {off : ℕ} {d d' : DynamicTags} {l : Loading}
    (hd : f.scanEntry off d = .ok d') (hl : DynamicLoaded d l) :
    Meets ElfError.IsFault (f.loadEntry allocate off l) fun l' =>
      DynamicLoaded d' l' ∧ l'.dataSegment = l.dataSegment := by
  obtain ⟨hover, -⟩ := (scanEntry_ok_iff f off d).1 ⟨d', hd⟩
  simp only [EntryOverruns, not_or, not_and, not_lt] at hover
  obtain ⟨h4, h8⟩ := hover
  rw [scanEntry, readWord_of_le h4, ok_bind] at hd
  rw [loadEntry, readWord_of_le h4, ok_bind]
  split_ifs at hd with h1 h2 h3 h5 h6 h7
  · rw [readWord_of_le (h8 (by simp [usesValue, h1]))] at hd
    rw [if_pos h1, readWord_of_le (h8 (by simp [usesValue, h1]))]
    cases hd
    exact .of_ok ⟨⟨rfl, hl.dtRelsz, fun _ => by simp, hl.image⟩, rfl⟩
  · rw [readWord_of_le (h8 (by simp [usesValue, h2]))] at hd
    rw [if_neg h1, if_pos h2, readWord_of_le (h8 (by simp [usesValue, h2]))]
    cases hd
    exact .of_ok ⟨⟨hl.dtRel, rfl, fun _ => by simp, hl.image⟩, rfl⟩
  · have h6 : f.word off ≠ dtMxRamsize := by rw [h3]; decide
    rw [readWord_of_le (h8 (by simp [usesValue, h3]))] at hd
    rw [if_neg h1, if_neg h2, if_neg h6]
    simp only [ok_bind, require_bind_eq_ok] at hd
    obtain ⟨-, hd⟩ := hd
    cases hd
    exact .of_ok ⟨⟨hl.dtRel, hl.dtRelsz, fun _ => by simp, hl.image⟩, rfl⟩
  · have h6 : f.word off ≠ dtMxRamsize := by rw [h5]; decide
    rw [readWord_of_le (h8 (by simp [usesValue, h5]))] at hd
    rw [if_neg h1, if_neg h2, if_neg h6]
    simp only [ok_bind, require_bind_eq_ok] at hd
    obtain ⟨-, hd⟩ := hd
    cases hd
    exact .of_ok ⟨⟨hl.dtRel, hl.dtRelsz, hl.hasRelocs, hl.image⟩, rfl⟩
  · have hv := readWord_of_le (h8 (by simp [usesValue, h6]))
    rw [hv] at hd
    rw [if_neg h1, if_neg h2, if_pos h6, hv, ok_bind]
    cases hd
    cases himage : allocate l.calls (f.word (off + 4)) with
    | none => exact .of_error id
    | some image =>
      exact .of_ok ⟨⟨hl.dtRel, hl.dtRelsz, hl.hasRelocs, fun _ => ⟨image, rfl, ha _ _ _ himage⟩⟩, rfl⟩
  · rw [readWord_of_le (h8 (by simp [usesValue, h7]))] at hd
    rw [if_neg h1, if_neg h2, if_neg h6]
    cases hd
    exact .of_ok ⟨⟨hl.dtRel, hl.dtRelsz, hl.hasRelocs, hl.image⟩, rfl⟩
  · rw [if_neg h1, if_neg h2, if_neg h6]
    cases hd
    exact .of_ok ⟨hl, rfl⟩

theorem loadDynamic_meets (ha : Allocates allocate) : ∀ (n : ℕ) {off : ℕ} {d d' : DynamicTags}
    {l : Loading}, f.scanDynamic n off d = .ok d' → DynamicLoaded d l →
    Meets ElfError.IsFault (f.loadDynamic allocate n off l) fun l' =>
      DynamicLoaded d' l' ∧ l'.dataSegment = l.dataSegment
  | 0, _, _, _, _, hd, hl => by
    cases hd
    exact .of_ok ⟨hl, rfl⟩
  | n + 1, off, d, d', l, hd, hl => by
    obtain ⟨d₁, hd₁, hd⟩ := bind_eq_ok hd
    refine (loadEntry_meets ha hd₁ hl).bind fun l₁ hl₁ => ?_
    rw [← hl₁.2]
    exact loadDynamic_meets ha n hd hl₁.1

/-! ## The program headers -/

/-- What the loader has found, given what the recognizer has seen. -/
structure Loaded (f : ElfFile) (st : Segments) (l : Loading) : Prop where
  data : st.dataSegmentPresent = true → ∃ ph, l.dataSegment = some ph ∧
    ph.memsz = st.dataSegmentSize ∧ ph.filesz ≤ ph.memsz ∧ ph.memsz < maxProcessImageSize ∧
    ph.offset + ph.filesz ≤ f.size
  fresh : st.dynamicSegmentPresent = false → l.dtRel = 0 ∧ l.dtRelsz = 0 ∧ l.hasRelocs = false
  afterData : st.dynamicSegmentPresent = true → st.dataSegmentPresent = true
  image : st.dynamicSegmentPresent = true → ∃ image, l.image = some image ∧
    st.dataSegmentSize ≤ image.length
  relocations : st.dynamicSegmentPresent = true → l.hasRelocs = true →
    ∀ k < l.dtRelsz / sizeofRel, f.RelocationOk st.dataSegmentSize (l.dtRel + k * sizeofRel)

/-- What the checks of the dynamic segment say of the image and of the relocations. -/
theorem validateDynamicSegment_spec (hs : f.size < 2 ^ 31) {ph : Phdr} {ds : ℕ}
    (h : f.validateDynamicSegment ph ds = .ok ()) : ∃ d,
    f.scanDynamic (ph.memsz / sizeofDyn) ph.offset ⟨0, 0, 0, false, 0, 0⟩ = .ok d ∧
      d.ramSize ≠ 0 ∧ ds ≤ d.ramSize ∧ (d.hasRelocs ≠ 0 →
        ∀ k < d.dtRelsz / sizeofRel, f.RelocationOk ds (d.dtRel + k * sizeofRel)) := by
  obtain ⟨d, hd, h⟩ := bind_eq_ok h
  obtain ⟨⟨⟩, hc, h⟩ := bind_eq_ok h
  simp only [DynamicTags.check, require_bind_eq_ok, require_eq_ok, Bool.and_eq_true,
    decide_eq_true_eq] at hc
  obtain ⟨-, h1, -, ⟨⟨⟨⟨⟨-, -⟩, h2⟩, h3⟩, h4⟩, h5⟩, -⟩ := hc
  have hmax : maxProcessImageSize = 65536 := rfl
  have hblock : blockSize = 1024 := rfl
  rw [add32_of_lt (by omega)] at h5
  refine ⟨d, hd, by omega, by omega, fun hr => ?_⟩
  rw [if_pos hr] at h
  simp only [require_bind_eq_ok, decide_eq_true_eq] at h
  obtain ⟨h6, h7, h8, -, h⟩ := h
  exact relocationOk_of_checkRelocations h4 _ (relocations_le hs h6 h7 h8) h

theorem Loaded.congr {st st' : Segments} {l : Loading} (h : f.Loaded st l)
    (hd : st'.dataSegmentPresent = st.dataSegmentPresent)
    (hy : st'.dynamicSegmentPresent = st.dynamicSegmentPresent)
    (hsize : st'.dataSegmentSize = st.dataSegmentSize) : f.Loaded st' l := by
  obtain ⟨h1, h2, h3, h4, h5⟩ := h
  constructor <;> simpa only [hd, hy, hsize]

theorem loadSegment_meets (hs : f.size < 2 ^ 31) (ha : Allocates allocate) {entry : ℕ} {ph : Phdr}
    {st st' : Segments} {l : Loading} (h : f.checkSegment entry ph st = .ok st')
    (hl : f.Loaded st l) :
    Meets ElfError.IsFault (f.loadSegment allocate ph l) (f.Loaded st') := by
  obtain ⟨⟨⟩, hrange, h⟩ := bind_eq_ok h
  rw [loadSegment]
  split_ifs at h ⊢ with hload hdata hdyn
  · -- the data segment comes before the dynamic one
    obtain ⟨-, hd, hy, -, hsize⟩ := checkLoad_spec h
    obtain ⟨hnone, hle, hmax, hsize⟩ := hsize hdata
    have hfresh : st'.dynamicSegmentPresent ≠ true := fun hdyn => by
      rw [hy] at hdyn
      simp [hl.afterData hdyn] at hnone
    refine .of_ok ⟨fun _ => ⟨ph, rfl, hsize.symm, hle, ?_, Phdr.checkRange_spec hs hrange⟩,
      fun h => hl.fresh (hy.symm.trans h), fun h => absurd h hfresh, fun h => absurd h hfresh,
      fun h => absurd h hfresh⟩
    exact hmax.trans_le (Nat.sub_le _ _)
  · obtain ⟨-, hd, hy, hsize, -⟩ := checkLoad_spec h
    have hnot := Bool.eq_false_iff.2 hdata
    have hsize := hsize hnot
    rw [hnot, Bool.or_false] at hd
    exact .of_ok (hl.congr hd hy hsize)
  · simp only [require_bind_eq_ok, Bool.not_eq_true'] at h
    obtain ⟨hnone, hdata, -, h⟩ := h
    obtain ⟨⟨⟩, hv, h⟩ := bind_eq_ok h
    cases h
    obtain ⟨d, hd, hram, hle, hrel⟩ := validateDynamicSegment_spec hs hv
    obtain ⟨h1, h2, h3⟩ := hl.fresh hnone
    have hinit : DynamicLoaded ⟨0, 0, 0, false, 0, 0⟩ l :=
      ⟨h1, h2, fun h => by simp [h3] at h, fun h => absurd rfl h⟩
    obtain ⟨hf, hpost⟩ := loadDynamic_meets ha _ hd hinit
    refine ⟨hf, fun l' hl' => ?_⟩
    obtain ⟨hdl, hseg⟩ := hpost l' hl'
    obtain ⟨image, himage, hlen⟩ := hdl.image hram
    refine ⟨?_, by simp, fun _ => hdata, fun _ => ⟨image, himage, hlen ▸ hle⟩, fun _ hr => ?_⟩
    · rw [hseg]
      exact hl.data
    · rw [hdl.dtRel, hdl.dtRelsz]
      exact hrel (hdl.hasRelocs hr)
  · cases h
    exact .of_ok hl

theorem loadSegments_meets (hs : f.size < 2 ^ 31) (ha : Allocates allocate) {entry : ℕ} :
    ∀ (n : ℕ) {off : ℕ} {st st' : Segments} {l : Loading},
      f.checkSegments entry n off st = .ok st' → f.Loaded st l →
      Meets ElfError.IsFault (f.loadSegments allocate n off l) (f.Loaded st')
  | 0, _, _, _, _, h, hl => by
    cases h
    exact .of_ok hl
  | n + 1, off, st, st', l, h, hl => by
    obtain ⟨ph, hph, h⟩ := bind_eq_ok h
    obtain ⟨st₁, hst₁, h⟩ := bind_eq_ok h
    rw [loadSegments, hph, ok_bind]
    exact (loadSegment_meets hs ha hst₁ hl).bind fun l₁ hl₁ => loadSegments_meets hs ha n h hl₁

/-- Without a dynamic segment no image is allocated. -/
theorem loadSegments_of_plain (allocate : Allocate)
    (hphdrs : f.ehdr.phoff + f.ehdr.phnum * sizeofPhdr ≤ f.size)
    (hp : ∀ j < f.ehdr.phnum, f.PlainAt j) : ∀ (n i : ℕ) (l : Loading), i + n = f.ehdr.phnum →
    ∃ l', f.loadSegments allocate n (f.ehdr.phoff + i * sizeofPhdr) l = .ok l' ∧ l'.image = l.image
  | 0, _, l, _ => ⟨l, rfl, rfl⟩
  | n + 1, i, l, hi => by
    have hin : f.ehdr.phoff + (i + 1) * sizeofPhdr ≤ f.size :=
      (Nat.add_le_add_left (Nat.mul_le_mul_right _ (by omega)) _).trans hphdrs
    have hnext : f.ehdr.phoff + i * sizeofPhdr + sizeofPhdr = f.ehdr.phoff + (i + 1) * sizeofPhdr := by
      ring
    have hstep : ∃ l₁, f.loadSegment allocate (f.phdrAt i) l = .ok l₁ ∧ l₁.image = l.image := by
      simp only [loadSegment, (hp i (by omega)).notDynamic, Bool.false_eq_true, if_false]
      split_ifs <;> exact ⟨_, rfl, rfl⟩
    obtain ⟨l₁, hl₁, himage⟩ := hstep
    have hph : f.phdr (f.ehdr.phoff + i * sizeofPhdr) = f.phdrAt i := rfl
    rw [loadSegments, readPhdr_of_le (hnext ▸ hin), ok_bind, hph, hl₁, ok_bind, hnext, ← himage]
    exact loadSegments_of_plain allocate hphdrs hp n (i + 1) l₁ (by omega)

/-! ## The whole file -/

/-- The loader stays in the file and in the image, and finds both the data segment and the image, unless
it ends with an exception of the allocator. -/
def LoadsSafely (f : ElfFile) : Prop :=
  ∀ allocate, Allocates allocate → ∀ ramBase, ¬ Faults ElfError.IsFault (f.load allocate ramBase)

/-- **Full recognition before processing**: the recognizer stays in the file, and the loader is safe if
the recognizer accepts. -/
def FullyRecognized (f : ElfFile) : Prop :=
  ¬ Faults ElfError.IsFault f.validateHeader ∧ (f.validateHeader = .ok () → f.LoadsSafely)

theorem add_sub32 {a b : ℕ} (h : a ≤ b) (hb : b < maxProcessImageSize) : a + sub32 b a = b := by
  unfold maxProcessImageSize at hb
  unfold sub32
  omega

theorem readBytes_of_le {off n : ℕ} (h : off + n ≤ f.size) :
    f.readBytes off n = .ok ((f.bytes.drop off).take n) := if_pos h

theorem readEhdr_of_headerOk (h : f.HeaderOk) : f.readEhdr = .ok f.ehdr := if_pos h.large

/-- The loader is safe on a file that is accepted with a dynamic segment. -/
theorem loadsSafely_of_dynamic (hs : f.size < 2 ^ 31) (hh : f.HeaderOk) {st : Segments}
    (hst : f.checkSegments f.ehdr.entry f.ehdr.phnum f.ehdr.phoff ⟨false, false, false, 0⟩ = .ok st)
    (hdyn : st.dynamicSegmentPresent = true) : f.LoadsSafely := by
  intro allocate ha ramBase
  have hinit : f.Loaded ⟨false, false, false, 0⟩ ⟨none, 0, 0, false, none, 0⟩ :=
    ⟨nofun, fun _ => ⟨rfl, rfl, rfl⟩, nofun, nofun, nofun⟩
  have hmeets : Meets ElfError.IsFault (f.load allocate ramBase) fun _ => True := by
    rw [load, readEhdr_of_headerOk hh, ok_bind]
    refine (loadSegments_meets hs ha _ hst hinit).bind fun l hl => ?_
    obtain ⟨data, hdata, hmem, hle, hmax, hin⟩ := hl.data (hl.afterData hdyn)
    obtain ⟨image, himage, hlen⟩ := hl.image hdyn
    have hread := readBytes_of_le hin
    have hzero := add_sub32 hle hmax
    simp only [hdata, himage]
    rw [fillImage, hread, ok_bind]
    refine (Image.write_meets image ?_).bind fun image₁ hlen₁ => ?_
    · rw [List.length_take]
      omega
    refine (Image.write_meets image₁ ?_).bind fun image₂ hlen₂ => ?_
    · rw [List.length_replicate]
      omega
    split_ifs with hrel
    · exact not_faults_relocate _ (hl.relocations hdyn hrel) (by omega)
    · exact .of_ok trivial
  exact hmeets.1

/-- A file that is accepted without a dynamic segment has no image. -/
theorem WithoutDynamic.not_loadsSafely (hs : f.size < 2 ^ 31) (h : f.WithoutDynamic) :
    ¬ f.LoadsSafely := by
  intro hload
  obtain ⟨hh, hp, -⟩ := h
  refine hload (fun _ _ => none) (fun _ _ _ h => by cases h) 0 ?_
  obtain ⟨l, hl, himage⟩ := loadSegments_of_plain (fun _ _ => none) (hh.phdrs_le hs) hp
    f.ehdr.phnum 0 ⟨none, 0, 0, false, none, 0⟩ (Nat.zero_add _)
  rw [Nat.zero_mul, Nat.add_zero] at hl
  rw [load, readEhdr_of_headerOk hh, ok_bind, hl, ok_bind]
  cases hdata : l.dataSegment with
  | none => simp [ElfError.IsFault]
  | some ph => simp [himage, ElfError.IsFault]

/-- **When a file is fully recognized before it is processed**: its dynamic segment does not leave the
file, and it has one. -/
theorem fullyRecognized_iff {f : ElfFile} (hs : f.size < 2 ^ 31) :
    f.FullyRecognized ↔ ¬ f.Overrun ∧ ¬ f.WithoutDynamic := by
  rw [FullyRecognized, faults_validateHeader hs]
  refine and_congr_right fun _ => ⟨fun h hw => hw.not_loadsSafely hs (h (hw.accepted hs)), ?_⟩
  intro hw hok
  obtain ⟨st, hst, hdyn⟩ := dynamic_of_accepted hs hok hw
  exact loadsSafely_of_dynamic hs (headerOk_of_accepted hok) hst hdyn

/-! ## Three files -/

/-- A file of little endian words. -/
def ofWords (words : List ℕ) : ElfFile := ⟨0, words.flatMap Image.wordBytes, false⟩

/-- A header with its entry point at zero, before a number of program headers. -/
def headerWords (phnum : ℕ) : List ℕ :=
  [0x464c457f, 0x00010101, 0, 0, 0x00280002, 1, 0, 52, 0, 0x05000000, 0x00200034, phnum, 0]

/-- Code, data and a dynamic segment that asks for 1024 bytes. -/
def smallProgram : ElfFile := ofWords <| headerWords 3 ++
  [1, 0, 0, 0, 4, 4, 5, 4, 1, 0, 0, 0, 4, 4, 6, 4, 2, 148, 0, 0, 24, 24, 6, 4,
    dtMxAbi, dvMxAbiV1, dtMxRamsize, 1024, dtMxStacksize, 256]

/-- Code and nothing else. -/
def codeOnly : ElfFile := ofWords <| headerWords 1 ++ [1, 0, 0, 0, 4, 4, 5, 4, 0]

/-- A dynamic segment of 4 bytes in the file and 256 bytes in memory. -/
def longDynamic : ElfFile := ofWords <| headerWords 2 ++
  [1, 0, 0, 0, 4, 4, 6, 4, 2, 112, 0, 0, 4, 256, 6, 4]

theorem fullyRecognized_smallProgram :
    smallProgram.size < 2 ^ 31 ∧ smallProgram.validateHeader = .ok () ∧
      smallProgram.FullyRecognized := by
  have hs : smallProgram.size < 2 ^ 31 := by decide +kernel
  have hok : smallProgram.validateHeader = .ok () := by decide +kernel
  refine ⟨hs, hok, (fullyRecognized_iff hs).2 ⟨?_, ?_⟩⟩
  · rw [← faults_validateHeader hs, hok]
    exact not_faults_ok ()
  · rintro ⟨-, hplain, -⟩
    exact absurd (hplain 2 (by decide +kernel)).notDynamic (by decide)

/-- One of the two files is accepted and has no image to load, the recognizer leaves the other. -/
theorem not_fullyRecognized_files :
    codeOnly.base % 8 = 0 ∧ codeOnly.size < 2 ^ 31 ∧ codeOnly.validateHeader = .ok () ∧
      ¬ codeOnly.FullyRecognized ∧
    longDynamic.base % 8 = 0 ∧ longDynamic.size < 2 ^ 31 ∧
      longDynamic.validateHeader = .error .outOfBounds ∧ ¬ longDynamic.FullyRecognized := by
  have hok : codeOnly.validateHeader = .ok () := by decide +kernel
  have hout : longDynamic.validateHeader = .error .outOfBounds := by decide +kernel
  refine ⟨by decide +kernel, by decide, hok, fun h => ?_, by decide, by decide, hout, fun h => ?_⟩
  · refine h.2 hok (fun _ _ => none) (fun _ _ _ h => by cases h) 0 ⟨.noDataSegment, ?_, trivial⟩
    decide +kernel
  · exact h.1 ⟨_, hout, trivial⟩

end ElfFile

end Miosix
