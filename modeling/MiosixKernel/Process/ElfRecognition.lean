import MiosixKernel.Process.Elf
import Mathlib.Tactic.Ring
import Mathlib.Tactic.SplitIfs

/-!
# Programs in ELF format: what the recognizer reads

The recognizer checks the part of a segment that is in the file, `p_filesz`, and reads the part that is
in memory, `p_memsz`, of the dynamic segment.

* `EntryOverruns`, `EntryStops`: an entry of the dynamic segment that is not in the file, or that ends
  the recognition;
* `PlainAt`: a segment that passes its checks, and is not the dynamic one;
* `Overrun`: the recognizer reaches a dynamic segment that leaves the file;
* **`checkSegments_cases`**: the first segment that is not plain decides how the recognizer ends.
-/

namespace Miosix

open Lib

/-! ## The checks -/

@[simp] theorem ElfError.not_isFault_runtimeError (w : String) : ¬ (ElfError.runtimeError w).IsFault := id

@[simp] theorem ElfError.not_isFault_badAlloc : ¬ ElfError.badAlloc.IsFault := id

@[simp] theorem ElfError.not_isFault_badFile : ¬ ElfError.badFile.IsFault := id

@[simp] theorem ElfError.isFault_outOfBounds : ElfError.outOfBounds.IsFault := trivial

@[simp] theorem require_true (e : ElfError) : require true e = .ok () := rfl

@[simp] theorem require_false (e : ElfError) : require false e = .error e := rfl

@[simp] theorem require_eq_ok {c : Bool} {e : ElfError} {u : Unit} :
    require c e = .ok u ↔ c = true := by
  cases c <;> simp [require]

@[simp] theorem require_bind_eq_ok {α : Type} {c : Bool} {e : ElfError} {x : Unit → Except ElfError α}
    {a : α} : (require c e >>= x) = .ok a ↔ c = true ∧ x () = .ok a := by
  cases c <;> simp

@[simp] theorem faults_require {c : Bool} {e : ElfError} (he : ¬ e.IsFault) :
    ¬ Faults ElfError.IsFault (require c e) := by
  cases c <;> simp [he]

@[simp] theorem faults_require_bind {α : Type} {c : Bool} {e : ElfError}
    {x : Unit → Except ElfError α} (he : ¬ e.IsFault) :
    Faults ElfError.IsFault (require c e >>= x) ↔ c = true ∧ Faults ElfError.IsFault (x ()) := by
  cases c <;> simp [he]

theorem add32_of_lt {a b : ℕ} (h : a + b < 2 ^ 32) : add32 a b = a + b := Nat.mod_eq_of_lt h

theorem Phdr.not_faults_checkRange (ph : Phdr) (size : ℕ) :
    ¬ Faults ElfError.IsFault (ph.checkRange size) := by
  unfold checkRange
  split_ifs <;> simp

/-- What the checks of a segment say of its part in the file. -/
theorem Phdr.checkRange_spec {ph : Phdr} {size : ℕ} (hs : size < 2 ^ 31)
    (h : ph.checkRange size = .ok ()) : ph.offset + ph.filesz ≤ size := by
  simp only [checkRange, require_bind_eq_ok, decide_eq_true_eq] at h
  obtain ⟨h1, h2, h3, -⟩ := h
  rwa [add32_of_lt (by omega)] at h3

theorem Segments.not_faults_checkLoad (st : Segments) (ph : Phdr) (entry : ℕ) :
    ¬ Faults ElfError.IsFault (st.checkLoad ph entry) := by
  unfold checkLoad
  split_ifs <;> simp

theorem DynamicTags.not_faults_check (d : DynamicTags) (dataSegmentSize : ℕ) :
    ¬ Faults ElfError.IsFault (d.check dataSegmentSize) := by
  simp [check]

namespace ElfFile

open Elf

variable {f : ElfFile}

theorem not_faults_checkEhdr (f : ElfFile) (e : Ehdr) : ¬ Faults ElfError.IsFault (f.checkEhdr e) := by
  simp [checkEhdr]

theorem readWord_of_le {off : ℕ} (h : off + 4 ≤ f.size) : f.readWord off = .ok (f.word off) := if_pos h

theorem readWord_of_lt {off : ℕ} (h : f.size < off + 4) : f.readWord off = .error .outOfBounds :=
  if_neg (by omega)

theorem readPhdr_of_le {off : ℕ} (h : off + sizeofPhdr ≤ f.size) : f.readPhdr off = .ok (f.phdr off) :=
  if_pos h

/-! ## The dynamic segment -/

/-- The tags whose value is read. -/
def usesValue (tag : ℕ) : Bool :=
  [dtRel, dtRelsz, dtRelent, dtMxAbi, dtMxRamsize, dtMxStacksize].contains tag

/-- The tags that are refused. -/
def isRela (tag : ℕ) : Bool := [dtRela, dtRelasz, dtRelaent].contains tag

/-- An entry that is read and is not in the file. -/
def EntryOverruns (f : ElfFile) (off : ℕ) : Prop :=
  f.size < off + 4 ∨ usesValue (f.word off) ∧ f.size < off + 8

/-- An entry that ends the recognition with an exception. -/
def EntryStops (f : ElfFile) (off : ℕ) : Prop :=
  isRela (f.word off) ∨ f.word off = dtRelent ∧ f.word (off + 4) ≠ sizeofRel ∨
    f.word off = dtMxAbi ∧ f.word (off + 4) ≠ dvMxAbiV1

/-- The entries of a dynamic segment leave the file before one of them ends the recognition. -/
def DynamicOverruns (f : ElfFile) (ph : Phdr) : Prop :=
  ∃ k < ph.memsz / sizeofDyn, f.EntryOverruns (ph.offset + k * sizeofDyn) ∧
    ∀ j < k, ¬ f.EntryStops (ph.offset + j * sizeofDyn)

theorem faults_readWord {off : ℕ} : Faults ElfError.IsFault (f.readWord off) ↔ f.size < off + 4 := by
  by_cases h : off + 4 ≤ f.size
  · simp [readWord_of_le h, h]
  · simp [readWord_of_lt (not_le.1 h), not_le.1 h]

theorem faults_scanEntry (f : ElfFile) (off : ℕ) (d : DynamicTags) :
    Faults ElfError.IsFault (f.scanEntry off d) ↔ f.EntryOverruns off := by
  by_cases h4 : off + 4 ≤ f.size
  · rw [scanEntry, readWord_of_le h4, ok_bind, EntryOverruns, or_iff_right (not_lt.2 h4)]
    split_ifs with h1 h2 h3 h5 h6 h7 h8 <;>
      simp [faults_bind, faults_readWord, usesValue, *]
  · rw [scanEntry, readWord_of_lt (not_le.1 h4)]
    simp [EntryOverruns, not_le.1 h4]

theorem scanEntry_ok_iff (f : ElfFile) (off : ℕ) (d : DynamicTags) :
    (∃ d', f.scanEntry off d = .ok d') ↔ ¬ f.EntryOverruns off ∧ ¬ f.EntryStops off := by
  by_cases h4 : off + 4 ≤ f.size
  · rw [scanEntry, readWord_of_le h4, ok_bind, EntryOverruns, EntryStops, or_iff_right (not_lt.2 h4)]
    by_cases hv : off + 4 + 4 ≤ f.size
    · rw [readWord_of_le hv]
      split_ifs with h1 h2 h3 h5 h6 h7 h8 <;> simp [usesValue, isRela, *]
      all_goals simp [dtRel, dtRelsz, dtRelent, dtMxAbi, dtMxRamsize, dtMxStacksize, dtRela, dtRelasz,
        dtRelaent]
    · rw [readWord_of_lt (by omega)]
      split_ifs with h1 h2 h3 h5 h6 h7 h8 <;> simp [usesValue, isRela, *]
  · rw [scanEntry, readWord_of_lt (not_le.1 h4)]
    simp [EntryOverruns, not_le.1 h4]

/-- The loop over the entries leaves the file at the first one that does, if none before stops it. -/
theorem faults_scanDynamic (f : ElfFile) : ∀ (n off : ℕ) (d : DynamicTags),
    Faults ElfError.IsFault (f.scanDynamic n off d) ↔
      ∃ k < n, f.EntryOverruns (off + k * sizeofDyn) ∧
        ∀ j < k, ¬ f.EntryStops (off + j * sizeofDyn)
  | 0, off, d => by simp [scanDynamic]
  | n + 1, off, d => by
    have hoff : ∀ k, off + (k + 1) * sizeofDyn = off + sizeofDyn + k * sizeofDyn := fun k => by ring
    rw [scanDynamic, faults_bind, faults_scanEntry, Nat.exists_lt_succ_left]
    simp only [Nat.forall_lt_succ_left, hoff, Nat.zero_mul, Nat.add_zero, Nat.not_lt_zero,
      false_imp_iff, implies_true, and_true]
    refine or_congr_right' fun hover => ⟨?_, ?_⟩
    · rintro ⟨d', hd, hf⟩
      obtain ⟨k, hk, hko, hks⟩ := (faults_scanDynamic f n _ d').1 hf
      exact ⟨k, hk, hko, ((scanEntry_ok_iff f off d).1 ⟨d', hd⟩).2, hks⟩
    · rintro ⟨k, hk, hko, hs, hks⟩
      obtain ⟨d', hd⟩ := (scanEntry_ok_iff f off d).2 ⟨hover, hs⟩
      exact ⟨d', hd, (faults_scanDynamic f n _ d').2 ⟨k, hk, hko, hks⟩⟩

theorem not_faults_checkRelocation {off ds : ℕ} (h : off + sizeofRel ≤ f.size) :
    ¬ Faults ElfError.IsFault (f.checkRelocation ds off) := by
  unfold sizeofRel at h
  rw [checkRelocation, readWord_of_le (by omega), readWord_of_le (by omega), ok_bind]
  split_ifs <;> simp

theorem not_faults_checkRelocations {ds : ℕ} : ∀ (n : ℕ) {off : ℕ}, off + n * sizeofRel ≤ f.size →
    ¬ Faults ElfError.IsFault (f.checkRelocations ds n off)
  | 0, _, _ => by simp [checkRelocations]
  | n + 1, off, h => by
    rw [Nat.succ_mul] at h
    rw [checkRelocations, faults_bind, not_or]
    refine ⟨not_faults_checkRelocation (by omega), ?_⟩
    rintro ⟨-, -, hf⟩
    exact not_faults_checkRelocations n (by omega) hf

/-- The relocations that the dynamic segment tells of are in the file. -/
theorem relocations_le {dtRel dtRelsz size : ℕ} (hs : size < 2 ^ 31) (h1 : dtRel < size)
    (h2 : dtRelsz < size) (h3 : add32 dtRel dtRelsz ≤ size) :
    dtRel + dtRelsz / sizeofRel * sizeofRel ≤ size := by
  rw [add32_of_lt (by omega)] at h3
  have := Nat.div_mul_le_self dtRelsz sizeofRel
  omega

/-- The dynamic segment is all that is read without a check. -/
theorem faults_validateDynamicSegment (hs : f.size < 2 ^ 31) (ph : Phdr) (ds : ℕ) :
    Faults ElfError.IsFault (f.validateDynamicSegment ph ds) ↔ f.DynamicOverruns ph := by
  rw [validateDynamicSegment, faults_bind, faults_scanDynamic, DynamicOverruns, or_iff_left]
  rintro ⟨d, -, hf⟩
  rw [faults_bind] at hf
  obtain hf | ⟨-, -, hf⟩ := hf
  · exact d.not_faults_check ds hf
  · split_ifs at hf with h0
    · simp only [faults_require_bind ElfError.not_isFault_badFile, decide_eq_true_eq] at hf
      obtain ⟨h1, h2, h3, -, hf⟩ := hf
      exact not_faults_checkRelocations _ (relocations_le hs h1 h2 h3) hf
    · exact not_faults_ok () hf

/-! ## The program headers -/

/-- The program header with an index. -/
def phdrAt (f : ElfFile) (i : ℕ) : Phdr := f.phdr (f.ehdr.phoff + i * sizeofPhdr)

/-- What the recognizer has to remember of the headers before one, if none of them is dynamic. -/
def seen (f : ElfFile) (i : ℕ) : Segments where
  codeSegmentPresent := (List.range i).any fun j => (f.phdrAt j).isLoad && (f.phdrAt j).pfX
  dataSegmentPresent := (List.range i).any fun j => (f.phdrAt j).isData
  dynamicSegmentPresent := false
  dataSegmentSize := 0

/-- The segment passes the checks, and is not the dynamic one. -/
structure PlainAt (f : ElfFile) (i : ℕ) : Prop where
  range : (f.phdrAt i).checkRange f.size = .ok ()
  notDynamic : (f.phdrAt i).isDynamic = false
  load : (f.phdrAt i).isLoad → ∃ st, (f.seen i).checkLoad (f.phdrAt i) f.ehdr.entry = .ok st

/-- The segment is a dynamic one that passes the checks, and its entries leave the file. -/
structure DynamicOverrunsAt (f : ElfFile) (i : ℕ) : Prop where
  range : (f.phdrAt i).checkRange f.size = .ok ()
  dynamic : (f.phdrAt i).isDynamic = true
  afterData : (f.seen i).dataSegmentPresent = true
  aligned : 4 ≤ (f.phdrAt i).align
  overruns : f.DynamicOverruns (f.phdrAt i)

/-- What the checks of a segment to load remember of it. -/
theorem checkLoad_spec {st st' : Segments} {ph : Phdr} {entry : ℕ}
    (h : st.checkLoad ph entry = .ok st') :
    st'.codeSegmentPresent = (st.codeSegmentPresent || ph.pfX) ∧
    st'.dataSegmentPresent = (st.dataSegmentPresent || (ph.pfW && !ph.pfX)) ∧
    st'.dynamicSegmentPresent = st.dynamicSegmentPresent ∧
    ((ph.pfW && !ph.pfX) = false → st'.dataSegmentSize = st.dataSegmentSize) ∧
    ((ph.pfW && !ph.pfX) = true → st.dataSegmentPresent = false ∧ ph.filesz ≤ ph.memsz ∧
      ph.memsz < maxProcessImageSize - minProcessStackSize ∧ st'.dataSegmentSize = ph.memsz) := by
  simp only [Segments.checkLoad, require_bind_eq_ok] at h
  obtain ⟨-, -, -, h⟩ := h
  split_ifs at h with hx hw
  · simp only [require_bind_eq_ok, pure_eq_ok, Except.ok.injEq] at h
    obtain ⟨-, -, rfl⟩ := h
    simp [hx]
  · simp only [require_bind_eq_ok, pure_eq_ok, Except.ok.injEq, decide_eq_true_eq,
      Bool.not_eq_true'] at h
    obtain ⟨h1, h2, h3, rfl⟩ := h
    simp [hx, hw, h1, h2, h3]
  · cases h
    simp [hx, hw]

/-- The size of the data segment plays no part in the checks. -/
theorem checkLoad_dataSegmentSize (st : Segments) (n : ℕ) (ph : Phdr) (entry : ℕ) :
    (∃ st', Segments.checkLoad { st with dataSegmentSize := n } ph entry = .ok st') ↔
      ∃ st', st.checkLoad ph entry = .ok st' := by
  simp only [Segments.checkLoad]
  split_ifs <;> simp

/-- The recognizer remembers what it has to. -/
structure Seen (f : ElfFile) (i : ℕ) (st : Segments) : Prop where
  code : st.codeSegmentPresent = (f.seen i).codeSegmentPresent
  data : st.dataSegmentPresent = (f.seen i).dataSegmentPresent
  dynamic : st.dynamicSegmentPresent = false

theorem Seen.eq {i : ℕ} {st : Segments} (h : f.Seen i st) :
    st = { f.seen i with dataSegmentSize := st.dataSegmentSize } := by
  obtain ⟨h1, h2, h3⟩ := h
  cases st
  simp_all [seen]

theorem seen_succ_code (f : ElfFile) (i : ℕ) : (f.seen (i + 1)).codeSegmentPresent =
    ((f.seen i).codeSegmentPresent || (f.phdrAt i).isLoad && (f.phdrAt i).pfX) := by
  simp [seen, List.range_succ]

theorem seen_succ_data (f : ElfFile) (i : ℕ) : (f.seen (i + 1)).dataSegmentPresent =
    ((f.seen i).dataSegmentPresent || (f.phdrAt i).isData) := by
  simp [seen, List.range_succ]

theorem checkSegment_of_plain {i : ℕ} {st : Segments} (hp : f.PlainAt i) (hst : f.Seen i st) :
    ∃ st', f.checkSegment f.ehdr.entry (f.phdrAt i) st = .ok st' ∧ f.Seen (i + 1) st' := by
  rw [checkSegment, hp.range, ok_bind]
  by_cases hl : (f.phdrAt i).isLoad = true
  · rw [if_pos hl]
    obtain ⟨st', hst'⟩ :=
      (checkLoad_dataSegmentSize (f.seen i) st.dataSegmentSize _ _).2 (hp.load hl)
    rw [← hst.eq] at hst'
    obtain ⟨hc, hd, hy, -⟩ := checkLoad_spec hst'
    refine ⟨st', hst', ?_, ?_, hy.trans hst.dynamic⟩
    · rw [hc, seen_succ_code, hst.code, hl, Bool.true_and]
    · rw [hd, seen_succ_data, hst.data, Phdr.isData, hl, Bool.true_and]
  · rw [if_neg hl, if_neg (by simp [hp.notDynamic])]
    refine ⟨st, rfl, ?_, ?_, hst.dynamic⟩
    · simp [seen_succ_code, hst.code, hl]
    · simp [seen_succ_data, hst.data, Phdr.isData, hl]

theorem DynamicOverrunsAt.not_plain {i : ℕ} (h : f.DynamicOverrunsAt i) : ¬ f.PlainAt i := fun hp => by
  have := hp.notDynamic
  rw [h.dynamic] at this
  cases this

theorem isLoad_of_dynamic {ph : Phdr} (h : ph.isDynamic = true) : ph.isLoad = false := by
  simp only [Phdr.isDynamic, beq_iff_eq] at h
  simp [Phdr.isLoad, h]

/-- A segment that is not plain: the recognizer leaves the file, or it does not and what comes after it
is read with the dynamic segment seen. -/
theorem checkSegment_of_not_plain (hs : f.size < 2 ^ 31) {i : ℕ} {st : Segments}
    (hp : ¬ f.PlainAt i) (hst : f.Seen i st) :
    f.DynamicOverrunsAt i ∧
        Faults ElfError.IsFault (f.checkSegment f.ehdr.entry (f.phdrAt i) st) ∨
      ¬ f.DynamicOverrunsAt i ∧
        Meets ElfError.IsFault (f.checkSegment f.ehdr.entry (f.phdrAt i) st)
          (·.dynamicSegmentPresent = true) := by
  cases hr : (f.phdrAt i).checkRange f.size with
  | error e =>
    have he := (f.phdrAt i).not_faults_checkRange f.size
    rw [hr, faults_error] at he
    rw [checkSegment, hr, error_bind]
    exact Or.inr ⟨fun h => by simp [h.range] at hr, .of_error he⟩
  | ok u =>
    cases hy : (f.phdrAt i).isDynamic with
    | false =>
      have hload := Classical.not_imp.1 fun h => hp ⟨hr, hy, h⟩
      rw [checkSegment, hr, ok_bind, if_pos hload.1]
      refine Or.inr ⟨fun h => by simp [h.dynamic] at hy, st.not_faults_checkLoad _ _, fun st' h => ?_⟩
      rw [hst.eq] at h
      exact absurd ((checkLoad_dataSegmentSize _ _ _ _).1 ⟨st', h⟩) hload.2
    | true =>
      have hfaults : Faults ElfError.IsFault (f.checkSegment f.ehdr.entry (f.phdrAt i) st) ↔
          f.DynamicOverrunsAt i := by
        simp [checkSegment, hr, hy, isLoad_of_dynamic hy, hst.dynamic, hst.data, faults_bind,
          faults_validateDynamicSegment hs]
        exact ⟨fun ⟨h1, h2, h3⟩ => ⟨hr, hy, h1, h2, h3⟩, fun h => ⟨h.afterData, h.aligned, h.overruns⟩⟩
      by_cases h : f.DynamicOverrunsAt i
      · exact Or.inl ⟨h, hfaults.2 h⟩
      · refine Or.inr ⟨h, fun hf => h (hfaults.1 hf), fun st' hst' => ?_⟩
        rw [checkSegment, hr, ok_bind, isLoad_of_dynamic hy, if_neg (by simp), if_pos hy] at hst'
        simp only [require_bind_eq_ok] at hst'
        obtain ⟨-, -, -, hst'⟩ := hst'
        obtain ⟨-, -, hst'⟩ := bind_eq_ok hst'
        cases hst'
        rfl

/-- Once the dynamic segment is seen, no other one is read. -/
theorem checkSegments_of_dynamic {entry : ℕ} : ∀ (n : ℕ) {off : ℕ} {st : Segments},
    off + n * sizeofPhdr ≤ f.size → st.dynamicSegmentPresent = true →
    Meets ElfError.IsFault (f.checkSegments entry n off st) (·.dynamicSegmentPresent = true)
  | 0, _, _, _, hst => .of_ok hst
  | n + 1, off, st, hoff, hst => by
    rw [Nat.succ_mul] at hoff
    rw [checkSegments, readPhdr_of_le (by omega), ok_bind]
    refine Meets.bind (P := (·.dynamicSegmentPresent = true)) ?_
      fun st' hst' => checkSegments_of_dynamic n (by omega) hst'
    constructor
    · have := (f.phdr off).not_faults_checkRange f.size
      have := st.not_faults_checkLoad (f.phdr off) entry
      simp only [checkSegment, faults_bind]
      split_ifs <;> simp_all
    · intro st' h
      obtain ⟨-, -, h⟩ := bind_eq_ok h
      split_ifs at h with hl
      · rw [(checkLoad_spec h).2.2.1, hst]
      · simp [hst] at h
      · cases h
        exact hst

/-- **The first segment that is not plain decides how the recognizer ends.** -/
theorem checkSegments_cases (hs : f.size < 2 ^ 31)
    (hphdrs : f.ehdr.phoff + f.ehdr.phnum * sizeofPhdr ≤ f.size) : ∀ (n i : ℕ) {st : Segments},
    i + n = f.ehdr.phnum → (∀ j < i, f.PlainAt j) → f.Seen i st →
    ((∀ j < f.ehdr.phnum, f.PlainAt j) ∧
      ∃ st', f.checkSegments f.ehdr.entry n (f.ehdr.phoff + i * sizeofPhdr) st = .ok st' ∧
        f.Seen f.ehdr.phnum st') ∨
    ∃ k < f.ehdr.phnum, (∀ j < k, f.PlainAt j) ∧ ¬ f.PlainAt k ∧
      (f.DynamicOverrunsAt k ∧ Faults ElfError.IsFault
          (f.checkSegments f.ehdr.entry n (f.ehdr.phoff + i * sizeofPhdr) st) ∨
        ¬ f.DynamicOverrunsAt k ∧ Meets ElfError.IsFault
          (f.checkSegments f.ehdr.entry n (f.ehdr.phoff + i * sizeofPhdr) st)
          (·.dynamicSegmentPresent = true))
  | 0, i, st, hi, hplain, hst => by
    obtain rfl : i = f.ehdr.phnum := hi
    exact Or.inl ⟨hplain, st, rfl, hst⟩
  | n + 1, i, st, hi, hplain, hst => by
    have hin : f.ehdr.phoff + (i + 1) * sizeofPhdr + n * sizeofPhdr ≤ f.size := by
      rwa [add_assoc, ← Nat.add_mul, show i + 1 + n = f.ehdr.phnum by omega]
    have hnext : f.ehdr.phoff + i * sizeofPhdr + sizeofPhdr = f.ehdr.phoff + (i + 1) * sizeofPhdr := by
      ring
    have hph : f.phdr (f.ehdr.phoff + i * sizeofPhdr) = f.phdrAt i := rfl
    rw [checkSegments, readPhdr_of_le (by omega), ok_bind, hnext, hph]
    by_cases hp : f.PlainAt i
    · obtain ⟨st', hst', hseen⟩ := checkSegment_of_plain hp hst
      have hplain' : ∀ j < i + 1, f.PlainAt j := Nat.forall_lt_succ_right.2 ⟨hplain, hp⟩
      rw [hst', ok_bind]
      exact checkSegments_cases hs hphdrs n (i + 1) (by omega) hplain' hseen
    · refine Or.inr ⟨i, by omega, hplain, hp, ?_⟩
      obtain ⟨ho, hf⟩ | ⟨ho, hm⟩ := checkSegment_of_not_plain hs hp hst
      · exact Or.inl ⟨ho, faults_bind.2 (Or.inl hf)⟩
      · exact Or.inr ⟨ho, hm.bind fun st' hst' => checkSegments_of_dynamic n hin hst'⟩

/-! ## The whole file -/

/-- The file passes the checks that come before the program headers. -/
structure HeaderOk (f : ElfFile) : Prop where
  aligned : f.base % 8 = 0
  large : sizeofEhdr ≤ f.size
  checked : f.checkEhdr f.ehdr = .ok ()

/-- The recognizer reaches a dynamic segment whose entries leave the file. -/
def Overrun (f : ElfFile) : Prop :=
  f.HeaderOk ∧ ∃ k < f.ehdr.phnum, (∀ j < k, f.PlainAt j) ∧ f.DynamicOverrunsAt k

/-- All segments are plain and one has code, so that the file is accepted without a dynamic segment. -/
def WithoutDynamic (f : ElfFile) : Prop :=
  f.HeaderOk ∧ (∀ j < f.ehdr.phnum, f.PlainAt j) ∧ (f.seen f.ehdr.phnum).codeSegmentPresent = true

theorem HeaderOk.phdrs_le (hs : f.size < 2 ^ 31) (h : f.HeaderOk) :
    f.ehdr.phoff + f.ehdr.phnum * sizeofPhdr ≤ f.size := by
  have hl := h.large
  have hc := h.checked
  simp only [checkEhdr, require_bind_eq_ok, require_eq_ok, decide_eq_true_eq] at hc
  obtain ⟨-, -, -, -, -, h1, -, -, -, -, -, h2, h3⟩ := hc
  simp only [sub32, sizeofPhdr, sizeofEhdr] at h1 h3 hl ⊢
  rwa [add32_of_lt (by omega)] at h3

theorem validateHeader_of_headerOk (h : f.HeaderOk) : f.validateHeader =
    f.checkSegments f.ehdr.entry f.ehdr.phnum f.ehdr.phoff ⟨false, false, false, 0⟩ >>= fun st =>
      require st.codeSegmentPresent .badFile := by
  simp [validateHeader, readEhdr, h.aligned, h.large, h.checked]

theorem validateHeader_of_not_headerOk (h : ¬ f.HeaderOk) :
    ¬ Faults ElfError.IsFault f.validateHeader ∧ f.validateHeader ≠ .ok () := by
  by_cases h1 : f.base % 8 = 0
  · by_cases h2 : sizeofEhdr ≤ f.size
    · have h3 := f.not_faults_checkEhdr f.ehdr
      cases hc : f.checkEhdr f.ehdr with
      | ok u => exact absurd ⟨h1, h2, hc⟩ h
      | error e =>
        rw [hc, faults_error] at h3
        simp [validateHeader, readEhdr, h1, h2, hc, h3]
    · simp [validateHeader, h1, h2]
  · simp [validateHeader, h1]

theorem seen_zero (f : ElfFile) : f.Seen 0 ⟨false, false, false, 0⟩ := ⟨rfl, rfl, rfl⟩

/-- How the loop over all program headers ends. -/
theorem checkSegments_all (hs : f.size < 2 ^ 31) (h : f.HeaderOk) :
    ((∀ j < f.ehdr.phnum, f.PlainAt j) ∧ ∃ st,
      f.checkSegments f.ehdr.entry f.ehdr.phnum f.ehdr.phoff ⟨false, false, false, 0⟩ = .ok st ∧
        f.Seen f.ehdr.phnum st) ∨
    ∃ k < f.ehdr.phnum, (∀ j < k, f.PlainAt j) ∧ ¬ f.PlainAt k ∧
      (f.DynamicOverrunsAt k ∧ Faults ElfError.IsFault
          (f.checkSegments f.ehdr.entry f.ehdr.phnum f.ehdr.phoff ⟨false, false, false, 0⟩) ∨
        ¬ f.DynamicOverrunsAt k ∧ Meets ElfError.IsFault
          (f.checkSegments f.ehdr.entry f.ehdr.phnum f.ehdr.phoff ⟨false, false, false, 0⟩)
          (·.dynamicSegmentPresent = true)) := by
  simpa only [Nat.zero_mul, Nat.add_zero] using checkSegments_cases hs (h.phdrs_le hs) f.ehdr.phnum 0
    (Nat.zero_add _) (fun j hj => absurd hj (Nat.not_lt_zero j)) f.seen_zero

/-- **When the recognizer leaves the file.** -/
theorem faults_validateHeader (hs : f.size < 2 ^ 31) :
    Faults ElfError.IsFault f.validateHeader ↔ f.Overrun := by
  by_cases h : f.HeaderOk
  · rw [validateHeader_of_headerOk h, faults_bind, or_iff_left (by simp)]
    obtain ⟨hp, st, hst, -⟩ | ⟨k, hk, hp, hnp, ⟨ho, hf⟩ | ⟨ho, hm⟩⟩ := checkSegments_all hs h
    · rw [hst]
      exact ⟨fun hf => absurd hf (not_faults_ok _), fun ⟨_, k, hk, _, ho⟩ => absurd (hp k hk) ho.not_plain⟩
    · exact ⟨fun _ => ⟨h, k, hk, hp, ho⟩, fun _ => hf⟩
    · refine ⟨fun hf => absurd hf hm.1, ?_⟩
      rintro ⟨-, k', hk', hp', ho'⟩
      obtain hlt | rfl | hlt := Nat.lt_trichotomy k k'
      · exact absurd (hp' k hlt) hnp
      · exact absurd ho' ho
      · exact absurd (hp k' hlt) ho'.not_plain
  · exact ⟨fun hf => absurd hf (validateHeader_of_not_headerOk h).1, fun ho => absurd ho.1 h⟩

theorem headerOk_of_accepted (h : f.validateHeader = .ok ()) : f.HeaderOk :=
  not_not.1 fun hn => (validateHeader_of_not_headerOk hn).2 h

theorem WithoutDynamic.accepted (hs : f.size < 2 ^ 31) (h : f.WithoutDynamic) :
    f.validateHeader = .ok () := by
  obtain ⟨hh, hp, hcode⟩ := h
  rw [validateHeader_of_headerOk hh]
  obtain ⟨-, st, hst, hseen⟩ | ⟨k, hk, -, hnp, -⟩ := checkSegments_all hs hh
  · rw [hst, ok_bind, hseen.code, hcode, require_true]
  · exact absurd (hp k hk) hnp

/-- Any other file that is accepted has a dynamic segment. -/
theorem dynamic_of_accepted (hs : f.size < 2 ^ 31) (h : f.validateHeader = .ok ())
    (hw : ¬ f.WithoutDynamic) : ∃ st,
    f.checkSegments f.ehdr.entry f.ehdr.phnum f.ehdr.phoff ⟨false, false, false, 0⟩ = .ok st ∧
      st.dynamicSegmentPresent = true := by
  have hh := headerOk_of_accepted h
  rw [validateHeader_of_headerOk hh] at h
  obtain ⟨st, hst, hcode⟩ := bind_eq_ok h
  refine ⟨st, hst, ?_⟩
  obtain ⟨hp, st', hst', hseen⟩ | ⟨k, -, -, -, ⟨-, hf⟩ | ⟨-, hm⟩⟩ := checkSegments_all hs hh
  · obtain rfl : st = st' := Except.ok.inj (hst.symm.trans hst')
    exact absurd ⟨hh, hp, hseen.code.symm.trans (require_eq_ok.1 hcode)⟩ hw
  · rw [hst] at hf
    exact absurd hf (not_faults_ok st)
  · exact hm.2 st hst

end ElfFile

end Miosix
