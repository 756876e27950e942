import MiosixKernel.Process.ProcessImage
import Mathlib.Data.Set.Card
import Mathlib.Order.Interval.Finset.Nat

/-!
# The image of a process: loading

The recognizer takes the last value of each tag of the dynamic segment. The loader does so too, but for each
`DT_MX_RAMSIZE` entry it takes a block of the pool, and only the last one will be given back.

* `checkSegments_recognized`: what is known of a file that was accepted;
* `loadSegments_spec`: what the loader finds; `Took`: the blocks that it takes;
* `LoadRight`: what `load` promises;
* **`load_right_iff`**: for a file that was accepted, it keeps this if and only if there is exactly one
  `DT_MX_RAMSIZE` entry.
-/

namespace Miosix

open Lib Elf

/-! ## What the recognizer has checked -/

namespace ElfFile

variable {f : ElfFile} {n off ds entry tag v : ℕ} {es es' : List (ℕ × ℕ)} {st st' : Segments} {ph data : Phdr}

theorem lastValue_cons (e : ℕ × ℕ) : lastValue tag v (e :: es) = lastValue tag (if e.1 = tag then e.2 else v) es := rfl

theorem lastValue_append : lastValue tag v (es ++ es') = lastValue tag (lastValue tag v es) es' := List.foldl_append

/-- What the recognizer remembers of an entry. -/
theorem scanEntry_spec {d d' : DynamicTags} (h : f.scanEntry off d = .ok d') (hd : d.dtRelsz ≠ 0 → d.hasRelocs ≠ 0) :
    d'.dtRel = (if f.word off = dtRel then f.word (off + 4) else d.dtRel) ∧
    d'.dtRelsz = (if f.word off = dtRelsz then f.word (off + 4) else d.dtRelsz) ∧
    (d'.dtRelsz ≠ 0 → d'.hasRelocs ≠ 0) := by
  obtain ⟨t, ht, h⟩ := bind_eq_ok h
  obtain rfl := readWord_eq_ok ht
  have hor : ∀ a b : ℕ, b ≠ 0 → a ||| b ≠ 0 := fun a b hb h0 => hb (Nat.or_eq_zero_iff.1 h0).2
  split_ifs at h with h1 h2 h3 h4 h5 h6 h7
  · obtain ⟨v, hv, h⟩ := bind_eq_ok h
    obtain rfl := readWord_eq_ok hv
    cases h
    exact ⟨(if_pos h1).symm, (if_neg (by rw [h1]; decide)).symm, fun _ => hor _ _ one_ne_zero⟩
  · obtain ⟨v, hv, h⟩ := bind_eq_ok h
    obtain rfl := readWord_eq_ok hv
    cases h
    exact ⟨(if_neg h1).symm, (if_pos h2).symm, fun _ => hor _ _ two_ne_zero⟩
  · obtain ⟨v, -, h⟩ := bind_eq_ok h
    obtain ⟨-, h⟩ := require_bind_eq_ok.1 h
    cases h
    exact ⟨(if_neg h1).symm, (if_neg h2).symm, fun _ => hor _ _ four_ne_zero⟩
  · obtain ⟨v, -, h⟩ := bind_eq_ok h
    obtain ⟨-, h⟩ := require_bind_eq_ok.1 h
    cases h
    exact ⟨(if_neg h1).symm, (if_neg h2).symm, hd⟩
  · obtain ⟨v, -, h⟩ := bind_eq_ok h
    cases h
    exact ⟨(if_neg h1).symm, (if_neg h2).symm, hd⟩
  · obtain ⟨v, -, h⟩ := bind_eq_ok h
    cases h
    exact ⟨(if_neg h1).symm, (if_neg h2).symm, hd⟩
  · cases h
    exact ⟨(if_neg h1).symm, (if_neg h2).symm, hd⟩

/-- The recognizer remembers the last values. -/
theorem scanDynamic_spec {d d' : DynamicTags} (h : f.scanDynamic n off d = .ok d') (hd : d.dtRelsz ≠ 0 → d.hasRelocs ≠ 0) :
    d'.dtRel = lastValue dtRel d.dtRel (f.entriesFrom n off) ∧
    d'.dtRelsz = lastValue dtRelsz d.dtRelsz (f.entriesFrom n off) ∧ (d'.dtRelsz ≠ 0 → d'.hasRelocs ≠ 0) := by
  induction n generalizing off d with
  | zero =>
    cases h
    exact ⟨rfl, rfl, hd⟩
  | succ n ih =>
    obtain ⟨d₁, hd₁, h⟩ := bind_eq_ok h
    obtain ⟨h1, h2, h3⟩ := scanEntry_spec hd₁ hd
    obtain ⟨h4, h5, h6⟩ := ih h h3
    rw [entriesFrom, lastValue_cons, lastValue_cons, ← h1, ← h2]
    exact ⟨h4, h5, h6⟩

/-- The relocations that were checked name words of the data segment. -/
theorem checkRelocations_spec (hds : ds ≤ maxProcessImageSize) (h : f.checkRelocations ds n off = .ok ()) :
    ∀ r ∈ f.relocationsFrom n off, NamesWord r ∧ r + 4 ≤ dataBase + ds := by
  induction n generalizing off with
  | zero => exact fun r hr => absurd hr List.not_mem_nil
  | succ n ih =>
    obtain ⟨⟨⟩, hcheck, h⟩ := bind_eq_ok h
    intro r hr
    obtain hr | hr := List.mem_append.1 hr
    · split_ifs at hr with hrel
      · obtain rfl := List.mem_singleton.1 hr
        obtain ⟨info, hinfo, hcheck⟩ := bind_eq_ok hcheck
        obtain rfl := readWord_eq_ok hinfo
        rw [if_neg (by rw [hrel]; decide), if_pos hrel] at hcheck
        obtain ⟨r, hr, hcheck⟩ := bind_eq_ok hcheck
        obtain rfl := readWord_eq_ok hr
        simp only [require_bind_eq_ok, require_eq_ok, decide_eq_true_eq] at hcheck
        obtain ⟨h1, h2, h3⟩ := hcheck
        refine ⟨⟨h1, h3⟩, ?_⟩
        unfold maxProcessImageSize at hds
        simp only [add32, sub32, dataBase] at h1 h2 ⊢
        omega
      · exact absurd hr List.not_mem_nil
    · exact ih h r hr

theorem validateDynamicSegment_relocations (h : f.validateDynamicSegment ph ds = .ok ()) :
    let es := f.entriesFrom (ph.memsz / sizeofDyn) ph.offset
    ∀ r ∈ f.relocationsFrom (lastValue dtRelsz 0 es / sizeofRel) (lastValue dtRel 0 es),
      NamesWord r ∧ r + 4 ≤ dataBase + ds := by
  intro es
  obtain ⟨d, hd, h⟩ := bind_eq_ok h
  obtain ⟨⟨⟩, hcheck, h⟩ := bind_eq_ok h
  obtain ⟨hrel, hrelsz, hrelocs⟩ := scanDynamic_spec hd (fun h0 => absurd rfl h0)
  have hds : ds ≤ maxProcessImageSize := by
    simp only [DynamicTags.check, require_bind_eq_ok, require_eq_ok, Bool.and_eq_true, decide_eq_true_eq] at hcheck
    exact hcheck.2.2.2.1.1.2
  rw [← hrel, ← hrelsz]
  by_cases h0 : d.dtRelsz = 0
  · rw [h0]
    exact fun r hr => absurd hr List.not_mem_nil
  · rw [if_pos (hrelocs h0)] at h
    simp only [require_bind_eq_ok] at h
    exact checkRelocations_spec hds h.2.2.2.2

/-- What is known of the program headers that were accepted. -/
structure Recognized (f : ElfFile) (st : Segments) (phs : List Phdr) : Prop where
  data : ∀ ph ∈ phs, ph.isData = true → ph.filesz ≤ ph.memsz ∧ ph.memsz < maxProcessImageSize
  oneData : (phs.filter Phdr.isData).length ≤ 1 ∧ (st.dataSegmentPresent = true → phs.filter Phdr.isData = [])
  oneDynamic : (phs.filter Phdr.isDynamic).length ≤ 1 ∧
    (st.dynamicSegmentPresent = true → phs.filter Phdr.isDynamic = [])
  dynamic : ∀ ph ∈ phs, ph.isDynamic = true → ∃ ds, f.validateDynamicSegment ph ds = .ok () ∧
    (st.dataSegmentPresent = true ∧ ds = st.dataSegmentSize ∨ ∃ data ∈ phs, data.isData = true ∧ ds = data.memsz)

theorem checkSegment_spec (h : f.checkSegment entry ph st = .ok st') :
    (ph.isData = true → ph.filesz ≤ ph.memsz ∧ ph.memsz < maxProcessImageSize ∧ st.dataSegmentPresent = false ∧
      st'.dataSegmentPresent = true ∧ st'.dataSegmentSize = ph.memsz) ∧
    (ph.isData = false → st'.dataSegmentPresent = st.dataSegmentPresent ∧ st'.dataSegmentSize = st.dataSegmentSize) ∧
    (ph.isDynamic = true → st.dynamicSegmentPresent = false ∧ st'.dynamicSegmentPresent = true ∧
      st.dataSegmentPresent = true ∧ f.validateDynamicSegment ph st.dataSegmentSize = .ok ()) ∧
    (ph.isDynamic = false → st'.dynamicSegmentPresent = st.dynamicSegmentPresent) := by
  obtain ⟨⟨⟩, -, h⟩ := bind_eq_ok h
  have hisdata : ph.isData = (ph.isLoad && (ph.pfW && !ph.pfX)) := Bool.and_assoc _ _ _
  split_ifs at h with hload hdyn
  · have hnot : ph.isDynamic = false := by
      by_contra hd
      rw [isLoad_of_dynamic (Bool.eq_true_of_not_eq_false hd)] at hload
      cases hload
    obtain ⟨-, hd, hy, hsize, hdata⟩ := checkLoad_spec h
    rw [hisdata, hload, Bool.true_and, hnot]
    refine ⟨fun h1 => ?_, fun h1 => ⟨by rw [hd, h1, Bool.or_false], hsize h1⟩, by simp, fun _ => hy⟩
    obtain ⟨h2, h3, h4, h5⟩ := hdata h1
    exact ⟨h3, h4.trans_le (Nat.sub_le _ _), h2, by rw [hd, h1, Bool.or_true], h5⟩
  · simp only [require_bind_eq_ok, Bool.not_eq_true'] at h
    obtain ⟨hnone, hpresent, -, h⟩ := h
    obtain ⟨⟨⟩, hvalid, h⟩ := bind_eq_ok h
    cases h
    rw [hisdata, Bool.eq_false_iff.2 hload, Bool.false_and, hdyn]
    exact ⟨by simp, fun _ => ⟨rfl, rfl⟩, fun _ => ⟨hnone, rfl, hpresent, hvalid⟩, by simp⟩
  · cases h
    rw [hisdata, Bool.eq_false_iff.2 hload, Bool.false_and, Bool.eq_false_iff.2 hdyn]
    exact ⟨by simp, fun _ => ⟨rfl, rfl⟩, by simp, fun _ => rfl⟩

theorem checkSegments_recognized (h : f.checkSegments entry n off st = .ok st') :
    f.Recognized st (f.phdrsFrom n off) := by
  induction n generalizing off st with
  | zero => exact ⟨nofun, ⟨Nat.zero_le _, fun _ => rfl⟩, ⟨Nat.zero_le _, fun _ => rfl⟩, nofun⟩
  | succ n ih =>
    obtain ⟨ph, hph, h⟩ := bind_eq_ok h
    obtain rfl := readPhdr_eq_ok hph
    obtain ⟨st₁, hst₁, h⟩ := bind_eq_ok h
    obtain ⟨hdata, hnotdata, hdyn, hnotdyn⟩ := checkSegment_spec hst₁
    obtain ⟨h1, ⟨h2, h3⟩, ⟨h4, h5⟩, h6⟩ := ih h
    rw [phdrsFrom]
    refine ⟨List.forall_mem_cons.2 ⟨fun hd => ⟨(hdata hd).1, (hdata hd).2.1⟩, h1⟩, ?_, ?_, ?_⟩
    · cases hd : (f.phdr off).isData with
      | true =>
        obtain ⟨-, -, hnone, hsome, -⟩ := hdata hd
        rw [List.filter_cons_of_pos hd, h3 hsome, hnone]
        exact ⟨le_rfl, nofun⟩
      | false =>
        rw [List.filter_cons_of_neg (by rw [hd]; exact Bool.false_ne_true)]
        exact ⟨h2, fun hp => h3 ((hnotdata hd).1.trans hp)⟩
    · cases hd : (f.phdr off).isDynamic with
      | true =>
        obtain ⟨hnone, hsome, -⟩ := hdyn hd
        rw [List.filter_cons_of_pos hd, h5 hsome, hnone]
        exact ⟨le_rfl, nofun⟩
      | false =>
        rw [List.filter_cons_of_neg (by rw [hd]; exact Bool.false_ne_true)]
        exact ⟨h4, fun hp => h5 ((hnotdyn hd).trans hp)⟩
    · refine List.forall_mem_cons.2 ⟨fun hd => ?_, fun ph hph hd => ?_⟩
      · obtain ⟨-, -, hpresent, hvalid⟩ := hdyn hd
        exact ⟨_, hvalid, .inl ⟨hpresent, rfl⟩⟩
      · obtain ⟨ds, hvalid, hds⟩ := h6 ph hph hd
        refine ⟨ds, hvalid, ?_⟩
        obtain ⟨hpresent, rfl⟩ | ⟨data, hmem, hisdata, rfl⟩ := hds
        · cases hd' : (f.phdr off).isData with
          | true => exact .inr ⟨_, List.mem_cons_self, hd', (hdata hd').2.2.2.2⟩
          | false =>
            rw [(hnotdata hd').1] at hpresent
            exact .inl ⟨hpresent, (hnotdata hd').2⟩
        · exact .inr ⟨data, List.mem_cons_of_mem _ hmem, hisdata, rfl⟩

theorem flatMap_entriesOf (phs : List Phdr) :
    phs.flatMap f.entriesOf = (phs.filter Phdr.isDynamic).flatMap f.entriesOf := by
  induction phs with
  | nil => rfl
  | cons ph phs ih =>
    cases hd : ph.isDynamic with
    | true => rw [List.filter_cons_of_pos hd, List.flatMap_cons, List.flatMap_cons, ih]
    | false =>
      rw [List.filter_cons_of_neg (by rw [hd]; exact Bool.false_ne_true), List.flatMap_cons, entriesOf, hd,
        if_neg Bool.false_ne_true, List.nil_append, ih]

/-- What is known of a file that was accepted. -/
structure Accepted (f : ElfFile) (data : Phdr) : Prop where
  filesz_le : data.filesz ≤ data.memsz
  memsz_lt : data.memsz < maxProcessImageSize
  oneData : f.phdrs.filter Phdr.isData = [data]
  relocations : ∀ r ∈ f.relocations, NamesWord r ∧ r + 4 ≤ dataBase + data.memsz

theorem accepted (h : f.validateHeader = .ok ()) (hdata : data ∈ f.phdrs) (hisdata : data.isData = true) :
    f.Accepted data := by
  have hh := headerOk_of_accepted h
  rw [validateHeader_of_headerOk hh] at h
  obtain ⟨st, hst, -⟩ := bind_eq_ok h
  have hrec : f.Recognized ⟨false, false, false, 0⟩ f.phdrs := checkSegments_recognized hst
  have hone : f.phdrs.filter Phdr.isData = [data] := by
    have hmem : data ∈ f.phdrs.filter Phdr.isData := List.mem_filter.2 ⟨hdata, hisdata⟩
    have hlen := hrec.oneData.1
    cases hl : f.phdrs.filter Phdr.isData with
    | nil => rw [hl] at hmem; cases hmem
    | cons d ds =>
      rw [hl, List.length_cons] at hlen
      obtain rfl := List.length_eq_zero_iff.1 (by omega : ds.length = 0)
      rw [hl] at hmem
      rw [List.mem_singleton.1 hmem]
  obtain ⟨hle, hlt⟩ := hrec.data data hdata hisdata
  refine ⟨hle, hlt, hone, ?_⟩
  unfold ElfFile.relocations ElfFile.dynamic
  rw [flatMap_entriesOf]
  have hlen := hrec.oneDynamic.1
  cases hl : f.phdrs.filter Phdr.isDynamic with
  | nil =>
    rw [List.flatMap_nil, show lastValue dtRelsz 0 [] = 0 from rfl, Nat.zero_div]
    exact fun r hr => absurd hr List.not_mem_nil
  | cons ph phs =>
    rw [hl, List.length_cons] at hlen
    obtain rfl := List.length_eq_zero_iff.1 (by omega : phs.length = 0)
    obtain ⟨hph, hdyn⟩ := List.mem_filter.1 (hl ▸ List.mem_cons_self : ph ∈ f.phdrs.filter Phdr.isDynamic)
    obtain ⟨ds, hvalid, hds⟩ := hrec.dynamic ph hph hdyn
    obtain ⟨hpresent, -⟩ | ⟨data', hmem', hisdata', rfl⟩ := hds
    · cases hpresent
    · have hdata' : data' ∈ f.phdrs.filter Phdr.isData := List.mem_filter.2 ⟨hmem', hisdata'⟩
      rw [hone] at hdata'
      obtain rfl := List.mem_singleton.1 hdata'
      rw [List.flatMap_cons, List.flatMap_nil, List.append_nil, entriesOf, if_pos hdyn]
      exact validateDynamicSegment_relocations hvalid

end ElfFile

/-! ## The blocks of the pool -/

namespace ProcessPool

variable {s s' : ProcessPool} {p n : ℕ}

/-- The pointers to the allocated blocks. -/
def held (s : ProcessPool) : Set ℕ := {p | s.allocatedBlocks p ≠ none}

theorem mem_held : p ∈ s.held ↔ s.allocatedBlocks p ≠ none := Iff.rfl

theorem Good.finite_held (hs : s.Good) : s.held.Finite := by
  refine (Set.finite_Icc s.poolBase (s.poolBase + s.poolSize)).subset fun p hp => ?_
  obtain ⟨n, hn⟩ := Option.ne_none_iff_exists'.1 hp
  have hin := hs.inside p n hn
  exact ⟨hin.1, le_trans (Nat.le_add_right p n) hin.2⟩

/-- A block that is returned by `allocate` was not held before. -/
theorem allocate_ok (hs : s.Good) (h : allocate n s = .ok p s') :
    s'.Good ∧ s.allocatedBlocks p = none ∧ s'.allocatedBlocks = Function.update s.allocatedBlocks p (some n) := by
  by_cases hv : s.ValidSize n
  · obtain ⟨i, b, he, hb, hfit, hal, hfree⟩ | ⟨he, -⟩ | ⟨he, -⟩ := allocate_cases hs hv
    · rw [he] at h
      cases h
      have hpos : 0 < n := by
        have := hv.2.2
        omega
      exact ⟨take_good hs hv hb hfit hal hfree, hfree.eq_none hs hpos, rfl⟩
    · rw [he] at h
      cases h
    · rw [he] at h
      cases h
  · rw [allocate_invalid hv] at h
    cases h

theorem held_of_update (h : s'.allocatedBlocks = Function.update s.allocatedBlocks p (some n)) :
    s'.held = insert p s.held := by
  ext q
  change s'.allocatedBlocks q ≠ none ↔ q ∈ insert p s.held
  rw [h, Set.mem_insert_iff]
  by_cases hq : q = p
  · subst hq
    simp
  · simp [hq, held]

/-- A block that is held can be given back. -/
theorem deallocate_ok (hs : s.Good) (h : s.allocatedBlocks p = some n) :
    ∃ s', deallocate p s = .ok () s' ∧ s'.Good ∧ s'.held = s.held \ {p} := by
  obtain ⟨b, he, hsize, hhas⟩ := deallocate_some hs h
  refine ⟨_, he, release_good hs h hsize hhas, ?_⟩
  ext q
  by_cases hq : q = p
  · simp [held, release, hq]
  · simp [held, release, hq]

end ProcessPool

namespace ProcessImage

/-- Blocks of some sizes are taken, and the last one is the image. -/
inductive Took : ProcessImage → List ℕ → ProcessImage → Prop
  | nil (s : ProcessImage) : Took s [] s
  | cons {s s' : ProcessImage} {p n : ℕ} {ns : List ℕ} {pool : ProcessPool}
      (h : ProcessPool.allocate n s.pool = .ok p pool)
      (h' : Took { s with image := some p, size := n, pool := pool } ns s') : Took s (n :: ns) s'

variable {s s' s'' : ProcessImage} {f : ElfFile} {n off : ℕ} {ns ms : List ℕ} {l l' : ImageLoading} {data : Phdr}

theorem Took.append (h : Took s ns s') (h' : Took s' ms s'') : Took s (ns ++ ms) s'' := by
  induction h with
  | nil => exact h'
  | cons h _ ih => exact .cons h (ih h')

/-- The pool holds one more block for each size. -/
theorem Took.ncard (h : Took s ns s') (hs : s.pool.Good) :
    s'.pool.Good ∧ s'.pool.held.ncard = s.pool.held.ncard + ns.length := by
  induction h with
  | nil => exact ⟨hs, rfl⟩
  | cons h _ ih =>
    obtain ⟨hgood, hfree, hblocks⟩ := ProcessPool.allocate_ok hs h
    obtain ⟨hgood', hcard⟩ := ih hgood
    refine ⟨hgood', ?_⟩
    rw [hcard, ProcessPool.held_of_update hblocks, Set.ncard_insert_of_notMem (fun h => ProcessPool.mem_held.1 h hfree) hs.finite_held,
      List.length_cons]
    omega

/-- If a block was taken, the image is the last one. -/
theorem Took.block (h : Took s ns s') (hs : s.pool.Good) (hne : ns ≠ []) (p : ℕ) (hp : s'.image = some p) :
    s'.pool.allocatedBlocks p = some s'.size := by
  induction h with
  | nil => exact absurd rfl hne
  | @cons _ _ q _ ms _ halloc h' ih =>
    obtain ⟨hgood, -, hblocks⟩ := ProcessPool.allocate_ok hs halloc
    cases ms with
    | nil =>
      cases h'
      obtain rfl := Option.some.inj hp
      rw [hblocks, Function.update_self]
    | cons m ms => exact ih hgood (List.cons_ne_nil _ _) hp

/-- The image, if there is one, is in a block of the pool. -/
structure Owns (s : ProcessImage) : Prop where
  good : s.pool.Good
  block : ∀ p, s.image = some p → s.pool.allocatedBlocks p = some s.size

theorem new_owns {pool : ProcessPool} (h : pool.Good) (mem : ℕ → UInt8) : (new pool mem).Owns := ⟨h, nofun⟩

/-- The previous image, if any. -/
def previous (s : ProcessImage) : Set ℕ := {p | s.image = some p}

theorem previous_of_none (h : s.image = none) : s.previous = ∅ := by
  ext q
  simp [previous, h]

theorem previous_of_some {p : ℕ} (h : s.image = some p) : s.previous = {p} := by
  ext q
  simp [previous, h, eq_comm]

theorem Owns.release (h : s.Owns) : ∃ pool, s.release = .ok { s with pool := pool } ∧ pool.Good ∧
    pool.held = s.pool.held \ s.previous := by
  obtain himage | ⟨p, himage⟩ := Option.eq_none_or_eq_some s.image
  · have hrelease : s.release = .ok s := by rw [ProcessImage.release, himage]; rfl
    refine ⟨s.pool, hrelease, h.good, ?_⟩
    rw [previous_of_none himage, Set.sdiff_empty]
  · obtain ⟨pool, hpool, hgood, hheld⟩ := ProcessPool.deallocate_ok h.good (h.block p himage)
    refine ⟨pool, ?_, hgood, by rw [hheld, previous_of_some himage]⟩
    rw [ProcessImage.release, himage]
    simp only [call, hpool, ok_bind]
    rfl

/-! ## What the loader finds -/

theorem loadEntry_spec (h : loadEntry f off l = .ok l') :
    l'.dataSegment = l.dataSegment ∧
    l'.dtRel = (if f.word off = dtRel then f.word (off + 4) else l.dtRel) ∧
    l'.dtRelsz = (if f.word off = dtRelsz then f.word (off + 4) else l.dtRelsz) ∧
    ((l.hasRelocs = false → l.dtRelsz = 0) → l'.hasRelocs = false → l'.dtRelsz = 0) ∧
    Took l.toProcessImage (if f.word off = dtMxRamsize then [f.word (off + 4)] else []) l'.toProcessImage := by
  obtain ⟨tag, htag, h⟩ := bind_eq_ok h
  obtain rfl := ElfFile.readWord_eq_ok (file_eq_ok htag)
  split_ifs at h with h1 h2 h3
  · obtain ⟨v, hv, h⟩ := bind_eq_ok h
    obtain rfl := ElfFile.readWord_eq_ok (file_eq_ok hv)
    cases h
    refine ⟨rfl, (if_pos h1).symm, (if_neg (by rw [h1]; decide)).symm, fun _ => nofun, ?_⟩
    rw [if_neg (by rw [h1]; decide)]
    exact .nil _
  · obtain ⟨v, hv, h⟩ := bind_eq_ok h
    obtain rfl := ElfFile.readWord_eq_ok (file_eq_ok hv)
    cases h
    refine ⟨rfl, (if_neg h1).symm, (if_pos h2).symm, fun _ => nofun, ?_⟩
    rw [if_neg (by rw [h2]; decide)]
    exact .nil _
  · obtain ⟨v, hv, h⟩ := bind_eq_ok h
    obtain rfl := ElfFile.readWord_eq_ok (file_eq_ok hv)
    obtain ⟨r, hr, h⟩ := bind_eq_ok h
    cases h
    refine ⟨rfl, (if_neg h1).symm, (if_neg h2).symm, id, ?_⟩
    rw [if_pos h3]
    exact .cons (call_eq_ok hr) (.nil _)
  · cases h
    refine ⟨rfl, (if_neg h1).symm, (if_neg h2).symm, id, ?_⟩
    rw [if_neg h3]
    exact .nil _

/-- What the loader has found after some entries. -/
structure Found (l : ImageLoading) (es : List (ℕ × ℕ)) (l' : ImageLoading) : Prop where
  dtRel : l'.dtRel = ElfFile.lastValue Elf.dtRel l.dtRel es
  dtRelsz : l'.dtRelsz = ElfFile.lastValue Elf.dtRelsz l.dtRelsz es
  hasRelocs : (l.hasRelocs = false → l.dtRelsz = 0) → l'.hasRelocs = false → l'.dtRelsz = 0
  took : Took l.toProcessImage (ElfFile.ramSizes es) l'.toProcessImage

theorem Found.trans {l'' : ImageLoading} {es es' : List (ℕ × ℕ)} (h : Found l es l') (h' : Found l' es' l'') :
    Found l (es ++ es') l'' where
  dtRel := by rw [ElfFile.lastValue_append, ← h.dtRel, h'.dtRel]
  dtRelsz := by rw [ElfFile.lastValue_append, ← h.dtRelsz, h'.dtRelsz]
  hasRelocs := fun h0 => h'.hasRelocs (h.hasRelocs h0)
  took := by
    rw [ElfFile.ramSizes, List.filter_append, List.map_append]
    exact h.took.append h'.took

theorem loadDynamic_spec (h : loadDynamic f n off l = .ok l') :
    Found l (f.entriesFrom n off) l' ∧ l'.dataSegment = l.dataSegment := by
  induction n generalizing off l with
  | zero =>
    cases h
    exact ⟨⟨rfl, rfl, id, .nil _⟩, rfl⟩
  | succ n ih =>
    obtain ⟨l₁, hl₁, h⟩ := bind_eq_ok h
    obtain ⟨hdata, hrel, hrelsz, hrelocs, htook⟩ := loadEntry_spec hl₁
    obtain ⟨hfound, hdata'⟩ := ih h
    refine ⟨?_, hdata'.trans hdata⟩
    have hfirst : Found l [(f.word off, f.word (off + 4))] l₁ := by
      refine ⟨hrel, hrelsz, hrelocs, ?_⟩
      rw [ElfFile.ramSizes, List.filter_singleton]
      split_ifs at htook with hram <;> simpa [hram] using htook
    exact hfirst.trans hfound

theorem loadSegment_spec {ph : Phdr} (h : loadSegment f ph l = .ok l') :
    Found l (f.entriesOf ph) l' ∧ l'.dataSegment = if ph.isData then some ph else l.dataSegment := by
  have hisdata : ph.isData = (ph.isLoad && (ph.pfW && !ph.pfX)) := Bool.and_assoc _ _ _
  rw [loadSegment] at h
  rw [ElfFile.entriesOf, hisdata]
  split_ifs at h with hload hdata hdyn
  · have hnot : ph.isDynamic ≠ true := fun hd => absurd (hload.symm.trans (ElfFile.isLoad_of_dynamic hd)) (by decide)
    cases h
    rw [if_neg hnot, hload, Bool.true_and, if_pos hdata]
    exact ⟨⟨rfl, rfl, id, .nil _⟩, rfl⟩
  · have hnot : ph.isDynamic ≠ true := fun hd => absurd (hload.symm.trans (ElfFile.isLoad_of_dynamic hd)) (by decide)
    cases h
    rw [if_neg hnot, hload, Bool.true_and, if_neg hdata]
    exact ⟨⟨rfl, rfl, id, .nil _⟩, rfl⟩
  · rw [if_pos hdyn, Bool.eq_false_iff.2 hload, Bool.false_and]
    exact loadDynamic_spec h
  · cases h
    rw [if_neg hdyn, Bool.eq_false_iff.2 hload, Bool.false_and]
    exact ⟨⟨rfl, rfl, id, .nil _⟩, rfl⟩

/-- The last data segment. -/
def lastData (d : Option Phdr) (phs : List Phdr) : Option Phdr :=
  phs.foldl (fun d ph => if ph.isData then some ph else d) d

theorem lastData_eq (phs : List Phdr) (d : Option Phdr) (h : phs.filter Phdr.isData = [data]) :
    lastData d phs = some data := by
  have hfold : (phs.filter Phdr.isData).foldl (fun _ ph => some ph) d = lastData d phs := List.foldl_filter
  rw [← hfold, h]
  rfl

theorem loadSegments_spec (h : loadSegments f n off l = .ok l') :
    Found l ((f.phdrsFrom n off).flatMap f.entriesOf) l' ∧ l'.dataSegment = lastData l.dataSegment (f.phdrsFrom n off) := by
  induction n generalizing off l with
  | zero =>
    cases h
    exact ⟨⟨rfl, rfl, id, .nil _⟩, rfl⟩
  | succ n ih =>
    obtain ⟨ph, hph, h⟩ := bind_eq_ok h
    obtain rfl := ElfFile.readPhdr_eq_ok (file_eq_ok hph)
    obtain ⟨l₁, hl₁, h⟩ := bind_eq_ok h
    obtain ⟨hfound, hdata⟩ := ih h
    obtain ⟨hfound₁, hdata₁⟩ := loadSegment_spec hl₁
    rw [ElfFile.phdrsFrom, List.flatMap_cons]
    refine ⟨hfound₁.trans hfound, ?_⟩
    rw [hdata, hdata₁]
    rfl

/-! ## What `load` promises -/

/-- The image at `p` is the data segment of the file, and the words that relocations name are relocated. -/
structure ContentRight (f : ElfFile) (data : Phdr) (p : ℕ) (image : List UInt8) : Prop where
  word : ∀ r ∈ f.relocations,
    Image.word image (r - dataBase) = relocatedWord p f.base (Image.word (f.segmentBytes data) (r - dataBase))
  other : ∀ i < data.memsz, (∀ r ∈ f.relocations, ¬ (r ≤ dataBase + i ∧ dataBase + i < r + 4)) →
    Image.mem image i = Image.mem (f.segmentBytes data) i

/-- The pool holds one more block, or as many as before if there was an image before, and the destructor gives
back the new one. -/
structure PoolRight (s s' : ProcessImage) : Prop where
  count : s'.pool.held.ncard = s.pool.held.ncard + if s.image = none then 1 else 0
  owned : ∃ p, s'.image = some p ∧ p ∈ s'.pool.held ∧
    ∃ t, s'.destroy = .ok t ∧ t.pool.held = s.pool.held \ s.previous

/-- What a call that returns promises. -/
structure LoadRight (f : ElfFile) (data : Phdr) (s s' : ProcessImage) : Prop where
  content : ∃ p, s'.image = some p ∧ ContentRight f data p (s'.bytes p)
  pool : PoolRight s s'

/-! ## A call -/

/-- The parts of a call that returns. -/
theorem load_eq_ok (h : s.load f = .ok s') : ∃ s₁ l data p image, s.release = .ok s₁ ∧
    loadSegments f f.ehdr.phnum f.ehdr.phoff
      { s₁ with dataSegment := none, dtRel := 0, dtRelsz := 0, hasRelocs := false } = .ok l ∧
    l.dataSegment = some data ∧ l.image = some p ∧
    f.fillImage p ⟨l.dataSegment, l.dtRel, l.dtRelsz, l.hasRelocs, none, 0⟩ data (l.bytes p) = .ok image ∧
    s' = ⟨some p, l.size, l.pool, store l.mem p image⟩ := by
  obtain ⟨s₁, hs₁, h⟩ := bind_eq_ok h
  obtain ⟨e, he, h⟩ := bind_eq_ok h
  obtain rfl := ElfFile.readEhdr_eq_ok (file_eq_ok he)
  obtain ⟨l, hl, h⟩ := bind_eq_ok h
  cases hdata : l.dataSegment with
  | none =>
    rw [hdata] at h
    cases h
  | some data =>
    cases himage : l.image with
    | none =>
      rw [hdata, himage] at h
      cases h
    | some p =>
      simp only [hdata, himage] at h
      obtain ⟨image, hfill, h⟩ := bind_eq_ok h
      exact ⟨s₁, l, data, p, image, hs₁, hl, hdata, himage, by rw [hdata]; exact file_eq_ok hfill, (Except.ok.inj h).symm⟩

/-- The image is right, whatever the pool is. -/
theorem load_content (hf : f.Accepted data) (hnodup : f.relocations.Nodup) (h : s.load f = .ok s') :
    ∃ p, s'.image = some p ∧ ContentRight f data p (s'.bytes p) := by
  obtain ⟨s₁, l, data', p, image, -, hl, hdata, himage, hfill, rfl⟩ := load_eq_ok h
  obtain ⟨hfound, hlast⟩ := loadSegments_spec hl
  obtain rfl : data' = data := Option.some.inj (hdata.symm.trans (hlast.trans (lastData_eq _ _ hf.oneData)))
  have hrel : f.relocationsFrom (l.dtRelsz / sizeofRel) l.dtRel = f.relocations := by
    rw [hfound.dtRel, hfound.dtRelsz]
    rfl
  have hrelocs : (if l.hasRelocs then f.relocationsFrom (l.dtRelsz / sizeofRel) l.dtRel else []) = f.relocations := by
    cases hhas : l.hasRelocs with
    | true => rw [if_pos rfl, hrel]
    | false => rw [← hrel, hfound.hasRelocs (fun _ => rfl) hhas]; rfl
  obtain ⟨before, hlen, hfits, hbefore, hafter⟩ := ElfFile.fillImage_spec hf.filesz_le hf.memsz_lt
    (fun r hr => (hf.relocations r (hrel ▸ hr)).1) (hrel ▸ hnodup) hfill
  rw [hrelocs] at hafter
  have hbytes : image.length = l.size := by rw [hafter.length, hlen, bytes, length_load]
  have hloaded : ProcessImage.bytes ⟨some p, l.size, l.pool, store l.mem p image⟩ p = image := load_store hbytes
  refine ⟨p, rfl, ?_⟩
  rw [hloaded]
  constructor
  · intro r hr
    rw [hafter.word r hr]
    congr 1
    obtain ⟨⟨hbase, -⟩, hend⟩ := hf.relocations r hr
    exact Image.word_congr fun i _ hi => hbefore i (by omega)
  · intro i hi hout
    rw [hafter.other i hout, hbefore i hi]

/-- The blocks that a call gives back and takes. -/
theorem load_took (hs : s.Owns) (h : s.load f = .ok s') : ∃ (pool : ProcessPool) (t : ProcessImage), pool.Good ∧
    pool.held = s.pool.held \ s.previous ∧ Took { s with pool := pool } (ElfFile.ramSizes f.dynamic) t ∧
    s'.image = t.image ∧ s'.size = t.size ∧ s'.pool = t.pool := by
  obtain ⟨s₁, l, data, p, image, hrelease, hl, -, himage, -, rfl⟩ := load_eq_ok h
  obtain ⟨pool, hpool, hgood, hheld⟩ := hs.release
  obtain rfl := Except.ok.inj (hrelease.symm.trans hpool)
  exact ⟨pool, l.toProcessImage, hgood, hheld, (loadSegments_spec hl).1.took, himage.symm, rfl, rfl⟩

theorem Owns.previous_subset (hs : s.Owns) : s.previous ⊆ s.pool.held := fun p hp =>
  ProcessPool.mem_held.2 (by rw [hs.block p hp]; nofun)

theorem ncard_previous (s : ProcessImage) : s.previous.ncard = if s.image = none then 0 else 1 := by
  obtain himage | ⟨p, himage⟩ := Option.eq_none_or_eq_some s.image
  · rw [previous_of_none himage, if_pos himage, Set.ncard_empty]
  · rw [previous_of_some himage, if_neg (by rw [himage]; nofun), Set.ncard_singleton]

/-- How many blocks the pool holds after a call. -/
theorem load_ncard (hs : s.Owns) (h : s.load f = .ok s') :
    s'.pool.held.ncard + s.previous.ncard = s.pool.held.ncard + (ElfFile.ramSizes f.dynamic).length := by
  obtain ⟨pool, t, hgood, hheld, htook, -, -, hpool⟩ := load_took hs h
  have hcard := (htook.ncard hgood).2
  have hdiff := Set.ncard_sdiff_add_ncard_of_subset hs.previous_subset hs.good.finite_held
  rw [hpool, hcard]
  change pool.held.ncard + _ + _ = _
  rw [hheld]
  omega

/-- After a call that has taken a block, the image is in a block of the pool. -/
theorem load_owns (hs : s.Owns) (h : s.load f = .ok s') (hram : ElfFile.ramSizes f.dynamic ≠ []) : s'.Owns := by
  obtain ⟨pool, t, hgood, -, htook, himage, hsize, hpool⟩ := load_took hs h
  refine ⟨by rw [hpool]; exact (htook.ncard hgood).1, fun p hp => ?_⟩
  rw [hpool, hsize]
  exact htook.block hgood hram p (himage.symm.trans hp)

/-- With one `DT_MX_RAMSIZE` entry, only the block of the image is new. -/
theorem load_held (hs : s.Owns) (h : s.load f = .ok s') (hone : (ElfFile.ramSizes f.dynamic).length = 1) :
    ∃ p, s'.image = some p ∧ p ∈ s'.pool.held ∧ s'.pool.held \ {p} = s.pool.held \ s.previous := by
  obtain ⟨pool, t, hgood, hheld, htook, himage, -, hpool⟩ := load_took hs h
  obtain ⟨n, hn⟩ := List.length_eq_one_iff.1 hone
  rw [hn] at htook
  cases htook with
  | @cons _ _ p _ _ pool' halloc hnil =>
    cases hnil
    obtain ⟨-, hfree, hblocks⟩ := ProcessPool.allocate_ok hgood halloc
    have hnew := ProcessPool.held_of_update hblocks
    rw [hpool]
    refine ⟨p, himage, ?_, ?_⟩
    · rw [hnew]
      exact Set.mem_insert _ _
    · rw [hnew, ← hheld, Set.insert_sdiff_self_of_notMem]
      exact fun hp => ProcessPool.mem_held.1 hp hfree

/-- The pool is right exactly with one `DT_MX_RAMSIZE` entry. -/
theorem load_pool_iff (hs : s.Owns) (h : s.load f = .ok s') :
    PoolRight s s' ↔ (ElfFile.ramSizes f.dynamic).length = 1 := by
  have hcard := load_ncard hs h
  rw [ncard_previous] at hcard
  constructor
  · rintro ⟨hcount, -⟩
    split_ifs at hcard hcount <;> omega
  · intro hone
    have howns := load_owns hs h (List.ne_nil_of_length_eq_add_one hone)
    obtain ⟨p, himage, hp, hheld⟩ := load_held hs h hone
    obtain ⟨pool, hdestroy, -, hpool⟩ := howns.release
    refine ⟨by split_ifs at hcard ⊢ <;> omega, p, himage, hp, _, hdestroy, ?_⟩
    rw [← hheld, ← previous_of_some himage]
    exact hpool

/-- **When loading a program is exact and leaks nothing**: for a file that was accepted and has a data segment,
the image is right, and the pool is exactly if there is one `DT_MX_RAMSIZE` entry. -/
theorem load_right_iff (hf : f.validateHeader = .ok ()) (hdata : data ∈ f.phdrs) (hisdata : data.isData = true)
    (hnodup : f.relocations.Nodup) (hs : s.Owns) (h : s.load f = .ok s') :
    LoadRight f data s s' ↔ (ElfFile.ramSizes f.dynamic).length = 1 := by
  rw [← load_pool_iff hs h]
  exact ⟨LoadRight.pool, fun hpool => ⟨load_content (ElfFile.accepted hf hdata hisdata) hnodup h, hpool⟩⟩

/-- Code, data and a dynamic segment, with a word that is not in the file and is relocated. -/
def relocatedProgram : ElfFile := ElfFile.ofWords <| ElfFile.headerWords 3 ++
  [1, 0, 0, 0, 4, 4, 5, 4, 1, 0, 0, 0, 4, 8, 6, 4, 2, 148, 0, 0, 48, 48, 6, 4,
    dtMxAbi, dvMxAbiV1, dtMxRamsize, 1024, dtMxStacksize, 256, dtRel, 196, dtRelsz, 8, dtRelent, 8,
    0x40000004, rArmRelative]

/-- A dynamic segment that asks for 1024 bytes twice. -/
def twoRamsizes : ElfFile := ElfFile.ofWords <| ElfFile.headerWords 3 ++
  [1, 0, 0, 0, 4, 4, 5, 4, 1, 0, 0, 0, 4, 4, 6, 4, 2, 148, 0, 0, 32, 32, 6, 4,
    dtMxAbi, dvMxAbiV1, dtMxRamsize, 1024, dtMxRamsize, 1024, dtMxStacksize, 256]

def empty32K : ProcessImage := new (ProcessPool.new ProcessPool.region32K) fun _ => 0xff

theorem empty32K_owns : empty32K.Owns := new_owns (ProcessPool.new_good _) _

theorem load_right_relocatedProgram :
    ∃ s', empty32K.load relocatedProgram = .ok s' ∧ LoadRight relocatedProgram (relocatedProgram.phdr 84) empty32K s' := by
  have hok : (empty32K.load relocatedProgram).isOk = true := by decide +kernel
  have hphdrs : (relocatedProgram.phdr 84) ∈ relocatedProgram.phdrs := by
    rw [ElfFile.phdrs, show relocatedProgram.ehdr.phnum = 3 by decide +kernel]
    exact List.mem_cons_of_mem _ List.mem_cons_self
  cases hload : empty32K.load relocatedProgram with
  | error e => rw [hload] at hok; cases hok
  | ok s' =>
    exact ⟨s', rfl, (load_right_iff (by decide +kernel) hphdrs (by decide +kernel) (by decide +kernel) empty32K_owns hload).2
      (by decide +kernel)⟩

/-- The first of the two blocks is never given back. -/
theorem not_right_twoRamsizes : ¬ ∀ (f : ElfFile) (data : Phdr) (s s' : ProcessImage), f.validateHeader = .ok () →
    data ∈ f.phdrs → data.isData = true → f.relocations.Nodup → s.Owns → s.load f = .ok s' → LoadRight f data s s' := by
  intro h
  have hok : (empty32K.load twoRamsizes).isOk = true := by decide +kernel
  have hphdrs : (twoRamsizes.phdr 84) ∈ twoRamsizes.phdrs := by
    rw [ElfFile.phdrs, show twoRamsizes.ehdr.phnum = 3 by decide +kernel]
    exact List.mem_cons_of_mem _ List.mem_cons_self
  cases hload : empty32K.load twoRamsizes with
  | error e => rw [hload] at hok; cases hok
  | ok s' =>
    have hright := h twoRamsizes _ empty32K s' (by decide +kernel) hphdrs (by decide +kernel) (by decide +kernel)
      empty32K_owns hload
    exact absurd ((load_pool_iff empty32K_owns hload).1 hright.pool) (by decide +kernel)

end ProcessImage

end Miosix
