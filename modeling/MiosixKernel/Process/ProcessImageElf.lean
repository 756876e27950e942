import MiosixKernel.Process.ProcessImageLoad

/-!
# The image of a process: the two loaders

The loader that recognition is about has a way to allocate blocks, and no memory. Here it is the one that takes blocks of
the process pool, with the blocks that the pool hands out.

* `handsOut`: an allocator that hands out blocks of the memory, one after the other;
* `Follows`: a part of one loader ends like a part of the other;
* **`load_elf`**: so does the whole call, for a new image;
* **`load_safe`**: so a file that is fully recognized is loaded without a fault.
-/

namespace Miosix

open Lib Elf

/-- The blocks at these addresses, one for each call. -/
def handsOut (mem : ℕ → UInt8) (ps : List ℕ) : Allocate := fun k n => ps[k]?.map fun p => Lib.load mem p n

/-- What the other loader has found, after so many calls of the allocator. -/
def ImageLoading.found (l : ImageLoading) (calls : ℕ) : Loading :=
  ⟨l.dataSegment, l.dtRel, l.dtRelsz, l.hasRelocs, l.image.map l.bytes, calls⟩

namespace ProcessImage

variable {α : Type} {f : ElfFile} {off n : ℕ} {mem : ℕ → UInt8}

/-- The other loader finds the same, or ends with the same exception or fault of the program. -/
def Ends (mem : ℕ → UInt8) (calls : ℕ) : Except LoadError ImageLoading → Except ElfError Loading → Prop
  | .ok l, y => l.mem = mem ∧ y = .ok (l.found calls)
  | .error (.program e), y => y = .error e
  | .error (.pool _), _ => True

/-- So it is when the blocks that are taken here are handed out there. -/
def Follows (mem : ℕ → UInt8) (x : Except LoadError ImageLoading) (y : Allocate → ℕ → Except ElfError Loading) :
    Prop :=
  ∃ ps' : List ℕ, ∀ ps qs, ps ++ ps' <+: qs → Ends mem (ps.length + ps'.length) x (y (handsOut mem qs) ps.length)

theorem Follows.pure {l : ImageLoading} (h : l.mem = mem) : Follows mem (.ok l) fun _ k => .ok (l.found k) :=
  ⟨[], fun _ _ _ => ⟨h, rfl⟩⟩

/-- One part after the other. -/
theorem Follows.bind {x : Except LoadError ImageLoading} {y : Allocate → ℕ → Except ElfError Loading}
    {g : ImageLoading → Except LoadError ImageLoading} {g' : Allocate → Loading → Except ElfError Loading}
    (hx : Follows mem x y) (hg : ∀ l, l.mem = mem → Follows mem (g l) fun a k => g' a (l.found k)) :
    Follows mem (x >>= g) fun a k => y a k >>= g' a := by
  obtain ⟨ps₁, h₁⟩ := hx
  rcases x with (e | e) | l
  · refine ⟨ps₁, fun ps qs hle => ?_⟩
    have hy : y (handsOut mem qs) ps.length = .error e := h₁ ps qs hle
    dsimp only
    rw [hy]
    exact rfl
  · exact ⟨[], fun _ _ _ => trivial⟩
  · have hl : l.mem = mem := (h₁ [] ([] ++ ps₁) List.prefix_rfl).1
    obtain ⟨ps₂, h₂⟩ := hg l hl
    refine ⟨ps₁ ++ ps₂, fun ps qs hle => ?_⟩
    rw [← List.append_assoc] at hle
    obtain ⟨-, hy⟩ := h₁ ps qs ((List.prefix_append _ _).trans hle)
    dsimp only
    rw [hy, List.length_append, ← Nat.add_assoc, ← List.length_append]
    exact h₂ (ps ++ ps₁) qs hle

/-- The file is read. -/
theorem Follows.file {x : Except ElfError α} {g : α → Except LoadError ImageLoading}
    {g' : α → Allocate → ℕ → Except ElfError Loading} (hg : ∀ v, x = .ok v → Follows mem (g v) (g' v)) :
    Follows mem (ProcessImage.file x >>= g) fun a k => x >>= fun v => g' v a k := by
  cases x with
  | error e => exact ⟨[], fun _ _ _ => rfl⟩
  | ok v => exact hg v rfl

/-! ## The parts of a call -/

theorem call_follows {val : ℕ} {l : ImageLoading} (h : l.mem = mem) : Follows mem
    (call (ProcessPool.allocate val) l.pool >>= fun r => .ok { l with size := val, image := some r.1, pool := r.2 })
    fun a k => match a k val with
      | some image => .ok { l.found k with image := some image, calls := k + 1 }
      | none => .error .badAlloc := by
  unfold call
  cases hrun : ProcessPool.allocate val l.pool with
  | error e pool => exact ⟨[], fun _ _ _ => trivial⟩
  | ok p pool =>
    refine ⟨[p], fun ps qs hle => ⟨h, ?_⟩⟩
    have hp : qs[ps.length]? = some p := by
      obtain ⟨rest, rfl⟩ := hle
      simp
    have hblock : handsOut mem qs ps.length val = some (Lib.load l.mem p val) := by rw [handsOut, hp, h]; rfl
    simp only [hblock]
    rfl

theorem loadEntry_follows {l : ImageLoading} (h : l.mem = mem) :
    Follows mem (loadEntry f off l) fun a k => f.loadEntry a off (l.found k) := by
  unfold loadEntry ElfFile.loadEntry
  refine .file fun tag _ => ?_
  split_ifs
  · exact .file fun ptr _ => .pure h
  · exact .file fun val _ => .pure h
  · exact .file fun val _ => call_follows h
  · exact .pure h

theorem loadDynamic_follows {l : ImageLoading} (h : l.mem = mem) :
    Follows mem (loadDynamic f n off l) fun a k => f.loadDynamic a n off (l.found k) := by
  induction n generalizing off l with
  | zero => exact .pure h
  | succ n ih => exact (loadEntry_follows h).bind fun l hl => ih hl

theorem loadSegment_follows {ph : Phdr} {l : ImageLoading} (h : l.mem = mem) :
    Follows mem (loadSegment f ph l) fun a k => f.loadSegment a ph (l.found k) := by
  unfold loadSegment ElfFile.loadSegment
  split_ifs
  · exact .pure h
  · exact .pure h
  · exact loadDynamic_follows h
  · exact .pure h

theorem loadSegments_follows {l : ImageLoading} (h : l.mem = mem) :
    Follows mem (loadSegments f n off l) fun a k => f.loadSegments a n off (l.found k) := by
  induction n generalizing off l with
  | zero => exact .pure h
  | succ n ih => exact .file fun ph _ => (loadSegment_follows h).bind fun l hl => ih hl

/-! ## A call -/

theorem length_relocateEntry {ramBase : ℕ} {image image' : List UInt8}
    (h : f.relocateEntry ramBase off image = .ok image') : image'.length = image.length := by
  obtain ⟨offset, -, h⟩ := bind_eq_ok h
  obtain ⟨info, -, h⟩ := bind_eq_ok h
  split_ifs at h
  · obtain ⟨w, -, h⟩ := bind_eq_ok h
    exact Image.length_write h
  · cases h
    rfl

theorem length_relocate {ramBase : ℕ} {image image' : List UInt8} (h : f.relocate ramBase n off image = .ok image') :
    image'.length = image.length := by
  induction n generalizing off image with
  | zero =>
    cases h
    rfl
  | succ n ih =>
    obtain ⟨image₁, hentry, h⟩ := bind_eq_ok h
    rw [ih h, length_relocateEntry hentry]

theorem length_fillImage {l : Loading} {data : Phdr} {ramBase : ℕ} {image image' : List UInt8}
    (h : f.fillImage ramBase l data image = .ok image') : image'.length = image.length := by
  obtain ⟨bytes, -, h⟩ := bind_eq_ok h
  obtain ⟨image₁, hcopy, h⟩ := bind_eq_ok h
  obtain ⟨image₂, hzero, h⟩ := bind_eq_ok h
  rw [← Image.length_write hcopy, ← Image.length_write hzero]
  split_ifs at h
  · exact length_relocate h
  · cases h
    rfl

/-- What both loaders do with what they have found. -/
theorem fillImage_found (f : ElfFile) (l : ImageLoading) (calls p : ℕ) (data : Phdr) (image : List UInt8) :
    f.fillImage p (l.found calls) data image =
      f.fillImage p ⟨l.dataSegment, l.dtRel, l.dtRelsz, l.hasRelocs, none, 0⟩ data image := rfl

/-- **The two loaders.** When `load` makes an image where there was none, the loader that recognition is about makes the same
from the blocks that the pool handed out. When it ends with an exception or a fault of the program, so does the other. -/
theorem load_elf {s : ProcessImage} (hs : s.image = none) : ∃ ps,
    (∀ s', s.load f = .ok s' → ∃ p, s'.image = some p ∧ f.load (handsOut s.mem ps) p = .ok (s'.bytes p)) ∧
    ∀ e, s.load f = .error (.program e) → ∃ p, f.load (handsOut s.mem ps) p = .error e := by
  have hrelease : s.release = .ok s := by
    unfold release
    rw [hs]
    rfl
  unfold load ElfFile.load
  rw [hrelease]
  simp only [ok_bind]
  cases hehdr : f.readEhdr with
  | error e =>
    refine ⟨[], fun _ h => (by cases h), fun e' h => ⟨0, ?_⟩⟩
    cases h
    rfl
  | ok ehdr =>
    obtain ⟨ps, hps⟩ := @loadSegments_follows f ehdr.phoff ehdr.phnum s.mem
      { s with dataSegment := none, dtRel := 0, dtRelsz := 0, hasRelocs := false } rfl
    have hends := hps [] ps List.prefix_rfl
    have hstart : (ImageLoading.mk s none 0 0 false).found 0 = ⟨none, 0, 0, false, none, 0⟩ := by
      rw [ImageLoading.found, hs]
      rfl
    have hfile : file (Except.ok ehdr) = .ok ehdr := rfl
    simp only [hfile, ok_bind]
    dsimp only at hends
    rw [List.length_nil, hstart] at hends
    refine ⟨ps, ?_⟩
    generalize loadSegments f ehdr.phnum ehdr.phoff (ImageLoading.mk s none 0 0 false) = x at hends ⊢
    rcases x with (e | e) | l
    · have hy : f.loadSegments (handsOut s.mem ps) ehdr.phnum ehdr.phoff ⟨none, 0, 0, false, none, 0⟩ = .error e :=
        hends
      rw [hy]
      refine ⟨fun _ h => (by cases h), fun e' h => ⟨0, ?_⟩⟩
      cases h
      rfl
    · exact ⟨fun _ h => (by cases h), fun _ h => (by cases h)⟩
    · obtain ⟨-, hy⟩ := hends
      rw [hy]
      simp only [ok_bind, ImageLoading.found]
      rcases hdata : l.dataSegment with _ | data
      · refine ⟨fun _ h => (by cases h), fun e' h => ⟨0, ?_⟩⟩
        cases h
        rfl
      rcases himage : l.image with _ | p
      · refine ⟨fun _ h => (by cases h), fun e' h => ⟨0, ?_⟩⟩
        cases h
        rfl
      have hfound := fillImage_found f l (0 + ps.length) p data (l.bytes p)
      rw [ImageLoading.found, hdata, himage, Option.map_some] at hfound
      dsimp only [Option.map_some]
      constructor
      · intro s' h
        obtain ⟨image, hfill, h⟩ := bind_eq_ok h
        obtain rfl := Except.ok.inj h
        have hlen : image.length = l.size := (length_fillImage (file_eq_ok hfill)).trans length_load
        refine ⟨p, rfl, ?_⟩
        rw [hfound, file_eq_ok hfill]
        exact congrArg _ (load_store hlen).symm
      · intro e h
        refine ⟨p, hfound.trans ?_⟩
        cases hfill : f.fillImage p ⟨some data, l.dtRel, l.dtRelsz, l.hasRelocs, none, 0⟩ data (l.bytes p) with
        | ok image =>
          rw [hfill] at h
          cases h
        | error e' =>
          rw [hfill] at h
          cases h
          rfl

theorem handsOut_allocates (mem : ℕ → UInt8) (ps : List ℕ) : ElfFile.Allocates (handsOut mem ps) := fun k n image h => by
  obtain ⟨p, -, rfl⟩ := Option.map_eq_some_iff.1 h
  exact length_load

/-- **A file that is fully recognized** and accepted is loaded from the pool without a fault: the file and the image are not
left, and both the data segment and the image are found. -/
theorem load_safe {s : ProcessImage} (hs : s.image = none) (hf : f.FullyRecognized) (hok : f.validateHeader = .ok ())
    {e : ElfError} (h : s.load f = .error (.program e)) : ¬ e.IsFault := by
  intro hfault
  obtain ⟨ps, -, herror⟩ := load_elf (f := f) hs
  obtain ⟨p, hload⟩ := herror e h
  exact hf.2 hok _ (handsOut_allocates s.mem ps) p ⟨e, hload, hfault⟩

end ProcessImage

end Miosix
