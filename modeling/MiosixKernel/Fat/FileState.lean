import MiosixKernel.Fat.Clusters

/-!
# What an open file keeps

The clusters of the volume are those of the file, those that were lost to a failing transfer, and those of the other
files and the directories.

* `OpenFile.Safe`: the buffer of the file and the window of the volume do not get in each other's way;
* `OpenFile.Frame`: nothing of the other files is changed;
* `Safe.move`, `Safe.withDrv`, `Safe.fil`: what is done to the FAT, to the clusters of the file, to its fields;
* `OpenFile.Meets`: the postcondition of a part of the code, with `Meets.bind`.
-/

namespace Miosix

open Lib Volume

/-- A sector before the clusters, or in one of these chains. -/
def Volume.Apart (v : Volume) (others : List (List ℕ)) (s : ℕ) : Prop :=
  s < v.database ∨ ∃ c ∈ others.flatten, v.InClust c s

/-- The place of a directory entry. -/
structure Volume.EntryAt (v : Volume) (others : List (List ℕ)) (s p : ℕ) : Prop where
  plain : v.Plain s
  fat : ¬ v.InFat s
  apart : v.Apart others s
  lt : s < 2 ^ 32
  room : p + 32 ≤ 512

namespace FATFS

/-- What bytes on the drive do not change, which are neither before the clusters nor in the window. -/
structure Beside (fs fs' : FATFS) : Prop where
  valid : fs'.Valid
  fat : fs'.fat = fs.fat
  mirrored : fs.drv.faults = [] → fs.Mirrored → fs'.Mirrored
  seen : ∀ x, fs'.drv.bytes x = fs.drv.bytes x → fs'.seen x = fs.seen x

theorem withDrv_beside {fs : FATFS} {drv : Drive} (h : fs.Valid) (hlater : fs.drv.Later drv)
    (hlt : ∀ x, x / 512 < fs.database → drv.bytes x = fs.drv.bytes x)
    (hwin : ∀ x, x / 512 = fs.winsect → drv.bytes x = fs.drv.bytes x) : fs.Beside (fs.withDrv drv) := by
  have hp := h.placed
  have hfit := hp.fat
  have hseen : ∀ x, drv.bytes x = fs.drv.bytes x → (fs.withDrv drv).seen x = fs.seen x := by
    intro x hx
    by_cases hw : x / 512 = fs.winsect
    · rw [seen_of_eq hw]
      exact seen_of_eq hw
    · rw [seen_of_ne hw, ← hx]
      exact seen_of_ne hw
  refine ⟨⟨⟨hp, h.lt, h.copy, fun hw hpl i hi => (h.clean hw hpl i hi).trans (hwin _ ?_).symm⟩, hlater.tidy h.tidy⟩, ?_,
    fun _ hm => ?_, hseen⟩
  · omega
  · funext c
    change (if 2 ≤ c ∧ c < fs.nFatent then fs.entry (fs.withDrv drv).seen c else 0) = fs.fat c
    unfold fat
    split_ifs with hc
    · refine Volume.entry_congr hp hc.2 fun x hge hx => hseen x (hlt _ ?_)
      have hle : fs.fsize ≤ fs.nFats * fs.fsize := Nat.le_mul_of_pos_left _ hp.fats
      omega
    · rfl
  · intro k hk x hge hx hw
    have hkn : k * fs.fsize + fs.fsize ≤ fs.nFats * fs.fsize := by
      rw [← Nat.succ_mul]
      exact Nat.mul_le_mul_right _ hk
    have hsect : (x + k * (512 * fs.fsize)) / 512 = x / 512 + k * fs.fsize := by
      rw [Nat.mul_left_comm, Nat.add_mul_div_left _ _ (by decide)]
    have hx' : x / 512 < fs.fatbase + fs.fsize := hx
    exact (hlt _ (lt_of_eq_of_lt hsect (by omega))).trans ((hm k hk x hge hx hw).trans (hlt _ (by omega)).symm)

end FATFS

namespace OpenFile

/-- A sector of the file, or one that was lost. -/
def Own (f : OpenFile) (l : List ℕ) (lost : List (List ℕ)) (s : ℕ) : Prop := ∃ c ∈ l ++ lost.flatten, f.fs.InClust c s

structure Safe (f : OpenFile) (l : List ℕ) (lost others : List (List ℕ)) : Prop where
  alloc : f.fs.Allocated (l :: (lost ++ others))
  sized : f.fs.Sized
  whole : f.fs.Whole
  window : f.fs.Apart others f.fs.winsect
  entry : f.fs.EntryAt others f.fp.dirSect f.fp.dirPtr
  dsect : f.fp.dsect = 0 ∧ f.fp.dirty = false ∨ f.Own l lost f.fp.dsect

/-- A byte of the directory entry. -/
def InEntry (f : OpenFile) (a : ℕ) : Prop :=
  512 * f.fp.dirSect + f.fp.dirPtr ≤ a ∧ a < 512 * f.fp.dirSect + f.fp.dirPtr + 32

/-- Nothing outside the FAT, the clusters of the file and its directory entry is changed. -/
structure Frame (f f' : OpenFile) (others : List (List ℕ)) : Prop where
  vol : f'.fs.toVolume = f.fs.toVolume
  mode : f'.fp.canRead = f.fp.canRead ∧ f'.fp.canWrite = f.fp.canWrite
  entry : f'.fp.dirSect = f.fp.dirSect ∧ f'.fp.dirPtr = f.fp.dirPtr
  faults : f.fs.drv.faults = [] → f'.fs.drv.faults = []
  mirrored : f.fs.drv.faults = [] → f.fs.Mirrored → f'.fs.Mirrored
  seen : ∀ a, f.fs.Plain (a / 512) → f.fs.Apart others (a / 512) → ¬ f.fs.InFat (a / 512) → ¬ f.InEntry a →
    f'.fs.seen a = f.fs.seen a

variable {f f' f'' : OpenFile} {fs' : FATFS} {fp : FIL} {l l' : List ℕ} {lost lost' others : List (List ℕ)}
  {a c s : ℕ}

theorem Frame.refl (f : OpenFile) (others : List (List ℕ)) : f.Frame f others :=
  ⟨rfl, ⟨rfl, rfl⟩, ⟨rfl, rfl⟩, id, fun _ => id, fun _ _ _ _ _ => rfl⟩

theorem Frame.trans (h : f.Frame f' others) (h' : f'.Frame f'' others) : f.Frame f'' others where
  vol := h'.vol.trans h.vol
  mode := ⟨h'.mode.1.trans h.mode.1, h'.mode.2.trans h.mode.2⟩
  entry := ⟨h'.entry.1.trans h.entry.1, h'.entry.2.trans h.entry.2⟩
  faults := fun hf => h'.faults (h.faults hf)
  mirrored := fun hf hm => h'.mirrored (h.faults hf) (h.mirrored hf hm)
  seen := fun a hp ha hn he => by
    have hseen := h'.seen a
    rw [h.vol] at hseen
    refine (hseen hp ha hn ?_).trans (h.seen a hp ha hn he)
    unfold InEntry at he ⊢
    rwa [h.entry.1, h.entry.2]

theorem Frame.fil (hm : fp.canRead = f.fp.canRead ∧ fp.canWrite = f.fp.canWrite)
    (he : fp.dirSect = f.fp.dirSect ∧ fp.dirPtr = f.fp.dirPtr) : f.Frame ⟨f.fs, fp⟩ others :=
  ⟨rfl, hm, he, id, fun _ => id, fun _ _ _ _ _ => rfl⟩

namespace Safe

theorem fil (h : f.Safe l lost others) (he : fp.dirSect = f.fp.dirSect ∧ fp.dirPtr = f.fp.dirPtr)
    (hd : fp.dsect = 0 ∧ fp.dirty = false ∨ f.Own l lost fp.dsect) : (⟨f.fs, fp⟩ : OpenFile).Safe l lost others :=
  ⟨h.alloc, h.sized, h.whole, h.window, by dsimp only; rw [he.1, he.2]; exact h.entry, hd⟩

theorem nodup (h : f.Safe l lost others) : (l ++ lost.flatten ++ others.flatten).Nodup := by
  have := h.alloc.chains.nodup
  rwa [List.flatten_cons, List.flatten_append, ← List.append_assoc] at this

theorem mem_range (h : f.Safe l lost others) (hc : c ∈ l ++ lost.flatten ++ others.flatten) :
    2 ≤ c ∧ c < f.fs.nFatent := by
  refine h.alloc.mem_range ?_
  rwa [List.flatten_cons, List.flatten_append, ← List.append_assoc]

theorem mem_l (h : f.Safe l lost others) (hc : c ∈ l) : 2 ≤ c ∧ c < f.fs.nFatent :=
  h.mem_range (List.mem_append_left _ (List.mem_append_left _ hc))

theorem nodup_l (h : f.Safe l lost others) : l.Nodup := (List.nodup_append.1 (List.nodup_append.1 h.nodup).1).1

/-- The sectors of the file are not those of the others. -/
theorem not_apart (h : f.Safe l lost others) (hs : f.Own l lost s) : ¬ f.fs.Apart others s := by
  obtain ⟨c, hc, hin⟩ := hs
  rintro (hlt | ⟨c', hc', hin'⟩)
  · have := hin.database_le
    omega
  · obtain rfl := hin.unique hin' (h.mem_range (List.mem_append_left _ hc)).1
      (h.mem_range (List.mem_append_right _ hc')).1
    exact (List.nodup_append.1 h.nodup).2.2 c hc c hc' rfl

theorem database_le (hs : f.Own l lost s) : f.fs.database ≤ s := by
  obtain ⟨c, -, hin⟩ := hs
  exact hin.database_le

theorem own_lt (h : f.Safe l lost others) (hs : f.Own l lost s) : s < 2 ^ 32 := by
  obtain ⟨c, hc, hin⟩ := hs
  obtain ⟨hge, hlt⟩ := h.mem_range (List.mem_append_left _ hc)
  exact lt_of_lt_of_le hin.2 (h.sized.sector_add_le hge hlt)

theorem ne_window (h : f.Safe l lost others) (hs : f.Own l lost s) : s ≠ f.fs.winsect := by
  rintro rfl
  exact h.not_apart hs h.window

/-- What is seen of the file is on the drive, or in its buffer. -/
theorem seen_own (h : f.Safe l lost others) (hs : f.Own l lost (a / 512)) : f.fs.seen a = f.fs.drv.bytes a :=
  FATFS.seen_of_ne (h.ne_window hs)

/-- The window is not moved to the file. -/
theorem near_window (h : f.Safe l lost others) (hnear : f.fs.Near fs') : f.fs.Apart others fs'.winsect := by
  have hdb := h.sized.database_pos
  obtain hw | hw := hnear.window
  · rw [hw]
    exact h.window
  · have := hw.2
    exact .inl (by omega)

/-- A step on the FAT. -/
theorem move (h : f.Safe l lost others) (hkeep : f.fs.Keeps fs') (hwin : f.fs.Apart others fs'.winsect)
    (halloc : fs'.Allocated (l' :: (lost' ++ others))) (hsub : ∀ c ∈ l ++ lost.flatten, c ∈ l' ++ lost'.flatten) :
    (⟨fs', f.fp⟩ : OpenFile).Safe l' lost' others ∧ f.Frame ⟨fs', f.fp⟩ others ∧
      ∀ a, f.Own l lost (a / 512) → fs'.drv.bytes a = f.fs.drv.bytes a := by
  have hvol := hkeep.vol
  have hdb := h.sized.database_pos
  have hown : ∀ s, f.Own l lost s → (⟨fs', f.fp⟩ : OpenFile).Own l' lost' s := by
    rintro s ⟨c, hc, hin⟩
    exact ⟨c, hsub c hc, by dsimp only; rwa [hvol]⟩
  have hsafe : (⟨fs', f.fp⟩ : OpenFile).Safe l' lost' others := by
    refine ⟨halloc, ?_, h.whole.of_keeps hkeep, ?_, ?_, h.dsect.imp_right (hown _)⟩
    · dsimp only
      rw [hvol]
      exact h.sized
    · dsimp only
      rw [hvol]
      exact hwin
    · dsimp only
      rw [hvol]
      exact h.entry
  refine ⟨hsafe, ⟨hvol, ⟨rfl, rfl⟩, ⟨rfl, rfl⟩, hkeep.faults, hkeep.mirrored, fun a hp _ hn _ => hkeep.seen a hp ?_⟩,
    fun a ha => ?_⟩
  · unfold InFat at hn
    omega
  · have hge := database_le ha
    have hseen := hkeep.seen a (h.sized.placed.plain_of_le hge).1 (by omega)
    rwa [h.seen_own ha, hsafe.seen_own (hown _ ha)] at hseen

/-- Bytes of the file are changed on the drive, or none. -/
theorem withDrv (h : f.Safe l lost others) {drv : Drive} (hlater : f.fs.drv.Later drv)
    (hout : ∀ x, ¬ f.Own l lost (x / 512) → drv.bytes x = f.fs.drv.bytes x) :
    (⟨f.fs.withDrv drv, f.fp⟩ : OpenFile).Safe l lost others ∧ f.Frame ⟨f.fs.withDrv drv, f.fp⟩ others := by
  have hvalid := h.alloc.valid
  have hdb := h.sized.database_pos
  have hlt : ∀ x, x / 512 < f.fs.database → drv.bytes x = f.fs.drv.bytes x := fun x hx => hout x fun ho => by
    have := database_le ho
    omega
  have hkeep := FATFS.withDrv_beside hvalid hlater hlt fun x hx => hout x fun ho => h.ne_window ho hx
  have hlinks : (f.fs.withDrv drv).links = f.fs.links := FATFS.links_congr rfl hkeep.fat
  refine ⟨⟨⟨hkeep.valid, hlinks ▸ h.alloc.chains⟩, h.sized, h.whole.imp_right hlater.nil, h.window, h.entry, h.dsect⟩,
    rfl, ⟨rfl, rfl⟩, ⟨rfl, rfl⟩, hlater.nil, hkeep.mirrored, fun x _ hx _ _ => hkeep.seen x (hout x fun ho => ?_)⟩
  exact h.not_apart ho hx

/-- A transfer that moves no byte of the drive. -/
theorem next (h : f.Safe l lost others) : (⟨f.fs.withDrv f.fs.drv.next, f.fp⟩ : OpenFile).Safe l lost others ∧
    f.Frame ⟨f.fs.withDrv f.fs.drv.next, f.fp⟩ others :=
  h.withDrv f.fs.drv.later_next fun _ _ => rfl

end Safe

/-! ## What the file holds -/

/-- The bytes of the drive, as seen through the buffer. -/
def through (f : OpenFile) : ℕ → UInt8 := overlay f.fs.drv.bytes (512 * f.fp.dsect) 512 f.fp.buf

/-- The bytes of the drive, with those that are still to be written back. -/
def mem (f : OpenFile) : ℕ → UInt8 := if f.fp.dirty then f.through else f.fs.drv.bytes

/-- The first `n` bytes of the file. -/
structure Exact (f : OpenFile) (l : List ℕ) (n : ℕ) (v : ℕ → UInt8) : Prop where
  room : n ≤ f.fs.bcs * l.length
  bytes : ∀ o < n, f.mem (f.fs.addr l o) = v o
  clean : f.fp.dirty = false → f.fp.dsect ≠ 0 → ∀ i < 512, f.fp.buf i = f.fs.drv.bytes (512 * f.fp.dsect + i)

/-- The fields that follow the file pointer. -/
structure Located (f : OpenFile) (l : List ℕ) : Prop where
  first : f.fp.sclust = l.headD 0
  clust : 0 < f.fp.fptr → l[(f.fp.fptr - 1) / f.fs.bcs]? = some f.fp.clust
  sect : f.fp.fptr % 512 ≠ 0 → f.fp.dsect = f.fs.sector f.fp.clust + f.fp.fptr % f.fs.bcs / 512

variable {n o : ℕ} {v : ℕ → UInt8}

theorem Safe.dsect_ne_zero (h : f.Safe l lost others) (hd : f.Own l lost f.fp.dsect) : f.fp.dsect ≠ 0 := by
  have := Safe.database_le hd
  have := h.sized.database_pos
  omega

/-- A buffer that is not to be written back holds what is on the drive. -/
theorem Exact.through_eq (h : f.Exact l n v) (hd : f.fp.dsect ≠ 0) : f.through = f.mem := by
  unfold mem
  cases hdirty : f.fp.dirty
  · exact overlay_window (h.clean hdirty hd)
  · rfl

theorem own_addr (h : f.Safe l lost others) (ho : o < f.fs.bcs * l.length) : f.Own l lost (f.fs.addr l o / 512) := by
  have hget := List.getElem?_eq_getElem (div_lt ho)
  exact ⟨_, List.mem_append_left _ (List.getElem_mem (div_lt ho)), inClust_addr h.sized hget⟩

theorem mem_congr {drv : ℕ → UInt8} (hd : drv a = f.fs.drv.bytes a) :
    (if f.fp.dirty then overlay drv (512 * f.fp.dsect) 512 f.fp.buf else drv) a = f.mem a := by
  unfold mem through overlay
  split_ifs
  · exact if_congr Iff.rfl rfl hd
  · exact hd

/-- A step on the FAT does not change the file, which may get longer. -/
theorem Exact.move (h : f.Exact l n v) (hs : f.Safe l lost others) (hvol : fs'.toVolume = f.fs.toVolume)
    (hbytes : ∀ a, f.Own l lost (a / 512) → fs'.drv.bytes a = f.fs.drv.bytes a) (hl : l <+: l') :
    (⟨fs', f.fp⟩ : OpenFile).Exact l' n v := by
  refine ⟨?_, fun o ho => ?_, fun hdirty hd i hi => ?_⟩
  · dsimp only
    rw [hvol]
    exact h.room.trans (Nat.mul_le_mul_left _ hl.length_le)
  · have hlen : o < f.fs.bcs * l.length := lt_of_lt_of_le ho h.room
    have hget : l'[o / f.fs.bcs]? = l[o / f.fs.bcs]? := by
      obtain ⟨t, rfl⟩ := hl
      exact List.getElem?_append_left (div_lt hlen)
    dsimp only
    rw [hvol, addr_congr hget, ← h.bytes o ho]
    exact mem_congr (hbytes _ (own_addr hs hlen))
  · have hown := hs.dsect.resolve_left fun h0 => hd h0.1
    rw [h.clean hdirty hd i hi]
    refine (hbytes _ ?_).symm
    rwa [show (512 * f.fp.dsect + i) / 512 = f.fp.dsect by omega]

/-! ## Postconditions -/

/-- The file pointer and its fields. -/
structure Ready (f : OpenFile) (l : List ℕ) : Prop where
  located : f.Located l
  le : f.fp.fptr ≤ f.fp.fsize
  lt : f.fp.fsize < 2 ^ 32

/-- After a part of the code: the other files are as before. It fails only if a transfer does (`F`), and then the file
is not used any more, or is as it was. -/
def Post {α : Type} (F : Prop) (f : OpenFile) (lost others : List (List ℕ))
    (Q : α → OpenFile → List ℕ → List (List ℕ) → Prop) : Except FRESULT α → OpenFile → Prop
  | .ok a, f' => ∃ l lost', f'.Safe l lost' others ∧ f.Frame f' others ∧
      (f.fs.drv.faults = [] → lost'.flatten = lost.flatten) ∧ Q a f' l lost'
  | .error _, f' => F ∧ ∃ l lost', f'.Safe l lost' others ∧ f.Frame f' others ∧ (f'.fp.err = .FR_OK → f'.Ready l)

def Meets {α : Type} (F : Prop) (m : FileCode α) (f : OpenFile) (lost others : List (List ℕ))
    (Q : α → OpenFile → List ℕ → List (List ℕ) → Prop) : Prop := m.Returns f (f.Post F lost others Q)

section Meets

variable {α β : Type} {F : Prop} {m : FileCode α} {k : α → FileCode β}
  {Q Q' : α → OpenFile → List ℕ → List (List ℕ) → Prop} {R : β → OpenFile → List ℕ → List (List ℕ) → Prop}

theorem Frame.fail (h : f.Frame f' others) (hF : f.fs.drv.faults ≠ [] → F) : f'.fs.drv.faults ≠ [] → F :=
  fun hf => hF fun hnil => hf (h.faults hnil)

theorem Post.of_frame (hframe : f.Frame f' others) (hlost : f.fs.drv.faults = [] → lost'.flatten = lost.flatten)
    {r : Except FRESULT α} (h : f'.Post F lost' others Q r f'') : f.Post F lost others Q r f'' := by
  cases r with
  | ok a =>
    obtain ⟨l, lost'', hs, hf, hkept, hq⟩ := h
    exact ⟨l, lost'', hs, hframe.trans hf, fun hnil => (hkept (hframe.faults hnil)).trans (hlost hnil), hq⟩
  | error e =>
    obtain ⟨hF, l, lost'', hs, hf, hl⟩ := h
    exact ⟨hF, l, lost'', hs, hframe.trans hf, hl⟩

theorem Meets.bind (h : Meets F m f lost others Q) (hk : ∀ a f' l lost, f'.Safe l lost others → f.Frame f' others →
    Q a f' l lost → Meets F (k a) f' lost others R) : Meets F (m >>= k) f lost others R := by
  refine Code.Returns.bind h (fun a f' hp => ?_) fun e f' hp => hp
  obtain ⟨l, lost', hs, hframe, hkept, hq⟩ := hp
  exact (hk a f' l lost' hs hframe hq).mono fun r f'' => Post.of_frame hframe hkept

theorem Meets.mono (h : Meets F m f lost others Q) (hq : ∀ a f' l lost, f'.Safe l lost others → f.Frame f' others →
    Q a f' l lost → Q' a f' l lost) : Meets F m f lost others Q' := by
  refine Code.Returns.mono h fun r f' hp => ?_
  cases r with
  | ok a =>
    obtain ⟨l, lost', hs, hframe, hkept, hq'⟩ := hp
    exact ⟨l, lost', hs, hframe, hkept, hq a f' l lost' hs hframe hq'⟩
  | error e => exact hp

theorem Meets.pure {a : α} (h : f.Safe l lost others) (hq : Q a f l lost) :
    Meets F (Pure.pure a) f lost others Q :=
  Code.Returns.pure ⟨l, lost, h, Frame.refl f others, fun _ => rfl, hq⟩

/-- The code does this. -/
theorem Meets.of_eq {a : α} (hm : m f = some (.ok a, f')) (hs : f'.Safe l lost others) (hframe : f.Frame f' others)
    (hq : Q a f' l lost) : Meets F m f lost others Q := ⟨.ok a, f', hm, l, lost, hs, hframe, fun _ => rfl, hq⟩

/-- A part of the code that is left with an error. -/
theorem Meets.of_abort {res : FRESULT} (hm : m f = OpenFile.abort res f') (hs : f'.Safe l lost others)
    (hframe : f.Frame f' others) (hF : F) (hres : res ≠ .FR_OK) : Meets F m f lost' others Q :=
  ⟨.error res, ⟨f'.fs, { f'.fp with err := res }⟩, hm.trans rfl, hF, l, lost, hs.fil ⟨rfl, rfl⟩ hs.dsect,
    hframe.trans (Frame.fil ⟨rfl, rfl⟩ ⟨rfl, rfl⟩), fun he => absurd he hres⟩

theorem Meets.abort {res : FRESULT} (h : f.Safe l lost others) (hF : F) (hres : res ≠ .FR_OK) :
    Meets F (OpenFile.abort res) f lost others Q := .of_abort rfl h (Frame.refl f others) hF hres

theorem Meets.read_bind {k : OpenFile → FileCode β} (h : Meets F (k f) f lost others R) :
    Meets F (Code.read >>= k) f lost others R := h

/-- A value that is computed from the state. -/
theorem Meets.apply_bind {a : α} (hm : m f = some (.ok a, f)) (h : Meets F (k a) f lost others R) :
    Meets F (m >>= k) f lost others R := by
  obtain ⟨r, f', hk, hr⟩ := h
  exact ⟨r, f', (Code.bind_ok hm).trans hk, hr⟩

/-- Fields of the file are set. -/
theorem Meets.setFil_bind {g : FIL → FIL} {k : Unit → FileCode β} (hs : f.Safe l lost others)
    (hm : (g f.fp).canRead = f.fp.canRead ∧ (g f.fp).canWrite = f.fp.canWrite)
    (he : (g f.fp).dirSect = f.fp.dirSect ∧ (g f.fp).dirPtr = f.fp.dirPtr)
    (hd : (g f.fp).dsect = 0 ∧ (g f.fp).dirty = false ∨ f.Own l lost (g f.fp).dsect)
    (h : (⟨f.fs, g f.fp⟩ : OpenFile).Safe l lost others → Meets F (k ()) ⟨f.fs, g f.fp⟩ lost others R) :
    Meets F (setFil g >>= k) f lost others R :=
  Code.Returns.mono (h (hs.fil he hd)) fun _ _ => Post.of_frame (Frame.fil hm he) fun _ => rfl

theorem Meets.ite {p : Prop} [Decidable p] {m' : FileCode α} (h : p → Meets F m f lost others Q)
    (h' : ¬ p → Meets F m' f lost others Q) : Meets F (if p then m else m') f lost others Q := Code.Returns.ite h h'

end Meets

end OpenFile

end Miosix
