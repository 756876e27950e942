import MiosixKernel.Fat.DirFind
import MiosixKernel.Lib.Calls

/-!
# Directories are searched and listed

* `listing`, `Tells`: the answers to be given by the calls of `f_readdir`;
* **`dirFind_first`**: the first object with a name is found, whichever transfers fail;
* **`readdir_lists`**: the calls list the objects, each once and in order.
-/

namespace Miosix

open Lib Volume DirTable

namespace OpenDir

variable {d : OpenDir} {T : DirTable} {others : List (List ℕ)} {q : List ℕ}

/-- What is to be answered by so many calls: the objects, and then that there are no more. -/
def listing : List DirObject → ℕ → List (Option DirObject)
  | _, 0 => []
  | [], n + 1 => none :: listing [] n
  | o :: os, n + 1 => some o :: listing os n

/-- An answer of `f_readdir`. -/
def Tells : Option DirObject → Except FRESULT (Option (DirEntry × Option (ℕ → ℕ))) → Prop
  | none, r => r = .ok none
  | some o, r => ∃ fno, r = .ok (some fno) ∧ Reports o fno

theorem serve_readdir {os : List DirObject} (n : ℕ) (h : d.Lies T others) (hf : d.fs.drv.faults = [])
    (hr : d.Reading T os) : ∃ rs d', serve (fun _ : Unit => fReaddir) (List.replicate n ()) d = some (rs, d') ∧
      Same d d' ∧ List.Forall₂ Tells (listing (os.filter fun o => ¬ o.Dotted) n) rs := by
  induction n generalizing d os with
  | zero => exact ⟨[], d, rfl, Same.refl h.alloc.valid, by rw [listing]; exact .nil⟩
  | succ n ih =>
    obtain ⟨r, d₁, hrun, hs, -, hq⟩ := (fReaddir_looks h (Drive.failures_of_nil hf) hr).result
    have hnext : ∀ os', d₁.Reading T os' → ∃ rs d', serve (fun _ : Unit => fReaddir) (List.replicate (n + 1) ()) d =
        some (r :: rs, d') ∧ Same d d' ∧ List.Forall₂ Tells (listing (os'.filter fun o => ¬ o.Dotted) n) rs := by
      intro os' hr'
      obtain ⟨rs, d', hserve, hs', htells⟩ := ih (h.same hs) (hs.shows.faults hf) hr'
      refine ⟨rs, d', ?_, hs.trans hs', htells⟩
      simp only [List.replicate_succ, serve, hrun, hserve, Option.bind_some, Option.map_some]
    obtain ⟨hdot, hres, hr'⟩ | ⟨os₁, o, os₂, fno, hos, hdot, hplain, hres, hreports, hr'⟩ := hq
    · obtain ⟨rs, d', hserve, hs', htells⟩ := hnext [] hr'
      have hnil : (os.filter fun o => ¬ o.Dotted) = [] := List.filter_eq_nil_iff.2 fun o ho => by simpa using hdot o ho
      refine ⟨r :: rs, d', hserve, hs', ?_⟩
      rw [hnil, listing]
      exact .cons hres htells
    · obtain ⟨rs, d', hserve, hs', htells⟩ := hnext os₂ hr'
      have hnil : (os₁.filter fun o => ¬ o.Dotted) = [] := List.filter_eq_nil_iff.2 fun o ho => by simpa using hdot o ho
      refine ⟨r :: rs, d', hserve, hs', ?_⟩
      rw [hos, List.filter_append, hnil, List.nil_append, List.filter_cons_of_pos (by simpa using hplain), listing]
      exact .cons ⟨fno, hres, hreports⟩ htells

/-! ## The directory is searched and listed -/

/-- **Finding.** The first object with the name is found, by its long name or by its short one, and it is said that
there is none only if there is none. Nothing is changed, and only a failing transfer is an error. -/
theorem dirFind_first {os : List DirObject} (h : d.Lies T others) (hos : Holds os (T.entries d.fs.seen 0))
    (hq : Query d.dp q) : ∃ r d', dirFind d = some (r, d') ∧ Same d d' ∧
      ((r = .error .FR_NO_FILE ∧ ∀ o ∈ os, ¬ o.Matches d.dp q) ∨
        (r = .ok () ∧ ∃ os₁ o os₂ es₁ l es₂, FoundAt d T os q d' os₁ o os₂ es₁ l es₂) ∨
        (r = .error .FR_DISK_ERR ∧ d.fs.drv.Failed d'.fs.drv)) := by
  obtain ⟨r, d', hrun, hs, ⟨-, -, hr⟩ | hr⟩ := dirFind_looks h le_rfl hos hq
  · exact ⟨r, d', hrun, hs, hr.imp_right .inl⟩
  · exact ⟨r, d', hrun, hs, .inr (.inr hr)⟩

/-- **Listing.** From the start of the directory on, every number of calls lists the objects that are not `.` or `..`, each
once and in order, with their long names, and then that there are no more. -/
theorem readdir_lists {os : List DirObject} (h : d.Lies T others) (hos : Holds os (T.entries d.fs.seen 0))
    (hf : d.fs.drv.faults = []) (n : ℕ) : ∃ d₁ rs d', dirSdi 0 d = some (.ok (), d₁) ∧
      serve (fun _ : Unit => fReaddir) (List.replicate n ()) d₁ = some (rs, d') ∧ Same d d' ∧
      List.Forall₂ Tells (listing (os.filter fun o => ¬ o.Dotted) n) rs := by
  obtain ⟨r, d₁, hrun, hs, rfl, hat, -⟩ :=
    (dirSdi_looks h (Drive.failures_of_nil hf) (slots_pos h.placed)).result
  rw [← h.entries hs] at hos
  obtain ⟨rs, d', hserve, hs', htells⟩ := serve_readdir n (h.same hs) (hs.shows.faults hf)
    (.inr ⟨0, slots_pos h.placed, hat, hos⟩)
  exact ⟨d₁, rs, d', hrun, hserve, hs.trans hs', htells⟩

/-! ## A directory with three objects -/

section Sample

/-- `USER MANUAL.TXT`, whose long name is in two entries. -/
def manual : DirObject := ⟨manualName, [0x55, 0x53, 0x45, 0x52, 0x4D, 0x41, 0x7E, 0x31, 0x54, 0x58, 0x54]⟩

/-- `BOOT.BIN`, without a long name. -/
def boot : DirObject := ⟨[], [0x42, 0x4F, 0x4F, 0x54, 0x20, 0x20, 0x20, 0x20, 0x42, 0x49, 0x4E]⟩

/-- `A`, with the long name `a`. -/
def letterA : DirObject := ⟨[0x61], [0x41, 0x20, 0x20, 0x20, 0x20, 0x20, 0x20, 0x20, 0x20, 0x20, 0x20]⟩

/-- The entries of an object, as they are written. -/
def objectEntries (o : DirObject) : List DirEntry :=
  (List.range (lfnCount o.nm)).reverse.map (fun k => fitLfn (nameWord o.nm) (fun _ => 0) (k + 1) (sumSfn o.sfn)) ++
    [store (fun _ => 0) 0 o.sfn]

def volumeLabel : DirEntry :=
  store (fun _ => 0) 0 [0x4D, 0x49, 0x4F, 0x53, 0x49, 0x58, 0x20, 0x20, 0x20, 0x20, 0x20, amVol]

def deletedEntry : DirEntry := store (fun _ => 0) 0 [deletedMark]

def sampleEntries : List DirEntry :=
  volumeLabel :: (objectEntries manual ++ deletedEntry :: (objectEntries boot ++ objectEntries letterA))

def sampleBytes : ℕ → UInt8 := fun x =>
  if 1536 ≤ x then sampleEntries.getD ((x - 1536) / 32) (fun _ => 0) ((x - 1536) % 32) else 0

/-- The root directory of a small volume, where a name is looked for. -/
def sampleDir (o : DirObject) : OpenDir where
  fs := { FATFS.blank FATFS.smallVolume with drv := ⟨sampleBytes, []⟩ }
  nRootdir := 80
  dirbase := 3
  dp := { sclust := 0, index := 0, clust := 0, sect := 3, dir := 0, fn := o.sfn, ns := nsLfn, hasLfn := true,
          lfnbuf := nameWord o.nm, lfnIdx := 0xFFFF }

def sampleTable : DirTable := ⟨FATFS.smallVolume, 80, 3, []⟩

theorem sampleTable_placed : sampleTable.Placed where
  sized := ⟨FATFS.smallVolume_placed, ⟨0, by decide, rfl⟩, by decide⟩
  range := fun _ hc => absurd hc List.not_mem_nil
  nodup := List.nodup_nil
  static := fun _ => by decide

theorem sampleDir_seen (o : DirObject) : (sampleDir o).fs.seen = sampleBytes := overlay_window fun i hi => by
  have hz : sampleBytes (512 * 0 + i) = 0 := if_neg (by omega)
  exact hz.symm

theorem sampleDir_valid (o : DirObject) : (sampleDir o).fs.Valid := by
  have hlt : ¬ FATFS.smallVolume.fatbase + FATFS.smallVolume.fsize ≤ 0 := by decide
  refine ⟨⟨FATFS.smallVolume_placed, Nat.two_pow_pos 32, fun hc => absurd hc.1 hlt, fun _ _ i hi => ?_⟩, Drive.Tidy.nil rfl⟩
  have hz : sampleBytes (512 * 0 + i) = 0 := if_neg (by omega)
  exact hz.symm

theorem sampleDir_fat (o : DirObject) (c : ℕ) : (sampleDir o).fs.fat c = 0 := by
  rw [← FATFS.fat_blank FATFS.smallVolume c]
  unfold FATFS.fat
  by_cases hc : 2 ≤ c ∧ c < FATFS.smallVolume.nFatent
  · refine (if_pos hc).trans (Eq.trans ?_ (if_pos hc).symm)
    refine Volume.entry_congr FATFS.smallVolume_placed hc.2 fun a _ hlt => ?_
    have hlt' : a / 512 < 2 := hlt
    rw [sampleDir_seen, sampleBytes, if_neg (by omega),
      show (FATFS.blank FATFS.smallVolume).seen = fun _ => 0 from overlay_window fun _ _ => rfl]
  · exact (if_neg hc).trans (if_neg hc).symm

theorem sampleDir_allocated (o : DirObject) : (sampleDir o).fs.Allocated [[]] := by
  have hlinks : (sampleDir o).fs.links = (FATFS.blank FATFS.smallVolume).links :=
    FATFS.links_congr rfl (funext fun c => (sampleDir_fat o c).trans (FATFS.fat_blank _ c).symm)
  refine ⟨sampleDir_valid o, ?_⟩
  rw [hlinks]
  exact (FATFS.blank_allocated FATFS.smallVolume_placed (by decide)).chains.nil

theorem sampleDir_lies (o : DirObject) : (sampleDir o).Lies sampleTable [] where
  vol := rfl
  root := ⟨rfl, rfl⟩
  placed := sampleTable_placed
  alloc := sampleDir_allocated o
  static := fun _ => rfl
  start := fun _ hc => by simp [sampleTable] at hc

/-- What is written for an object are its entries. -/
theorem objectEntries_written {o : DirObject} (h : o.Sound) : o.Written (objectEntries o) := by
  refine ⟨_, _, fun k hk => ?_, ⟨load_store h.sfn, ?_⟩, rfl⟩
  · have hcount := h.count_le
    exact fitLfn_isLfnEntry h.name (fun _ _ => rfl) hk (by omega) (sumSfn o.sfn)
  · rw [store_outside (by rw [h.sfn]; exact .inr le_rfl)]
    rfl

theorem manual_sound : manual.Sound := ⟨by unfold IsName; decide, by decide, rfl, by decide⟩

theorem boot_sound : boot.Sound := ⟨by unfold IsName; decide, by decide, rfl, by decide⟩

theorem letterA_sound : letterA.Sound := ⟨by unfold IsName; decide, by decide, rfl, by decide⟩

theorem sampleEntries_holds :
    Holds [manual, boot, letterA] ((List.range' 0 80).map fun i => sampleEntries.getD i fun _ => 0) := by
  have hsplit : ((List.range' 0 80).map fun i => sampleEntries.getD i fun _ => 0) =
      volumeLabel :: (objectEntries manual ++ deletedEntry :: (objectEntries boot ++ (objectEntries letterA ++
        (List.range' 8 72).map fun _ => fun _ => 0))) := rfl
  rw [hsplit]
  refine .skip ⟨by decide, .inr (by decide)⟩ (.object manual_sound (objectEntries_written manual_sound) ?_)
  refine .skip ⟨by decide, .inl (by decide)⟩ (.object boot_sound (objectEntries_written boot_sound) ?_)
  refine .object letterA_sound (objectEntries_written letterA_sound) (.free fun e he => ?_)
  obtain ⟨_, -, rfl⟩ := List.mem_map.1 he
  rfl

theorem sampleDir_slot (o : DirObject) (i : ℕ) :
    sampleTable.slot (sampleDir o).fs.seen i = entryAt (sampleEntries.getD i fun _ => 0) 0 := funext fun x => by
  have hslot : sampleTable.slot sampleBytes i x = if x < 32 then sampleBytes (512 * 3 + 32 * i + x) else 0 := rfl
  rw [sampleDir_seen, hslot, entryAt, Nat.zero_add]
  refine if_ctx_congr Iff.rfl (fun hx => ?_) fun _ => rfl
  rw [sampleBytes, if_pos (by omega), show (512 * 3 + 32 * i + x - 1536) / 32 = i by omega,
    show (512 * 3 + 32 * i + x - 1536) % 32 = x by omega]

theorem sampleDir_holds (o : DirObject) :
    Holds [manual, boot, letterA] (sampleTable.entries (sampleDir o).fs.seen 0) := by
  have heq : sampleTable.entries (sampleDir o).fs.seen 0 =
      ((List.range' 0 80).map fun i => sampleEntries.getD i fun _ => 0).map fun e => entryAt e 0 := by
    rw [List.map_map]
    exact List.map_congr_left fun i _ => sampleDir_slot o i
  rw [heq]
  refine sampleEntries_holds.map fun e x hx => ?_
  rw [entryAt, if_pos hx, Nat.zero_add]

theorem sampleDir_query {o : DirObject} (h : o.Sound) : Query (sampleDir o).dp o.nm := fun _ => ⟨h.name, fun _ _ => rfl⟩

/-- The first match in a list is where it is. -/
theorem first_unique {p : DirObject → Prop} {os₁ os₁' os₂ os₂' : List DirObject} {o o' : DirObject}
    (h : os₁ ++ o :: os₂ = os₁' ++ o' :: os₂') (h₁ : ∀ a ∈ os₁, ¬ p a) (ho : p o) (h₁' : ∀ a ∈ os₁', ¬ p a) (ho' : p o') :
    os₁ = os₁' ∧ o = o' ∧ os₂ = os₂' := by
  induction os₁ generalizing os₁' with
  | nil =>
    rcases os₁' with _ | ⟨a, os₁'⟩
    · exact ⟨rfl, List.cons.inj h⟩
    · obtain ⟨rfl, -⟩ := List.cons.inj h
      exact absurd ho (h₁' _ List.mem_cons_self)
  | cons b os₁ ih =>
    rcases os₁' with _ | ⟨a, os₁'⟩
    · obtain ⟨rfl, -⟩ := List.cons.inj h
      exact absurd ho' (h₁ _ List.mem_cons_self)
    · obtain ⟨rfl, htail⟩ := List.cons.inj h
      obtain ⟨rfl, hrest⟩ := ih htail (fun a ha => h₁ a (List.mem_cons_of_mem _ ha)) fun a ha =>
        h₁' a (List.mem_cons_of_mem _ ha)
      exact ⟨rfl, hrest⟩

/-- The third object is found, after the first two were looked at. -/
theorem dirFind_first_letterA : ∃ d', dirFind (sampleDir letterA) = some (.ok (), d') ∧ Same (sampleDir letterA) d' ∧
    ∃ es₁ l es₂, FoundAt (sampleDir letterA) sampleTable [manual, boot, letterA] letterA.nm d' [manual, boot] letterA []
      es₁ l es₂ := by
  obtain ⟨r, d', hrun, hs, ⟨-, hnone⟩ | ⟨rfl, os₁, o, os₂, es₁, l, es₂, hfound⟩ | ⟨-, hfail⟩⟩ :=
    dirFind_first (sampleDir_lies letterA) (sampleDir_holds letterA) (sampleDir_query letterA_sound)
  · exact absurd (by decide) (hnone letterA (by simp))
  · have hobjects : [manual, boot] ++ letterA :: [] = os₁ ++ o :: os₂ := hfound.splits.objects
    obtain ⟨rfl, rfl, rfl⟩ := first_unique hobjects (by decide) (by decide) hfound.first hfound.isMatch
    exact ⟨d', hrun, hs, es₁, l, es₂, hfound⟩
  · exact absurd rfl hfail.ne_nil

theorem readdir_lists_three : ∃ d₁ rs d', dirSdi 0 (sampleDir letterA) = some (.ok (), d₁) ∧
    serve (fun _ : Unit => fReaddir) (List.replicate 5 ()) d₁ = some (rs, d') ∧ Same (sampleDir letterA) d' ∧
    List.Forall₂ Tells [some manual, some boot, some letterA, none, none] rs :=
  readdir_lists (sampleDir_lies letterA) (sampleDir_holds letterA) rfl 5

end Sample

end OpenDir

end Miosix
