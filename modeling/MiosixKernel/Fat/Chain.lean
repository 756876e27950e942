import MiosixKernel.Fat.Entry
import MiosixKernel.Lib.Linked
import Mathlib.Data.Finset.Card

/-!
# Cluster chains

The clusters of a file are linked through the FAT, and a free cluster has the entry 0.

* `createChain`, `removeChain`: the code;
* **`createChain_created`**: the next cluster, or a free one if there is one;
* **`removeLoop_total`**: whatever the FAT holds, also a loop, the function returns.
-/

namespace Miosix

open Lib

namespace FATFS

/-! ## The code -/

/-- `Update FSINFO` of `remove_chain` -/
def given (fs : FATFS) : FATFS :=
  if fs.freeClust ≠ 0xFFFFFFFF then
    { fs with freeClust := (fs.freeClust + 1) % 2 ^ 32, fsiFlag := fs.fsiFlag ||| 1 } else fs

/-- `Update FSINFO` of `create_chain` -/
def taken (fs : FATFS) (ncl : ℕ) : FATFS :=
  if fs.freeClust ≠ 0xFFFFFFFF then
    { fs with lastClust := ncl, freeClust := (fs.freeClust + (2 ^ 32 - 1)) % 2 ^ 32, fsiFlag := fs.fsiFlag ||| 1 }
  else { fs with lastClust := ncl }

/-- The loop of `remove_chain`. -/
def removeLoop : ℕ → ℕ → FATFS → Option (FRESULT × FATFS)
  | 0, _, _ => none
  | fuel + 1, clst, fs =>
    if clst < fs.nFatent then
      let (nxt, fs) := fs.getFat clst
      if nxt = 0 then some (.FR_OK, fs)
      else if nxt = 1 then some (.FR_INT_ERR, fs)
      else if nxt = 0xFFFFFFFF then some (.FR_DISK_ERR, fs)
      else
        let (res, fs) := fs.putFat clst 0
        if res ≠ .FR_OK then some (res, fs)
        else removeLoop fuel nxt fs.given
    else some (.FR_OK, fs)

def removeChain (fs : FATFS) (clst fuel : ℕ) : Option (FRESULT × FATFS) :=
  if clst < 2 ∨ fs.nFatent ≤ clst then some (.FR_INT_ERR, fs) else removeLoop fuel clst fs

/-- The loop of `create_chain`, which is left with a free cluster or returns an answer. -/
def findLoop (scl : ℕ) : ℕ → ℕ → FATFS → Option (Except ℕ ℕ × FATFS)
  | 0, _, _ => none
  | fuel + 1, ncl, fs =>
    let wrap := fs.nFatent ≤ ncl + 1
    let ncl := if wrap then 2 else ncl + 1
    if wrap ∧ scl < ncl then some (.error 0, fs)
    else
      let (cs, fs) := fs.getFat ncl
      if cs = 0 then some (.ok ncl, fs)
      else if cs = 0xFFFFFFFF ∨ cs = 1 then some (.error cs, fs)
      else if ncl = scl then some (.error 0, fs)
      else findLoop scl fuel ncl fs

/-- The end of `create_chain`, with the free cluster. -/
def linkChain (fs : FATFS) (clst ncl : ℕ) : ℕ × FATFS :=
  let (res, fs) := fs.putFat ncl 0x0FFFFFFF
  let (res, fs) := if res = .FR_OK ∧ clst ≠ 0 then fs.putFat clst ncl else (res, fs)
  if res = .FR_OK then (ncl, fs.taken ncl)
  else (if res = .FR_DISK_ERR then 0xFFFFFFFF else 1, fs)

/-- The search from `scl` on, and what follows. -/
def allocate (fs : FATFS) (clst scl fuel : ℕ) : Option (ℕ × FATFS) :=
  match findLoop scl fuel scl fs with
  | none => none
  | some (.error cs, fs) => some (cs, fs)
  | some (.ok ncl, fs) => some (fs.linkChain clst ncl)

def createChain (fs : FATFS) (clst fuel : ℕ) : Option (ℕ × FATFS) :=
  if clst = 0 then
    fs.allocate clst (if fs.lastClust = 0 ∨ fs.nFatent ≤ fs.lastClust then 1 else fs.lastClust) fuel
  else
    let (cs, fs) := fs.getFat clst
    if cs < 2 then some (1, fs)
    else if cs < fs.nFatent then some (cs, fs)
    else fs.allocate clst clst fuel

variable {fs fs' fs₁ : FATFS} {res : FRESULT} {c clst scl ncl nxt fuel r : ℕ}

/-! ## The search for a free cluster -/

/-- The clusters that the search looked at when it is at `ncl`. -/
def Visited (scl ncl c : ℕ) : Prop := if scl ≤ ncl then scl < c ∧ c ≤ ncl else scl < c ∨ c ≤ ncl

/-- How the search ends: at a free cluster, when there is none, at an entry that no chain has, or by a transfer that
fails. -/
structure Found (fs : FATFS) (r : Except ℕ ℕ) : Prop where
  ok : ∀ ncl, r = .ok ncl → 2 ≤ ncl ∧ ncl < fs.nFatent ∧ fs.fat ncl = 0
  full : r = .error 0 → ∀ c, 2 ≤ c → c < fs.nFatent → fs.fat c ≠ 0
  error : ∀ cs, r = .error cs → cs = 0 ∨ (cs = 1 ∧ ∃ c, 2 ≤ c ∧ c < fs.nFatent ∧ fs.fat c = 1) ∨
    (cs = 0xFFFFFFFF ∧ fs.drv.faults ≠ [])

theorem Found.of_shows {r : Except ℕ ℕ} (hshow : fs.Shows fs') (hp : fs.Placed) (h : fs'.Found r) : fs.Found r := by
  have hfat := hshow.fat hp
  have hn : fs'.nFatent = fs.nFatent := by rw [hshow.vol]
  refine ⟨fun ncl hr => ?_, fun hr c => ?_, fun cs hr => ?_⟩
  · rw [← hfat, ← hn]
    exact h.ok ncl hr
  · rw [← hfat, ← hn]
    exact h.full hr c
  · rw [← hfat, ← hn]
    obtain h0 | h1 | ⟨hcs, hf⟩ := h.error cs hr
    · exact .inl h0
    · exact .inr (.inl h1)
    · exact .inr (.inr ⟨hcs, fun hnil => hf (hshow.faults hnil)⟩)

theorem findLoop_shows (h : fs.Valid) (hscl : 1 ≤ scl) (hscl' : scl < fs.nFatent) (hncl : 1 ≤ ncl)
    (hncl' : ncl < fs.nFatent)
    (hfuel : (if scl ≤ ncl then fs.nFatent - 1 - ncl + scl else scl - ncl) ≤ fuel)
    (hv : ∀ c, 2 ≤ c → c < fs.nFatent → Visited scl ncl c → fs.fat c ≠ 0) :
    ∃ r fs', findLoop scl fuel ncl fs = some (r, fs') ∧ fs.Shows fs' ∧ fs.Found r := by
  induction fuel generalizing ncl fs with
  | zero => split_ifs at hfuel <;> omega
  | succ fuel ih =>
    have hp := h.placed
    have hn := hp.clusters
    unfold findLoop
    -- the next cluster, after the last one the first one
    obtain ⟨next, hnext⟩ : ∃ next, (if fs.nFatent ≤ ncl + 1 then 2 else ncl + 1) = next := ⟨_, rfl⟩
    simp only [hnext]
    by_cases hwrap : fs.nFatent ≤ ncl + 1 ∧ scl < next
    · rw [if_pos hwrap]
      rw [if_pos hwrap.1] at hnext
      refine ⟨_, _, rfl, Shows.refl h, fun _ hr => by simp at hr, fun _ c hc hlt => hv c hc hlt ?_, fun cs hr => .inl ?_⟩
      · unfold Visited
        split_ifs <;> omega
      · injection hr with hr
        exact hr.symm
    · rw [if_neg hwrap]
      have hnext2 : 2 ≤ next := by split_ifs at hnext <;> omega
      have hnextn : next < fs.nFatent := by split_ifs at hnext <;> omega
      rcases hget : fs.getFat next with ⟨cs, fs₁⟩
      obtain ⟨hshow, rfl | ⟨rfl, hf⟩⟩ := getFat_shows h hnext2 hnextn hget
      · simp only
        have hlt28 := fat_lt (c := next) hp
        split_ifs with h0 h1 h2
        · refine ⟨_, _, rfl, hshow, fun ncl hr => ?_, fun hr => by simp at hr, fun _ hr => by simp at hr⟩
          obtain rfl : next = ncl := by injection hr
          exact ⟨hnext2, hnextn, h0⟩
        · refine ⟨_, _, rfl, hshow, fun _ hr => by simp at hr, fun hr => ?_, fun cs hr => .inr (.inl ?_)⟩
          · injection hr with hr
            exact absurd hr h0
          · injection hr with hr
            exact ⟨by omega, next, hnext2, hnextn, by omega⟩
        · -- the search is back where it started
          refine ⟨_, _, rfl, hshow, fun _ hr => by simp at hr, fun _ c hc hlt => ?_, fun cs hr => .inl ?_⟩
          · by_cases hcn : c = next
            · rwa [hcn]
            · refine hv c hc hlt ?_
              unfold Visited
              split_ifs at hnext ⊢ <;> omega
          · injection hr with hr
            exact hr.symm
        · have hvol : fs₁.nFatent = fs.nFatent := by rw [hshow.vol]
          have hfuel' : (if scl ≤ next then fs₁.nFatent - 1 - next + scl else scl - next) ≤ fuel := by
            rw [hvol]
            split_ifs at hfuel hnext ⊢ <;> omega
          have hv' : ∀ c, 2 ≤ c → c < fs₁.nFatent → Visited scl next c → fs₁.fat c ≠ 0 := by
            intro c hc hlt hvis
            rw [hshow.fat hp]
            rw [hvol] at hlt
            by_cases hcn : c = next
            · rwa [hcn]
            · refine hv c hc hlt ?_
              unfold Visited at hvis ⊢
              split_ifs at hnext hvis ⊢ <;> omega
          obtain ⟨r, fs', hloop, hshow', hfound⟩ :=
            ih hshow.valid (by rwa [hvol]) (by omega) (by rwa [hvol]) hfuel' hv'
          exact ⟨r, fs', hloop, hshow.trans hshow', hfound.of_shows hshow hp⟩
      · refine ⟨_, _, rfl, hshow, fun _ hr => by simp at hr, fun hr => by simp at hr,
          fun cs hr => .inr (.inr ⟨?_, hf.ne_nil⟩)⟩
        injection hr with hr
        exact hr.symm

/-! ## A cluster for a chain -/

/-- The value that ends a chain. -/
def eoc (fs : FATFS) : ℕ := 0x0FFFFFFF % fs.entryBound

theorem le_eoc (hp : fs.Placed) : fs.nFatent ≤ fs.eoc := by
  have := hp.last
  have hm := hp.mounted
  unfold eoc Volume.entryBound at *
  cases ht : fs.fsType <;> simp only [ht] at * <;> omega

/-- The FAT with a free cluster as the end of a chain. -/
def linked (fs : FATFS) (clst ncl : ℕ) : ℕ → ℕ :=
  let fat := Function.update fs.fat ncl fs.eoc
  if clst = 0 then fat else Function.update fat clst ncl

/-- What `createChain` answers, and what it does to the FAT. -/
inductive Created (fs fs' : FATFS) (clst : ℕ) : ℕ → Prop
  /-- The cluster has a next one. -/
  | follows (hc : clst ≠ 0) (hge : 2 ≤ fs.fat clst) (hlt : fs.fat clst < fs.nFatent) (hshow : fs.Shows fs') :
    Created fs fs' clst (fs.fat clst)
  /-- A free cluster is linked. When the entry of the last one could not be read, that one is taken for the end. -/
  | new {r : ℕ} (hge : 2 ≤ r) (hlt : r < fs.nFatent) (hfree : fs.fat r = 0)
    (hend : clst = 0 ∨ fs.nFatent ≤ fs.fat clst ∨ fs.drv.faults ≠ [])
    (hkeep : fs.Keeps fs') (hfat : fs'.fat = fs.linked clst r)
    (hcount : fs'.freeClust = if fs.freeClust = 0xFFFFFFFF then fs.freeClust else (fs.freeClust + (2 ^ 32 - 1)) % 2 ^ 32) :
    Created fs fs' clst r
  /-- There is none. -/
  | full (hfull : ∀ c, 2 ≤ c → c < fs.nFatent → fs.fat c ≠ 0) (hshow : fs.Shows fs') : Created fs fs' clst 0
  /-- The cluster is free, or an entry is read that no chain has. -/
  | invalid (hbad : clst ≠ 0 ∧ fs.fat clst < 2 ∨ ∃ c, 2 ≤ c ∧ c < fs.nFatent ∧ fs.fat c = 1) (hshow : fs.Shows fs') :
    Created fs fs' clst 1
  /-- A transfer failed. The free cluster may be lost. -/
  | failed (hf : fs.drv.faults ≠ []) (hkeep : fs.Keeps fs') (hcount : fs'.freeClust = fs.freeClust)
    (hfat : fs.fsType ≠ .FS_FAT12 →
      fs'.fat = fs.fat ∨ ∃ r, 2 ≤ r ∧ r < fs.nFatent ∧ fs.fat r = 0 ∧ fs'.fat = Function.update fs.fat r fs.eoc) :
    Created fs fs' clst 0xFFFFFFFF

/-- The counters of free clusters are not part of what is seen. -/
theorem Keeps.info (h : fs.Keeps fs') (last free flag : ℕ) :
    fs.Keeps { fs' with lastClust := last, freeClust := free, fsiFlag := flag } :=
  ⟨⟨⟨h.valid.placed, h.valid.lt, h.valid.copy, h.valid.clean⟩, h.valid.tidy⟩, h.vol, h.later, h.mirrored, h.seen⟩

theorem Keeps.taken (h : fs.Keeps fs') : fs.Keeps (fs'.taken ncl) := by
  unfold FATFS.taken
  split_ifs
  · exact h.info ncl _ _
  · exact h.info ncl fs'.freeClust fs'.fsiFlag

theorem fat_taken : (fs.taken ncl).fat = fs.fat := by unfold taken; split_ifs <;> rfl

theorem freeClust_taken : (fs.taken ncl).freeClust =
    if fs.freeClust = 0xFFFFFFFF then fs.freeClust else (fs.freeClust + (2 ^ 32 - 1)) % 2 ^ 32 := by
  unfold taken
  by_cases h : fs.freeClust = 0xFFFFFFFF
  · rw [if_neg (not_not.2 h), if_pos h]
  · rw [if_pos h, if_neg h]

theorem linkChain_created {fs₀ : FATFS} (h : fs₀.Valid) (hshow : fs₀.Shows fs)
    (hclst : clst = 0 ∨ 2 ≤ clst ∧ clst < fs₀.nFatent) (hge : 2 ≤ ncl) (hlt : ncl < fs₀.nFatent)
    (hfree : fs₀.fat ncl = 0) (hend : clst = 0 ∨ fs₀.nFatent ≤ fs₀.fat clst ∨ fs₀.drv.faults ≠ [])
    (hres : fs.linkChain clst ncl = (r, fs')) : fs₀.Created fs' clst r := by
  have hp := h.placed
  have hfat := hshow.fat hp
  have heoc : fs.eoc = fs₀.eoc := by unfold eoc; rw [hshow.vol]
  unfold linkChain at hres
  rcases hput : fs.putFat ncl 0x0FFFFFFF with ⟨res₁, fs₁⟩
  have hput₁ := putFat_shows hshow.valid hge (by rwa [hshow.vol]) hput
  have hkeep₁ := hshow.keeps.trans hput₁.keeps
  simp only [hput] at hres
  obtain ⟨rfl, hfat₁⟩ | ⟨rfl, hf, hfat₁⟩ := hput₁.cases
  · rw [hfat, show 0x0FFFFFFF % fs.entryBound = fs₀.eoc from heoc] at hfat₁
    by_cases hc : clst = 0
    · simp only [hc, ne_eq, not_true_eq_false, and_false, if_false, if_true] at hres
      obtain ⟨rfl, rfl⟩ := Prod.mk.inj hres
      refine .new hge hlt hfree hend hkeep₁.taken ?_ ?_
      · rw [fat_taken, linked, if_pos hc]
        exact hfat₁
      · rw [freeClust_taken, hput₁.free, hshow.free]
    · simp only [hc, ne_eq, not_false_eq_true, and_true, if_true] at hres
      obtain ⟨hge', hlt'⟩ := hclst.resolve_left hc
      rcases hput' : fs₁.putFat clst ncl with ⟨res₂, fs₂⟩
      have hput₂ := putFat_shows hput₁.keeps.valid hge' (by rwa [hkeep₁.vol]) hput'
      simp only [hput'] at hres
      obtain ⟨rfl, hfat₂⟩ | ⟨rfl, hf, hfat₂⟩ := hput₂.cases
      · simp only [if_true] at hres
        obtain ⟨rfl, rfl⟩ := Prod.mk.inj hres
        refine .new hge hlt hfree hend (hkeep₁.trans hput₂.keeps).taken ?_ ?_
        · have hmod : ncl % fs₁.entryBound = ncl := by
            rw [hkeep₁.vol]
            exact Nat.mod_eq_of_lt (hlt.trans hp.last)
          rw [fat_taken, linked, if_neg hc, hfat₂, hmod, hfat₁]
        · rw [freeClust_taken, hput₂.free, hput₁.free, hshow.free]
      · simp only [reduceCtorEq, if_false, if_true] at hres
        obtain ⟨rfl, rfl⟩ := Prod.mk.inj hres
        refine .failed (fun hnil => hf (hkeep₁.faults hnil)) (hkeep₁.trans hput₂.keeps)
          ((hput₂.free.trans hput₁.free).trans hshow.free) fun hty => .inr ⟨ncl, hge, hlt, hfree, ?_⟩
        rw [hfat₂ (by rwa [hkeep₁.vol]), hfat₁]
  · simp only [reduceCtorEq, false_and, if_false, if_true] at hres
    obtain ⟨rfl, rfl⟩ := Prod.mk.inj hres
    refine .failed (fun hnil => hf (hshow.faults hnil)) hkeep₁ (hput₁.free.trans hshow.free) fun hty => .inl ?_
    rw [hfat₁ (by rwa [hshow.vol]), hfat]

/-- The search, after the FAT was read. -/
theorem allocate_created {fs₀ : FATFS} (h : fs₀.Valid) (hshow₀ : fs₀.Shows fs)
    (hclst : clst = 0 ∨ 2 ≤ clst ∧ clst < fs₀.nFatent) (hscl : 1 ≤ scl) (hscl' : scl < fs₀.nFatent)
    (hend : clst = 0 ∨ fs₀.nFatent ≤ fs₀.fat clst ∨ fs₀.drv.faults ≠ []) (hfuel : fs₀.nFatent ≤ fuel) :
    ∃ r fs', fs.allocate clst scl fuel = some (r, fs') ∧ fs₀.Created fs' clst r := by
  have hp := h.placed
  have hn : fs.nFatent = fs₀.nFatent := by rw [hshow₀.vol]
  have hfuel' : (if scl ≤ scl then fs.nFatent - 1 - scl + scl else scl - scl) ≤ fuel := by
    rw [if_pos (Nat.le_refl scl)]
    omega
  rw [← hn] at hscl'
  obtain ⟨r, fs₁, hloop, hshow₁, hfound⟩ := findLoop_shows hshow₀.valid hscl hscl' hscl hscl' hfuel' fun c _ _ hv => by
    unfold Visited at hv
    rw [if_pos (Nat.le_refl scl)] at hv
    omega
  have hshow := hshow₀.trans hshow₁
  have hfound := hfound.of_shows hshow₀ hp
  unfold allocate
  rw [hloop]
  cases r with
  | error cs =>
    refine ⟨_, _, rfl, ?_⟩
    obtain rfl | ⟨rfl, hbad⟩ | ⟨rfl, hf⟩ := hfound.error cs rfl
    · exact .full (hfound.full rfl) hshow
    · exact .invalid (.inr hbad) hshow
    · exact .failed hf hshow.keeps hshow.free fun _ => .inl (hshow.fat hp)
  | ok ncl =>
    obtain ⟨hge, hlt, hfree⟩ := hfound.ok ncl rfl
    exact ⟨_, _, rfl, linkChain_created h hshow hclst hge hlt hfree hend rfl⟩

/-- **Allocation.** The function returns: the next cluster, or a free one if there is one. -/
theorem createChain_created (h : fs.Valid) (hclst : clst = 0 ∨ 2 ≤ clst ∧ clst < fs.nFatent)
    (hfuel : fs.nFatent ≤ fuel) : ∃ r fs', fs.createChain clst fuel = some (r, fs') ∧ fs.Created fs' clst r := by
  have hp := h.placed
  have hn := hp.clusters
  have hlast := hp.last
  unfold createChain
  by_cases hc : clst = 0
  · rw [if_pos hc]
    refine allocate_created h (Shows.refl h) hclst ?_ ?_ (.inl hc) hfuel
    · split_ifs <;> omega
    · split_ifs <;> omega
  · rw [if_neg hc]
    obtain ⟨hge, hlt⟩ := hclst.resolve_left hc
    rcases hget : fs.getFat clst with ⟨cs, fs₁⟩
    obtain ⟨hshow, hcs⟩ := getFat_shows h hge hlt hget
    have halloc : fs.nFatent ≤ fs.fat clst ∨ fs.drv.faults ≠ [] →
        ∃ r fs', fs₁.allocate clst clst fuel = some (r, fs') ∧ fs.Created fs' clst r := fun hend =>
      allocate_created h hshow hclst (by omega) hlt (.inr hend) hfuel
    simp only [hshow.vol]
    obtain rfl | ⟨rfl, hf⟩ := hcs
    · split_ifs with h2 hnext
      · exact ⟨_, _, rfl, .invalid (.inl ⟨hc, h2⟩) hshow⟩
      · exact ⟨_, _, rfl, .follows hc (by omega) hnext hshow⟩
      · exact halloc (.inl (by omega))
    · have hle : fs.entryBound ≤ 2 ^ 28 := by unfold Volume.entryBound; split <;> decide
      rw [if_neg (by decide), if_neg (by omega)]
      exact halloc (.inr hf.ne_nil)

/-! ## Where the window is -/

theorem near_findLoop {r : Except ℕ ℕ} (hp : fs.Placed) (h : findLoop scl fuel ncl fs = some (r, fs')) :
    fs.Near fs' := by
  induction fuel generalizing ncl fs with
  | zero => simp [findLoop] at h
  | succ fuel ih =>
    unfold findLoop at h
    obtain ⟨next, hnext⟩ : ∃ next, (if fs.nFatent ≤ ncl + 1 then 2 else ncl + 1) = next := ⟨_, rfl⟩
    simp only [hnext] at h
    have hget : fs.Near (fs.getFat next).2 := near_getFat hp
    split_ifs at h
    · obtain ⟨-, rfl⟩ := Prod.mk.inj (Option.some.inj h)
      exact Near.refl fs
    · obtain ⟨-, rfl⟩ := Prod.mk.inj (Option.some.inj h)
      exact hget
    · obtain ⟨-, rfl⟩ := Prod.mk.inj (Option.some.inj h)
      exact hget
    · obtain ⟨-, rfl⟩ := Prod.mk.inj (Option.some.inj h)
      exact hget
    · exact hget.trans (ih (hget.vol ▸ hp) h)

theorem near_taken : fs.Near (fs.taken ncl) := by unfold taken; split_ifs <;> exact ⟨rfl, .inl rfl⟩

theorem near_linkChain (hp : fs.Placed) : fs.Near (fs.linkChain clst ncl).2 := by
  have hput : fs.Near (fs.putFat ncl 0x0FFFFFFF).2 := near_putFat hp
  unfold linkChain
  rcases hres : fs.putFat ncl 0x0FFFFFFF with ⟨res, fs₁⟩
  rw [hres] at hput
  have hput' : fs₁.Near (fs₁.putFat clst ncl).2 := near_putFat (hput.vol ▸ hp)
  simp only
  split_ifs
  · exact (hput.trans hput').trans near_taken
  · exact hput.trans hput'
  · exact hput.trans hput'
  · exact hput.trans near_taken
  · exact hput
  · exact hput

theorem near_allocate (hp : fs.Placed) (h : fs.allocate clst scl fuel = some (r, fs')) : fs.Near fs' := by
  unfold allocate at h
  rcases hloop : findLoop scl fuel scl fs with _ | ⟨_ | ncl, fs₁⟩
  · simp [hloop] at h
  · rw [hloop] at h
    obtain ⟨-, rfl⟩ := Prod.mk.inj (Option.some.inj h)
    exact near_findLoop hp hloop
  · rw [hloop] at h
    have hfind := near_findLoop hp hloop
    have hlink : fs₁.Near (fs₁.linkChain clst ncl).2 := near_linkChain (hfind.vol ▸ hp)
    rw [Option.some.inj h] at hlink
    exact hfind.trans hlink

theorem near_createChain (hp : fs.Placed) (h : fs.createChain clst fuel = some (r, fs')) : fs.Near fs' := by
  unfold createChain at h
  split_ifs at h with hc
  · exact near_allocate hp h
  · exact near_allocate hp h
  · have hget : fs.Near (fs.getFat clst).2 := near_getFat hp
    simp only at h
    split_ifs at h
    · obtain ⟨-, rfl⟩ := Prod.mk.inj (Option.some.inj h)
      exact hget
    · obtain ⟨-, rfl⟩ := Prod.mk.inj (Option.some.inj h)
      exact hget
    · exact hget.trans (near_allocate (hget.vol ▸ hp) h)

/-! ## Removal -/

theorem Keeps.given (h : fs.Keeps fs') : fs.Keeps fs'.given := by
  unfold FATFS.given
  split_ifs
  · exact h.info fs'.lastClust _ _
  · exact h

theorem fat_given : fs.given.fat = fs.fat := by unfold given; split_ifs <;> rfl

theorem freeClust_given : fs.given.freeClust =
    if fs.freeClust = 0xFFFFFFFF then fs.freeClust else (fs.freeClust + 1) % 2 ^ 32 := by
  unfold given
  by_cases h : fs.freeClust = 0xFFFFFFFF
  · rw [if_neg (not_not.2 h), if_pos h]
  · rw [if_pos h, if_neg h]

theorem removeLoop_of_le (hn : fs.nFatent ≤ clst) : removeLoop (fuel + 1) clst fs = some (.FR_OK, fs) := by
  rw [removeLoop, if_neg (by omega)]

/-- One pass of the loop: the cluster is free or is no part of a chain, a transfer fails, or the cluster is freed. -/
theorem removeLoop_step (h : fs.Valid) (hge : 2 ≤ clst) (hlt : clst < fs.nFatent) :
    (∃ fs', removeLoop (fuel + 1) clst fs = some (.FR_OK, fs') ∧ fs.Shows fs' ∧ fs.fat clst = 0) ∨
    (∃ fs', removeLoop (fuel + 1) clst fs = some (.FR_INT_ERR, fs') ∧ fs.Shows fs' ∧ fs.fat clst = 1) ∨
    (∃ fs', removeLoop (fuel + 1) clst fs = some (.FR_DISK_ERR, fs') ∧ fs.Keeps fs' ∧ fs'.freeClust = fs.freeClust ∧
      fs.drv.faults ≠ [] ∧ (fs.fsType ≠ .FS_FAT12 → fs'.fat = fs.fat)) ∨
    (∃ fs', removeLoop (fuel + 1) clst fs = removeLoop fuel (fs.fat clst) fs'.given ∧ 2 ≤ fs.fat clst ∧
      fs.Keeps fs' ∧ fs'.freeClust = fs.freeClust ∧ fs'.fat = Function.update fs.fat clst 0) := by
  have hp := h.placed
  have hlt28 := fat_lt (c := clst) hp
  rw [removeLoop, if_pos hlt]
  rcases hget : fs.getFat clst with ⟨nxt, fs₁⟩
  obtain ⟨hshow, rfl | ⟨rfl, hf⟩⟩ := getFat_shows h hge hlt hget
  · rcases hput : fs₁.putFat clst 0 with ⟨res, fs₂⟩
    have hput' := putFat_shows hshow.valid hge (by rwa [hshow.vol]) hput
    have hkeep := hshow.keeps.trans hput'.keeps
    have hfree := hput'.free.trans hshow.free
    simp only [hput]
    split_ifs with h0 h1 h2 hres
    · exact .inl ⟨_, rfl, hshow, h0⟩
    · exact .inr (.inl ⟨_, rfl, hshow, h1⟩)
    · omega
    · obtain ⟨rfl, -⟩ | ⟨rfl, hf, hfat⟩ := hput'.cases
      · exact absurd rfl hres
      · refine .inr (.inr (.inl ⟨fs₂, rfl, hkeep, hfree, fun hnil => hf (hshow.faults hnil), fun hty => ?_⟩))
        rw [hfat (by rwa [hshow.vol]), hshow.fat hp]
    · obtain ⟨-, hfat⟩ | ⟨hres', -⟩ := hput'.cases
      · rw [hshow.fat hp, Nat.zero_mod] at hfat
        exact .inr (.inr (.inr ⟨fs₂, rfl, by omega, hkeep, hfree, hfat⟩))
      · exact absurd (not_not.1 hres) (by rw [hres']; decide)
  · exact .inr (.inr (.inl ⟨fs₁, rfl, hshow.keeps, hshow.free, hf.ne_nil, fun _ => hshow.fat hp⟩))

/-- The clusters that are not free. -/
def used (fs : FATFS) : Finset ℕ := {c ∈ Finset.range fs.nFatent | fs.fat c ≠ 0}

/-- **Termination.** Every pass frees a cluster, so the loop ends whatever the FAT holds. -/
theorem removeLoop_total (h : fs.Valid) (hge : 2 ≤ clst) (hfuel : fs.used.card < fuel) :
    ∃ res fs', removeLoop fuel clst fs = some (res, fs') ∧ fs.Keeps fs' := by
  induction fuel generalizing clst fs with
  | zero => omega
  | succ fuel ih =>
    by_cases hlt : clst < fs.nFatent
    · obtain ⟨fs', hres, hshow, -⟩ | ⟨fs', hres, hshow, -⟩ | ⟨fs', hres, hkeep, -⟩ |
        ⟨fs', hres, hnxt, hkeep, -, hfat⟩ := removeLoop_step h hge hlt
      · exact ⟨_, _, hres, hshow.keeps⟩
      · exact ⟨_, _, hres, hshow.keeps⟩
      · exact ⟨_, _, hres, hkeep⟩
      · have hkeep' := hkeep.given
        have hlt_card : fs'.given.used.card < fs.used.card := by
          refine Finset.card_lt_card ((Finset.ssubset_iff_of_subset fun c hc => ?_).2 ⟨clst, ?_, ?_⟩)
          · simp only [used, fat_given, hfat, hkeep'.vol, Finset.mem_filter, Finset.mem_range] at hc ⊢
            exact ⟨hc.1, fun h0 => hc.2 (by simp [Function.update_apply, h0])⟩
          · simp only [used, Finset.mem_filter, Finset.mem_range]
            exact ⟨hlt, by omega⟩
          · simp [used, fat_given, hfat]
        obtain ⟨res, fs'', hres', hkeep''⟩ := ih hkeep'.valid hnxt (by omega)
        exact ⟨res, fs'', hres.trans hres', hkeep'.trans hkeep''⟩
    · exact ⟨_, _, removeLoop_of_le (by omega), (Shows.refl h).keeps⟩

/-- `removeChain` returns for every cluster and every FAT, and nothing outside the FAT is changed. -/
theorem removeChain_total (h : fs.Valid) (clst : ℕ) :
    ∃ res fs', fs.removeChain clst (fs.nFatent + 1) = some (res, fs') ∧ fs.Keeps fs' := by
  unfold removeChain
  split_ifs with hc
  · exact ⟨_, _, rfl, (Shows.refl h).keeps⟩
  · refine removeLoop_total h (by omega) (Nat.lt_succ_of_le ?_)
    exact (Finset.card_filter_le _ _).trans (Finset.card_range _).le

/-- Two clusters that are linked to each other. -/
def looped : FATFS := (((blank smallVolume).putFat 2 3).2.putFat 3 2).2

theorem looped_valid : looped.Valid := by
  have h := putFat_shows (blank_valid smallVolume_placed (by decide)) (Nat.le_refl 2) (by decide)
    (Prod.mk.eta.symm : (blank smallVolume).putFat 2 3 = (_, _))
  exact (putFat_shows h.keeps.valid (Nat.le_succ 2) (by rw [h.keeps.vol]; decide) Prod.mk.eta.symm).keeps.valid

theorem removeChain_total_looped : ∃ res fs', looped.removeChain 2 (looped.nFatent + 1) = some (res, fs') ∧
    looped.Keeps fs' := removeChain_total looped_valid 2

end FATFS

end Miosix
