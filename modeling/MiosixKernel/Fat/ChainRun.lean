import MiosixKernel.Fat.Chain
import MiosixKernel.Lib.Chains

/-!
# Runs of allocations

The callers of `create_chain` and `remove_chain` keep the first cluster of every file and directory. The FAT is as
they believe: their clusters are linked as they were handed out, no cluster is in two files, and all others are free.

* `ChainOp.exec`: a call, with the clusters of every file as the callers learn them;
* `FATFS.Allocated`: the FAT holds these chains, and some that were lost;
* **`exec_allocated`**, **`run_allocated`**: over every run, whichever transfers fail;
* **`run_exact`**: when none fails, nothing is lost and the count of free clusters is right.
-/

namespace Miosix

open Lib

/-! ## The calls -/

inductive ChainOp where
  /-- A new chain. -/
  | create
  /-- The cluster after the one at position `j` of file `i`. -/
  | stretch (i j : ℕ)
  /-- The clusters of file `i` are freed. -/
  | remove (i : ℕ)
  deriving DecidableEq

/-- The clusters of a file, with the one that was handed out for the one after position `j`. -/
def extendAt (l : List ℕ) (j r : ℕ) : List ℕ :=
  if l[j + 1]? = some r then l else l.take (j + 1) ++ [r]

def ChainOp.exec (op : ChainOp) (s : FATFS × List (List ℕ)) : Option (FATFS × List (List ℕ)) :=
  let (fs, files) := s
  match op with
  | .create =>
    (fs.createChain 0 fs.nFatent).map fun (r, fs) =>
      (fs, if 2 ≤ r ∧ r < fs.nFatent then files ++ [[r]] else files)
  | .stretch i j =>
    match (files.getD i [])[j]? with
    | none => some (fs, files)
    | some clst =>
      (fs.createChain clst fs.nFatent).map fun (r, fs) =>
        (fs, if 2 ≤ r ∧ r < fs.nFatent then files.set i (extendAt (files.getD i []) j r) else files)
  | .remove i =>
    match (files.getD i []).head? with
    | none => some (fs, files)
    | some clst => (fs.removeChain clst fs.nFatent).map fun (_, fs) => (fs, files.set i [])

def runChains : List ChainOp → FATFS × List (List ℕ) → Option (FATFS × List (List ℕ))
  | [], s => some s
  | op :: ops, s => (op.exec s).bind (runChains ops)

namespace FATFS

/-! ## The links -/

/-- An entry as a link. -/
def link (n v : ℕ) : Option (Option ℕ) := if v = 0 then none else if n ≤ v then some none else some (some v)

def links (fs : FATFS) (c : ℕ) : Option (Option ℕ) := link fs.nFatent (fs.fat c)

/-- The FAT holds these chains. -/
structure Allocated (fs : FATFS) (cs : List (List ℕ)) : Prop where
  valid : fs.Valid
  chains : Chains fs.links cs

/-- The counter of free clusters is right, or says that it is not known. -/
def Counted (fs : FATFS) (cs : List (List ℕ)) : Prop :=
  fs.freeClust = 0xFFFFFFFF ∨ fs.freeClust + cs.flatten.length + 2 = fs.nFatent

variable {fs fs' : FATFS} {c v clst r fuel : ℕ} {l a b : List ℕ} {cs cs' : List (List ℕ)}

theorem links_eq_none : fs.links c = none ↔ fs.fat c = 0 := by
  unfold links link
  split_ifs with h0 <;> simp [h0]

theorem links_update (hvol : fs'.toVolume = fs.toVolume) (hfat : fs'.fat = Function.update fs.fat c v) :
    fs'.links = Function.update fs.links c (link fs.nFatent v) := by
  funext x
  unfold links
  rw [hfat, hvol]
  by_cases hx : x = c
  · rw [hx, Function.update_self, Function.update_self]
  · rw [Function.update_of_ne hx, Function.update_of_ne hx]

theorem links_congr (hvol : fs'.toVolume = fs.toVolume) (hfat : fs'.fat = fs.fat) : fs'.links = fs.links := by
  funext x
  rw [links, links, hfat, hvol]

theorem mem_range_of_links (h : fs.links c ≠ none) : 2 ≤ c ∧ c < fs.nFatent := by
  by_contra hc
  exact h (links_eq_none.2 (if_neg hc))

/-- A cluster that is linked is followed by another one of the FAT, or ends its chain. -/
theorem Allocated.fat_eq (h : fs.Allocated ((a ++ c :: b) :: cs)) :
    2 ≤ c ∧ c < fs.nFatent ∧ (b = [] ∧ fs.nFatent ≤ fs.fat c ∨ ∃ y b', b = y :: b' ∧ fs.fat c = y ∧ 2 ≤ y ∧ y < fs.nFatent) := by
  have hlink := (h.chains.linked _ List.mem_cons_self).links_eq
  have hused : fs.links c ≠ none := by
    rw [hlink]
    simp
  obtain ⟨hge, hlt⟩ := mem_range_of_links hused
  refine ⟨hge, hlt, ?_⟩
  unfold links link at hlink
  cases b with
  | nil =>
    split_ifs at hlink with h0 h1
    · exact .inl ⟨rfl, h1⟩
    · simp at hlink
  | cons y b =>
    split_ifs at hlink with h0 h1
    · simp at hlink
    · have hy : fs.links y ≠ none := (h.chains.used y).2 (by simp)
      obtain ⟨hyge, hylt⟩ := mem_range_of_links hy
      exact .inr ⟨y, b, rfl, by simpa using hlink, hyge, hylt⟩

/-- The entry of a cluster is the next one of its chain, or ends it. -/
theorem Allocated.next {j : ℕ} (h : fs.Allocated (l :: cs)) (hc : l[j]? = some c) :
    (l[j + 1]? = none ∧ fs.nFatent ≤ fs.fat c) ∨ l[j + 1]? = some (fs.fat c) := by
  obtain ⟨hj, hget⟩ := List.getElem?_eq_some_iff.1 hc
  have hsplit : l = l.take j ++ c :: l.drop (j + 1) := by rw [← hget, List.getElem_cons_drop, List.take_append_drop]
  rw [hsplit] at h
  obtain ⟨-, -, ⟨hnil, hend⟩ | ⟨y, b, hb, hy, -⟩⟩ := h.fat_eq
  · exact .inl ⟨List.getElem?_eq_none (List.drop_eq_nil_iff.1 hnil), hend⟩
  · refine .inr ?_
    rw [hy, ← List.head?_drop, hb]
    rfl

theorem length_of_nodup {n : ℕ} (hn : 2 ≤ n) (hnd : l.Nodup) (hmem : ∀ c ∈ l, 2 ≤ c ∧ c < n) : l.length + 2 ≤ n := by
  have hsub : l ⊆ List.range' 2 (n - 2) := fun c hc => by
    have := hmem c hc
    rw [List.mem_range'_1]
    omega
  have := (hnd.subperm hsub).length_le
  rw [List.length_range'] at this
  omega

theorem Allocated.mem_range (h : fs.Allocated cs) (hc : c ∈ cs.flatten) : 2 ≤ c ∧ c < fs.nFatent :=
  mem_range_of_links ((h.chains.used c).2 hc)

theorem Allocated.length_le (h : fs.Allocated cs) : cs.flatten.length + 2 ≤ fs.nFatent :=
  length_of_nodup (by have := h.valid.placed.clusters; omega) h.chains.nodup fun _ => h.mem_range

/-- With a free cluster, not all of them are counted. -/
theorem Allocated.length_lt (h : fs.Allocated cs) (hge : 2 ≤ r) (hlt : r < fs.nFatent) (hfree : fs.fat r = 0) :
    cs.flatten.length + 3 ≤ fs.nFatent := by
  have hnd : (r :: cs.flatten).Nodup := List.nodup_cons.2 ⟨h.chains.notMem (links_eq_none.2 hfree), h.chains.nodup⟩
  refine length_of_nodup (by omega) hnd fun c hc => ?_
  rcases List.mem_cons.1 hc with rfl | hc
  · exact ⟨hge, hlt⟩
  · exact h.mem_range hc

/-- A chain has no entry 1. -/
theorem Allocated.fat_ne_one (h : fs.Allocated cs) (c : ℕ) : fs.fat c ≠ 1 := by
  intro hc
  have hn := h.valid.placed.clusters
  have hlink : fs.links c = some (some 1) := by
    rw [links, hc, link, if_neg (by decide), if_neg (by omega)]
  obtain ⟨l, hl, hmem⟩ := List.mem_flatten.1 ((h.chains.used c).1 (by rw [hlink]; simp))
  obtain ⟨a, b, rfl⟩ := List.append_of_mem hmem
  have hnext := ((h.chains.linked _ hl).links_eq.symm.trans hlink)
  obtain ⟨y, b', rfl⟩ : ∃ y b', b = y :: b' := by cases b <;> simp_all
  obtain rfl : y = 1 := by simpa using hnext
  have := mem_range_of_links ((h.chains.used 1).2 (List.mem_flatten.2 ⟨_, hl, by simp⟩))
  omega

theorem Allocated.perm (h : fs.Allocated cs) (hp : cs.Perm cs') : fs.Allocated cs' := ⟨h.valid, h.chains.perm hp⟩

theorem Allocated.of_keeps (h : fs.Allocated cs) (hkeep : fs.Keeps fs') (hfat : fs'.fat = fs.fat) :
    fs'.Allocated cs := ⟨hkeep.valid, by rw [links_congr hkeep.vol hfat]; exact h.chains⟩

theorem Allocated.of_shows (h : fs.Allocated cs) (hshow : fs.Shows fs') : fs'.Allocated cs :=
  h.of_keeps hshow.keeps (hshow.fat h.valid.placed)

/-- Nothing is allocated on a volume of zeros. -/
theorem blank_allocated {v : Volume} (h : v.Placed) (hpos : 0 < v.fatbase) : (blank v).Allocated [] := by
  refine ⟨blank_valid h hpos, fun _ hl => by simp at hl, List.nodup_nil, fun c => ?_⟩
  simp [links, link, fat_blank]

theorem Counted.perm (h : fs.Counted cs) (hp : cs.flatten.length = cs'.flatten.length) : fs.Counted cs' := by
  unfold Counted at *
  rwa [← hp]

theorem Counted.of_eq (h : fs.Counted cs) (hvol : fs'.toVolume = fs.toVolume) (hfree : fs'.freeClust = fs.freeClust) :
    fs'.Counted cs := by
  unfold Counted at *
  rwa [hfree, hvol]

/-- The transfers of this volume cannot leave half of an entry. -/
def Whole (fs : FATFS) : Prop := fs.fsType ≠ .FS_FAT12 ∨ fs.drv.faults = []

theorem Whole.of_keeps (h : fs.Whole) (hkeep : fs.Keeps fs') : fs'.Whole := by
  unfold Whole at *
  rw [hkeep.vol]
  exact h.imp_right hkeep.faults

/-! ## One call -/

theorem link_eoc (hp : fs.Placed) : link fs.nFatent fs.eoc = some none := by
  have := le_eoc hp
  have := hp.clusters
  rw [link, if_neg (by omega), if_pos (by omega)]

theorem link_of_lt (hge : 2 ≤ r) (hlt : r < fs.nFatent) : link fs.nFatent r = some (some r) := by
  rw [link, if_neg (by omega), if_neg (by omega)]

theorem eoc_not_mem (hp : fs.Placed) : ¬ (2 ≤ 0xFFFFFFFF ∧ 0xFFFFFFFF < fs.nFatent) := by
  have hle : fs.entryBound ≤ 2 ^ 28 := by unfold Volume.entryBound; split <;> decide
  have := hp.last
  omega

/-- The answer of a call that may hand out a cluster: the chain with it, or as it was. -/
structure Answered (fs fs' : FATFS) (old new : List ℕ) (cs : List (List ℕ)) (r : ℕ) : Prop where
  keeps : fs.Keeps fs'
  answer : (2 ≤ r ∧ r < fs.nFatent) ∨ (r = 0 ∧ ∀ c, 2 ≤ c → c < fs.nFatent → fs'.fat c ≠ 0) ∨
    (r = 0xFFFFFFFF ∧ fs.drv.faults ≠ [])
  grows : fs.drv.faults = [] → 2 ≤ r ∧ r < fs.nFatent → old <+: new
  chains : ∃ lost, fs'.Allocated ((if 2 ≤ r ∧ r < fs.nFatent then new else old) :: lost ++ cs) ∧
    (∀ c ∈ old, c ∈ (if 2 ≤ r ∧ r < fs.nFatent then new else old) ++ lost.flatten) ∧
    (fs.drv.faults = [] → lost.flatten = [])
  counted : fs.drv.faults = [] → fs.Counted (old :: cs) →
    fs'.Counted ((if 2 ≤ r ∧ r < fs.nFatent then new else old) :: cs)

theorem Counted.taken (h : fs.Allocated cs) (hge : 2 ≤ r) (hlt : r < fs.nFatent) (hfree : fs.fat r = 0)
    (hc : fs.Counted cs) (hvol : fs'.toVolume = fs.toVolume)
    (hcount : fs'.freeClust = if fs.freeClust = 0xFFFFFFFF then fs.freeClust else (fs.freeClust + (2 ^ 32 - 1)) % 2 ^ 32)
    (hlen : cs'.flatten.length = cs.flatten.length + 1) : fs'.Counted cs' := by
  have hlen' := h.length_lt hge hlt hfree
  have hle : fs.entryBound ≤ 2 ^ 28 := by unfold Volume.entryBound; split <;> decide
  have hlast := h.valid.placed.last
  unfold Counted at *
  rw [hvol, hcount, hlen]
  split_ifs with hu
  · exact .inl hu
  · right
    omega

/-- There is no free cluster. -/
theorem Answered.of_full {old new : List ℕ} (h : fs.Allocated (old :: cs))
    (hfull : ∀ c, 2 ≤ c → c < fs.nFatent → fs.fat c ≠ 0) (hshow : fs.Shows fs') : fs.Answered fs' old new cs 0 := by
  have hr : ¬ (2 ≤ 0 ∧ 0 < fs.nFatent) := by omega
  refine ⟨hshow.keeps, .inr (.inl ⟨rfl, ?_⟩), fun _ hr' => absurd hr' hr, ⟨[], ?_, fun c hc => ?_, fun _ => rfl⟩,
    fun _ hcnt => ?_⟩
  · rwa [hshow.fat h.valid.placed]
  · rw [if_neg hr]
    exact h.of_shows hshow
  · rw [if_neg hr]
    exact List.mem_append_left _ hc
  · rw [if_neg hr]
    exact hcnt.of_eq hshow.vol hshow.free

/-- A cluster may have been lost. -/
theorem Answered.of_failed {old new : List ℕ} (h : fs.Allocated (old :: cs)) (hw : fs.Whole) (hf : fs.drv.faults ≠ [])
    (hkeep : fs.Keeps fs') (hfat : fs.fsType ≠ .FS_FAT12 → fs'.fat = fs.fat ∨
      ∃ r, 2 ≤ r ∧ r < fs.nFatent ∧ fs.fat r = 0 ∧ fs'.fat = Function.update fs.fat r fs.eoc) :
    fs.Answered fs' old new cs 0xFFFFFFFF := by
  have hp := h.valid.placed
  refine ⟨hkeep, .inr (.inr ⟨rfl, hf⟩), fun hnil => absurd hnil hf, ?_, fun hnil => absurd hnil hf⟩
  rw [if_neg (eoc_not_mem hp)]
  obtain hfat | ⟨r, -, -, hfree, hfat⟩ := hfat (hw.resolve_right hf)
  · exact ⟨[], h.of_keeps hkeep hfat, fun c hc => List.mem_append_left _ hc, fun _ => rfl⟩
  · have hlinks := links_update hkeep.vol hfat
    rw [link_eoc hp] at hlinks
    refine ⟨[[r]], ?_, fun c hc => List.mem_append_left _ hc, fun hnil => absurd hnil hf⟩
    have hadd : fs'.Allocated ([r] :: old :: cs) := ⟨hkeep.valid, hlinks ▸ h.chains.add (links_eq_none.2 hfree)⟩
    exact hadd.perm (List.Perm.swap ..)

/-- `create_chain(fs, 0)` -/
theorem Created.answered (h : fs.Allocated cs) (hw : fs.Whole) (hc : fs.Created fs' 0 r) :
    fs.Answered fs' [] [r] cs r := by
  have hp := h.valid.placed
  have h' : fs.Allocated ([] :: cs) := ⟨h.valid, h.chains.nil⟩
  cases hc with
  | follows hc => exact absurd rfl hc
  | new hge hlt hfree hend hkeep hfat hcount =>
    have hlinks : fs'.links = Function.update fs.links r (link fs.nFatent fs.eoc) := links_update hkeep.vol hfat
    rw [link_eoc hp] at hlinks
    refine ⟨hkeep, .inl ⟨hge, hlt⟩, fun _ _ => List.nil_prefix, ⟨[], ?_, fun c hc => by simp at hc, fun _ => rfl⟩,
      fun _ hcnt => ?_⟩
    · rw [if_pos ⟨hge, hlt⟩]
      exact ⟨hkeep.valid, hlinks ▸ h.chains.add (links_eq_none.2 hfree)⟩
    · rw [if_pos ⟨hge, hlt⟩]
      exact Counted.taken h hge hlt hfree hcnt hkeep.vol hcount (by simp)
  | full hfull hshow => exact .of_full h' hfull hshow
  | invalid hbad hshow =>
    obtain ⟨h0, -⟩ | ⟨c, -, -, hc⟩ := hbad
    · exact absurd rfl h0
    · exact absurd hc (h.fat_ne_one c)
  | failed hf hkeep hcount hfat => exact .of_failed h' hw hf hkeep hfat

theorem extendAt_next {y z : ℕ} {b' : List ℕ} : extendAt (a ++ y :: z :: b') a.length z = a ++ y :: z :: b' := by
  rw [extendAt, if_pos]
  simp

theorem extendAt_new {y : ℕ} (hr : r ∉ b) : extendAt (a ++ y :: b) a.length r = a ++ [y, r] := by
  have hne : (a ++ y :: b)[a.length + 1]? ≠ some r := by
    rw [List.getElem?_append_right (by omega), Nat.add_sub_cancel_left, List.getElem?_cons_succ]
    exact fun heq => hr (List.mem_of_getElem? heq)
  rw [extendAt, if_neg hne, List.take_append]
  simp

/-- `create_chain(fs, clst)`, with a cluster of a chain. -/
theorem Created.answered_of_mem {y : ℕ} (h : fs.Allocated ((a ++ y :: b) :: cs)) (hw : fs.Whole)
    (hc : fs.Created fs' y r) : fs.Answered fs' (a ++ y :: b) (extendAt (a ++ y :: b) a.length r) cs r := by
  have hp := h.valid.placed
  obtain ⟨hyge, hylt, hnext⟩ := h.fat_eq
  cases hc with
  | follows hc hge hlt hshow =>
    obtain ⟨-, hend⟩ | ⟨z, b', rfl, hz, hzge, hzlt⟩ := hnext
    · omega
    · rw [hz]
      refine ⟨hshow.keeps, .inl ⟨hzge, hzlt⟩, fun _ _ => ?_, ⟨[], ?_, fun c hc => ?_, fun _ => rfl⟩, fun _ hcnt => ?_⟩
      · rw [extendAt_next]
      · rw [if_pos ⟨hzge, hzlt⟩, extendAt_next]
        exact h.of_shows hshow
      · rw [if_pos ⟨hzge, hzlt⟩, extendAt_next]
        exact List.mem_append_left _ hc
      · rw [if_pos ⟨hzge, hzlt⟩, extendAt_next]
        exact hcnt.of_eq hshow.vol hshow.free
  | new hge hlt hfree hend hkeep hfat hcount =>
    have hmem := h.chains.notMem (links_eq_none.2 hfree)
    have hrb : r ∉ b := fun hb => hmem (by simp [hb])
    have hlinks : fs'.links = Function.update (Function.update fs.links r (some none)) y (some (some r)) := by
      have hcomp : fs'.links = link fs.nFatent ∘ fs'.fat := by rw [← hkeep.vol]; rfl
      rw [hcomp, hfat, linked, if_neg (by omega), Function.comp_update, Function.comp_update, link_eoc hp,
        link_of_lt hge hlt]
      rfl
    -- only a failing transfer hides the rest of the chain
    have hb : fs.drv.faults = [] → b = [] := by
      intro hnil
      obtain ⟨rfl, -⟩ | ⟨z, b', rfl, hz, hzge, hzlt⟩ := hnext
      · rfl
      · rcases hend with h0 | hend | hf
        · omega
        · omega
        · exact absurd hnil hf
    refine ⟨hkeep, .inl ⟨hge, hlt⟩, fun hnil _ => ?_, ⟨[b], ?_, fun c hc => ?_, fun hnil => ?_⟩, fun hnil hcnt => ?_⟩
    · rw [extendAt_new hrb, hb hnil]
      exact ⟨[r], by simp⟩
    · rw [if_pos ⟨hge, hlt⟩, extendAt_new hrb]
      exact ⟨hkeep.valid, hlinks ▸ h.chains.link (links_eq_none.2 hfree)⟩
    · rw [if_pos ⟨hge, hlt⟩, extendAt_new hrb]
      simp only [List.mem_append, List.mem_cons] at hc ⊢
      obtain hc | hc | hc := hc <;> simp [hc]
    · rw [hb hnil]
      rfl
    · rw [if_pos ⟨hge, hlt⟩, extendAt_new hrb]
      refine Counted.taken h hge hlt hfree hcnt hkeep.vol hcount ?_
      rw [hb hnil]
      simp only [List.flatten_cons, List.length_append, List.length_cons, List.length_nil]
      omega
  | full hfull hshow => exact .of_full h hfull hshow
  | invalid hbad hshow =>
    have := hp.clusters
    obtain ⟨-, h1⟩ | ⟨c, -, -, hc⟩ := hbad
    · obtain ⟨-, hend⟩ | ⟨z, b', rfl, hz, hzge, hzlt⟩ := hnext
      · omega
      · omega
    · exact absurd hc (h.fat_ne_one c)
  | failed hf hkeep hcount hfat => exact .of_failed h hw hf hkeep hfat

theorem Counted.given (hne : l ≠ []) (h : fs.Allocated (l :: cs)) (hc : fs.Counted (l :: cs))
    (hvol : fs'.toVolume = fs.toVolume) (hfree : fs'.freeClust = fs.freeClust) : fs'.given.Counted (l.tail :: cs) := by
  have hle : fs.entryBound ≤ 2 ^ 28 := by unfold Volume.entryBound; split <;> decide
  have hlast := h.valid.placed.last
  have hvol' : fs'.given.nFatent = fs.nFatent := by rw [← hvol]; unfold FATFS.given; split_ifs <;> rfl
  have hlen := List.length_pos_iff.2 hne
  unfold Counted at *
  rw [hvol', freeClust_given, hfree]
  simp only [List.flatten_cons, List.length_append, List.length_tail] at hc ⊢
  split_ifs with hu
  · exact .inl hu
  · right
    omega

/-- The clusters are freed from the first one on, until a transfer fails. -/
theorem removeLoop_allocated (h : fs.Allocated (l :: cs)) (hw : fs.Whole)
    (hstart : l = [] ∧ fs.nFatent ≤ clst ∨ l.head? = some clst) (hfuel : l.length < fuel) :
    ∃ res fs' rest, removeLoop fuel clst fs = some (res, fs') ∧ fs.Keeps fs' ∧ fs'.Allocated (rest :: cs) ∧
      (fs.drv.faults = [] → rest = [] ∧ (fs.Counted (l :: cs) → fs'.Counted cs)) := by
  induction l generalizing fs clst fuel with
  | nil =>
    obtain ⟨fuel, rfl⟩ : ∃ k, fuel = k + 1 := ⟨fuel - 1, by omega⟩
    have hle := (hstart.resolve_right (by simp)).2
    exact ⟨_, _, [], removeLoop_of_le hle, (Shows.refl h.valid).keeps, h, fun _ => ⟨rfl, fun hc => hc.perm (by simp)⟩⟩
  | cons x l ih =>
    obtain ⟨fuel, rfl⟩ : ∃ k, fuel = k + 1 := ⟨fuel - 1, by omega⟩
    obtain rfl : x = clst := by simpa using hstart
    obtain ⟨hge, hlt, hnext⟩ := h.fat_eq (a := [])
    obtain ⟨fs', hres, hshow, h0⟩ | ⟨fs', hres, hshow, h1⟩ | ⟨fs', hres, hkeep, hcount, hf, hfat⟩ |
      ⟨fs', hres, hnxt, hkeep, hcount, hfat⟩ := removeLoop_step h.valid hge hlt
    · have := links_eq_none.2 h0
      exact absurd this ((h.chains.used x).2 (by simp))
    · exact absurd h1 (h.fat_ne_one x)
    · exact ⟨_, _, x :: l, hres, hkeep, h.of_keeps hkeep (hfat (hw.resolve_right hf)), fun hnil => absurd hnil hf⟩
    · have hlinks := links_update hkeep.given.vol (fat_given.trans hfat)
      have hkeep' := hkeep.given
      have hrel : fs'.given.Allocated (l :: cs) := ⟨hkeep'.valid, hlinks ▸ h.chains.release⟩
      have hstart' : l = [] ∧ fs'.given.nFatent ≤ fs.fat x ∨ l.head? = some (fs.fat x) := by
        rw [hkeep'.vol]
        obtain ⟨rfl, hend⟩ | ⟨y, b', rfl, hy, -⟩ := hnext
        · exact .inl ⟨rfl, hend⟩
        · exact .inr (by rw [hy]; rfl)
      rw [List.length_cons] at hfuel
      obtain ⟨res, fs'', rest, hres', hkeep'', halloc, hexact⟩ :=
        ih hrel (hw.of_keeps hkeep') hstart' (Nat.lt_of_succ_lt_succ hfuel)
      refine ⟨res, fs'', rest, hres.trans hres', hkeep'.trans hkeep'', halloc, fun hnil => ?_⟩
      obtain ⟨hrest, hcnt⟩ := hexact (hkeep'.faults hnil)
      exact ⟨hrest, fun hc => hcnt (hc.given (by simp) h hkeep.vol hcount)⟩

end FATFS

/-! ## Runs -/

section Run

variable {fs : FATFS} {files lost : List (List ℕ)}

/-- The chains of the files, with one of them first. -/
theorem perm_set {i : ℕ} (hi : i < files.length) (l : List ℕ) (lost : List (List ℕ)) :
    (files.set i l ++ lost).Perm (l :: (files.eraseIdx i ++ lost)) :=
  (List.set_perm_cons_eraseIdx hi l).append_right lost

theorem perm_getD {i : ℕ} (hi : i < files.length) (lost : List (List ℕ)) :
    (files.getD i [] :: (files.eraseIdx i ++ lost)).Perm (files ++ lost) := by
  have hset : files.set i (files.getD i []) = files := by
    rw [List.getD_eq_getElem _ _ hi, List.set_getElem_self]
  have := (perm_set hi (files.getD i []) lost).symm
  rwa [hset] at this

/-- What a call keeps: the chains of the files, and those that were lost. -/
structure Kept (fs fs' : FATFS) (files lost files' lost' : List (List ℕ)) : Prop where
  keeps : fs.Keeps fs'
  chains : fs'.Allocated (files' ++ lost')
  none : fs.drv.faults = [] → lost.flatten = [] → lost'.flatten = []
  counted : fs.drv.faults = [] → fs.Counted (files ++ lost) → fs'.Counted (files' ++ lost')

theorem Kept.refl (h : fs.Allocated (files ++ lost)) : Kept fs fs files lost files lost :=
  ⟨(FATFS.Shows.refl h.valid).keeps, h, fun _ => id, fun _ => id⟩

theorem FATFS.Counted.congr {cs cs' : List (List ℕ)} (h : fs.Counted cs) (hp : cs.Perm cs') : fs.Counted cs' :=
  h.perm hp.flatten.length_eq

/-- A call that may hand out a cluster, for a file that is taken out of the list and put back. -/
theorem Kept.of_answered {fs' : FATFS} {old new : List ℕ} {r : ℕ} {cs : List (List ℕ)}
    (files files' lost₁ : List (List ℕ)) (h : fs.Answered fs' old new cs r)
    (hold : (files ++ lost).flatten.length = (old :: cs).flatten.length)
    (hnew : ((if 2 ≤ r ∧ r < fs.nFatent then new else old) :: cs).Perm (files' ++ lost₁))
    (hlost : lost₁.flatten = lost.flatten) : ∃ lost', Kept fs fs' files lost files' lost' := by
  obtain ⟨hkeep, -, -, ⟨more, halloc, -, hmore⟩, hcnt⟩ := h
  refine ⟨lost₁ ++ more, hkeep, halloc.perm ?_, fun hnil hl => ?_, fun hnil hc => ?_⟩
  · rw [← List.append_assoc files']
    exact (List.Perm.cons _ List.perm_append_comm).trans (hnew.append_right more)
  · rw [List.flatten_append, hlost, hl, hmore hnil]
    rfl
  · refine (hcnt hnil (hc.perm hold)).perm ?_
    rw [hnew.flatten.length_eq, ← List.append_assoc files', @List.flatten_append _ (files' ++ lost₁), hmore hnil,
      List.append_nil]

theorem lt_of_getElem? {i j clst : ℕ} (h : (files.getD i [])[j]? = some clst) : i < files.length := by
  by_contra hi
  rw [List.getD_eq_default _ _ (by omega)] at h
  simp at h

theorem exists_append {i j clst : ℕ} (h : (files.getD i [])[j]? = some clst) :
    ∃ a b, files.getD i [] = a ++ clst :: b ∧ a.length = j := by
  obtain ⟨hj, hget⟩ := List.getElem?_eq_some_iff.1 h
  refine ⟨(files.getD i []).take j, (files.getD i []).drop (j + 1), ?_, List.length_take_of_le hj.le⟩
  rw [← hget, List.getElem_cons_drop, List.take_append_drop]

theorem exec_allocated (op : ChainOp) (h : fs.Allocated (files ++ lost)) (hw : fs.Whole) :
    ∃ fs' files' lost', op.exec (fs, files) = some (fs', files') ∧ Kept fs fs' files lost files' lost' := by
  cases op with
  | create =>
    obtain ⟨r, fs', hres, hc⟩ := FATFS.createChain_created h.valid (.inl rfl) (Nat.le_refl fs.nFatent)
    have hans := hc.answered h hw
    have hexec : ChainOp.create.exec (fs, files) =
        some (fs', if 2 ≤ r ∧ r < fs.nFatent then files ++ [[r]] else files) := by
      simp only [ChainOp.exec, hres, Option.map_some, hans.keeps.vol]
    by_cases hr : 2 ≤ r ∧ r < fs.nFatent
    · obtain ⟨lost', hkept⟩ := Kept.of_answered files (files ++ [[r]]) lost hans rfl
        (by rw [if_pos hr, List.append_assoc]; exact List.perm_middle.symm) rfl
      exact ⟨fs', _, lost', by rw [hexec, if_pos hr], hkept⟩
    · obtain ⟨lost', hkept⟩ := Kept.of_answered files files ([] :: lost) hans rfl
        (by rw [if_neg hr]; exact List.perm_middle.symm) rfl
      exact ⟨fs', _, lost', by rw [hexec, if_neg hr], hkept⟩
  | stretch i j =>
    cases hclst : (files.getD i [])[j]? with
    | none => exact ⟨fs, files, lost, by simp only [ChainOp.exec, hclst], .refl h⟩
    | some clst =>
      have hi := lt_of_getElem? hclst
      obtain ⟨a, b, hl, rfl⟩ := exists_append hclst
      have h' := h.perm (perm_getD hi lost).symm
      rw [hl] at h'
      obtain ⟨hge, hlt, -⟩ := h'.fat_eq
      obtain ⟨r, fs', hres, hc⟩ := FATFS.createChain_created h.valid (.inr ⟨hge, hlt⟩) (Nat.le_refl fs.nFatent)
      have hans := hc.answered_of_mem h' hw
      have hexec : (ChainOp.stretch i a.length).exec (fs, files) =
          some (fs', if 2 ≤ r ∧ r < fs.nFatent then files.set i (extendAt (files.getD i []) a.length r) else files) := by
        simp only [ChainOp.exec, hclst, hres, Option.map_some, hans.keeps.vol]
      rw [← hl] at hans
      by_cases hr : 2 ≤ r ∧ r < fs.nFatent
      · obtain ⟨lost', hkept⟩ := Kept.of_answered files
          (files.set i (extendAt (files.getD i []) a.length r)) lost hans (perm_getD hi lost).flatten.length_eq.symm
          (by rw [if_pos hr]; exact (perm_set hi _ lost).symm) rfl
        exact ⟨fs', _, lost', by rw [hexec, if_pos hr], hkept⟩
      · obtain ⟨lost', hkept⟩ := Kept.of_answered files files lost hans
          (perm_getD hi lost).flatten.length_eq.symm (by rw [if_neg hr]; exact perm_getD hi lost) rfl
        exact ⟨fs', _, lost', by rw [hexec, if_neg hr], hkept⟩
  | remove i =>
    cases hclst : (files.getD i []).head? with
    | none => exact ⟨fs, files, lost, by simp only [ChainOp.exec, hclst], .refl h⟩
    | some clst =>
      have hi := lt_of_getElem? (j := 0) (by rwa [← List.head?_eq_getElem?])
      have h' := h.perm (perm_getD hi lost).symm
      have hlen := h'.length_le
      rw [List.flatten_cons, List.length_append] at hlen
      obtain ⟨b, hb⟩ := List.head?_eq_some_iff.1 hclst
      have hclst' := h'.mem_range (c := clst) (by rw [hb]; simp)
      obtain ⟨res, fs', rest, hres, hkeep, halloc, hexact⟩ :=
        FATFS.removeLoop_allocated h' hw (.inr hclst) (show (files.getD i []).length < fs.nFatent by omega)
      have hexec : (ChainOp.remove i).exec (fs, files) = some (fs', files.set i []) := by
        simp only [ChainOp.exec, hclst, FATFS.removeChain, if_neg (show ¬ (clst < 2 ∨ fs.nFatent ≤ clst) by omega), hres,
          Option.map_some]
      have hperm : (files.set i [] ++ rest :: lost).Perm ([] :: rest :: (files.eraseIdx i ++ lost)) :=
        List.perm_middle.trans ((List.Perm.cons _ (perm_set hi [] lost)).trans (List.Perm.swap ..))
      refine ⟨fs', _, rest :: lost, hexec, hkeep, ?_, fun hnil hlost => ?_, fun hnil hc => ?_⟩
      · exact FATFS.Allocated.perm ⟨halloc.valid, halloc.chains.nil⟩ hperm.symm
      · rw [(hexact hnil).1]
        exact hlost
      · refine ((hexact hnil).2 (hc.congr (perm_getD hi lost).symm)).perm ?_
        rw [hperm.flatten.length_eq, (hexact hnil).1]
        rfl

theorem Kept.trans {fs₁ fs₂ : FATFS} {files₁ lost₁ files₂ lost₂ : List (List ℕ)}
    (h : Kept fs fs₁ files lost files₁ lost₁) (h' : Kept fs₁ fs₂ files₁ lost₁ files₂ lost₂) :
    Kept fs fs₂ files lost files₂ lost₂ where
  keeps := h.keeps.trans h'.keeps
  chains := h'.chains
  none := fun hf hl => h'.none (h.keeps.faults hf) (h.none hf hl)
  counted := fun hf hc => h'.counted (h.keeps.faults hf) (h.counted hf hc)

/-- A run returns, and the clusters of the files and the lost ones are the chains of the FAT. -/
theorem runChains_kept (ops : List ChainOp) (h : fs.Allocated (files ++ lost)) (hw : fs.Whole) :
    ∃ fs' files' lost', runChains ops (fs, files) = some (fs', files') ∧ Kept fs fs' files lost files' lost' := by
  induction ops generalizing fs files lost with
  | nil => exact ⟨fs, files, lost, rfl, .refl h⟩
  | cons op ops ih =>
    obtain ⟨fs₁, files₁, lost₁, hexec, hkept⟩ := exec_allocated op h hw
    obtain ⟨fs₂, files₂, lost₂, hrun, hkept'⟩ := ih hkept.chains (hw.of_keeps hkept.keeps)
    exact ⟨fs₂, files₂, lost₂, by rw [runChains, hexec]; exact hrun, hkept.trans hkept'⟩

/-- **The FAT over runs.** Whatever is allocated and freed, and whichever transfers fail: the clusters that were handed
out for a file are linked in the FAT as they were handed out, and no cluster is in two of them. Nothing outside the
FAT is changed. -/
theorem run_allocated (ops : List ChainOp) (h : fs.Allocated files) (hw : fs.Whole) :
    ∃ fs' files' lost, runChains ops (fs, files) = some (fs', files') ∧ fs.Keeps fs' ∧
      fs'.Allocated (files' ++ lost) := by
  have h' : fs.Allocated (files ++ []) := by rwa [List.append_nil]
  obtain ⟨fs', files', lost, hrun, hkept⟩ := runChains_kept ops h' hw
  exact ⟨fs', files', lost, hrun, hkept.keeps, hkept.chains⟩

theorem run_allocated_small : ∃ fs' files' lost,
    runChains [.create, .stretch 0 0, .create, .remove 0] (FATFS.blank FATFS.smallVolume, []) = some (fs', files') ∧
      (FATFS.blank FATFS.smallVolume).Keeps fs' ∧ fs'.Allocated (files' ++ lost) :=
  run_allocated _ (FATFS.blank_allocated FATFS.smallVolume_placed (by decide)) (.inr rfl)

/-- **The FAT without failing transfers.** Nothing is lost, the counter of free clusters is right, and once the window
is written back every copy of the FAT holds these chains. -/
theorem run_exact (ops : List ChainOp) (h : fs.Allocated files) (hf : fs.drv.faults = []) (hc : fs.Counted files)
    (hm : fs.Mirrored) :
    ∃ fs' files' fs'', runChains ops (fs, files) = some (fs', files') ∧ fs'.Allocated files' ∧ fs'.Counted files' ∧
      fs'.syncWindow = (.FR_OK, fs'') ∧
      ∀ k < fs.nFats, ∀ a, fs.fatbase ≤ a / 512 → a / 512 < fs.fatbase + fs.fsize →
        fs''.drv.bytes (a + k * (512 * fs.fsize)) = fs'.seen a := by
  have h' : fs.Allocated (files ++ []) := by rwa [List.append_nil]
  obtain ⟨fs', files', lost, hrun, hkept⟩ := runChains_kept ops h' (.inr hf)
  have hlost := hkept.none hf rfl
  have hnil := hkept.keeps.faults hf
  rcases hsync : fs'.syncWindow with ⟨res, fs''⟩
  have hshow := FATFS.syncWindow_shows hkept.chains.valid hsync
  obtain rfl := (FATFS.res_syncWindow hkept.chains.valid.toCoherent hsync).resolve_right fun hf' => hf'.2.ne_nil hnil
  have hclean := FATFS.wflag_syncWindow hkept.chains.valid.toCoherent hsync
  have hvol := hshow.vol.trans hkept.keeps.vol
  refine ⟨fs', files', fs'', hrun, ⟨hkept.chains.valid, hkept.chains.chains.of_append hlost⟩, ?_, hsync,
    fun k hk a hge hlt => ?_⟩
  · refine (hkept.counted hf (by rwa [List.append_nil])).perm ?_
    rw [List.flatten_append, hlost, List.append_nil]
  · have hcopy := hshow.mirrored hnil (hkept.keeps.mirrored hf hm)
    unfold FATFS.Mirrored at hcopy
    rw [hvol] at hcopy
    rw [hcopy k hk a hge hlt fun hw => by simp_all]
    have hplain := (FATFS.plain_of_fat h.valid.placed hge hlt).1
    rw [← hshow.valid.seen_of_clean hclean (by rwa [hvol])]
    exact hshow.seen a (by rwa [hkept.keeps.vol])

theorem run_exact_small : ∃ fs' files' fs'',
    runChains [.create, .stretch 0 0, .create, .remove 0] (FATFS.blank FATFS.smallVolume, []) = some (fs', files') ∧
      fs'.Allocated files' ∧ fs'.Counted files' ∧ fs'.syncWindow = (.FR_OK, fs'') ∧
      ∀ k < 2, ∀ a, 1 ≤ a / 512 → a / 512 < 2 → fs''.drv.bytes (a + k * 512) = fs'.seen a :=
  run_exact _ (FATFS.blank_allocated FATFS.smallVolume_placed (by decide)) rfl (.inr rfl) fun _ _ _ _ _ _ => rfl

end Run

end Miosix
