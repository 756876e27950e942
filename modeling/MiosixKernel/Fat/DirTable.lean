import MiosixKernel.Fat.Directory
import MiosixKernel.Fat.FileTransfer

/-!
# Where the entries of a directory lie

The root directory of a volume with small clusters is a range of sectors, and other directories are chains of clusters.

* `DirTable`: a table, with the addresses of its entries;
* `OpenDir.Lies`: the table of a directory, whose clusters are in no other chain;
* `At`: the directory object is at an entry;
* **`dirSdi_shown`**, **`dirNext_shown`**: moving to an entry, and to the next one;
* **`toWindow_shown`**: the entry is in the window.
-/

namespace Miosix

open Lib Volume

/-- The table of a directory. One without clusters is static. -/
structure DirTable where
  vol : Volume
  nRootdir : ℕ
  dirbase : ℕ
  clusters : List ℕ

namespace DirTable

/-- Where a byte lies. -/
def addr (T : DirTable) (o : ℕ) : ℕ := if T.clusters = [] then 512 * T.dirbase + o else T.vol.addr T.clusters o

/-- How many entries can be reached: their index has 16 bits. -/
def slots (T : DirTable) : ℕ :=
  if T.clusters = [] then T.nRootdir else min (2 ^ 16) (T.clusters.length * (16 * T.vol.csize))

/-- An entry of the table. -/
def slot (T : DirTable) (mem : ℕ → UInt8) (i : ℕ) : DirEntry := entryAt mem (T.addr (32 * i))

/-- The place of a table. -/
structure Placed (T : DirTable) : Prop where
  sized : T.vol.Sized
  range : ∀ c ∈ T.clusters, 2 ≤ c ∧ c < T.vol.nFatent
  nodup : T.clusters.Nodup
  static : T.clusters = [] → T.vol.fsType ≠ .FS_FAT32 ∧ 0 < T.nRootdir ∧ T.nRootdir < 2 ^ 16 ∧ T.nRootdir % 16 = 0 ∧
    T.vol.fatbase + T.vol.nFats * T.vol.fsize ≤ T.dirbase ∧ T.dirbase + T.nRootdir / 16 ≤ T.vol.database

/-- The directory object is at an entry. -/
structure At (T : DirTable) (dp : DIR_) (i : ℕ) : Prop where
  index : dp.index = i
  clust : dp.clust = T.clusters.getD (i / (16 * T.vol.csize)) 0
  sect : dp.sect = T.addr (32 * i) / 512
  dir : dp.dir = i % 16 * 32

variable {T : DirTable} {i o : ℕ} {l : List ℕ}

theorem slots_le : T.Placed → T.slots ≤ 2 ^ 16 := fun h => by
  unfold slots
  split_ifs with hl
  · exact (h.static hl).2.2.1.le
  · exact Nat.min_le_left _ _

theorem slots_pos (h : T.Placed) : 0 < T.slots := by
  unfold slots
  split_ifs with hl
  · exact (h.static hl).2.1
  · have hlen := List.length_pos_iff.2 hl
    have hc := h.sized.pos
    exact Nat.lt_min.2 ⟨by decide, Nat.mul_pos hlen (by omega)⟩

/-- The cluster of an entry. -/
theorem getElem?_of_lt (h : T.Placed) (hne : T.clusters ≠ []) (hi : i < T.slots) :
    ∃ c, T.clusters[i / (16 * T.vol.csize)]? = some c ∧ T.clusters.getD (i / (16 * T.vol.csize)) 0 = c ∧
      2 ≤ c ∧ c < T.vol.nFatent := by
  have hc := h.sized.pos
  have hlt : i / (16 * T.vol.csize) < T.clusters.length := by
    refine Nat.div_lt_of_lt_mul ?_
    rw [slots, if_neg hne] at hi
    rw [Nat.mul_comm]
    omega
  exact ⟨_, List.getElem?_eq_getElem hlt, List.getD_eq_getElem _ _ hlt, h.range _ (List.getElem_mem hlt)⟩

theorem entry_div (T : DirTable) (i : ℕ) : 32 * i / T.vol.bcs = i / (16 * T.vol.csize) := by
  unfold bcs
  rw [show T.vol.csize * 512 = 32 * (16 * T.vol.csize) by omega, Nat.mul_div_mul_left _ _ (by decide)]

theorem entry_mod (T : DirTable) (i : ℕ) : 32 * i % T.vol.bcs = 32 * (i % (16 * T.vol.csize)) := by
  unfold bcs
  rw [show T.vol.csize * 512 = 32 * (16 * T.vol.csize) by omega, Nat.mul_mod_mul_left]

/-- The address of an entry in a cluster. -/
theorem addr_dynamic {c : ℕ} (hne : T.clusters ≠ []) (hc : T.clusters.getD (i / (16 * T.vol.csize)) 0 = c) :
    T.addr (32 * i) = 512 * T.vol.sector c + 32 * (i % (16 * T.vol.csize)) := by
  rw [addr, if_neg hne, Volume.addr, entry_div, entry_mod, hc]

theorem addr_mod (T : DirTable) (i : ℕ) : T.addr (32 * i) % 512 = i % 16 * 32 := by
  by_cases hl : T.clusters = []
  · rw [addr, if_pos hl]
    omega
  · rw [addr_dynamic hl rfl, Nat.mul_add_mod]
    have := Nat.mod_mod_of_dvd i (Dvd.intro T.vol.csize rfl : 16 ∣ 16 * T.vol.csize)
    omega

/-- The next entry in the same cluster. -/
theorem getD_succ (h : T.Placed) (hm : (i + 1) % (16 * T.vol.csize) ≠ 0) :
    T.clusters.getD ((i + 1) / (16 * T.vol.csize)) 0 = T.clusters.getD (i / (16 * T.vol.csize)) 0 := by
  have hpos : 0 < 16 * T.vol.csize := Nat.mul_pos (by decide) h.sized.pos
  rw [← pred_div hpos hm, Nat.add_sub_cancel]

theorem addr_succ (h : T.Placed) (hm : T.clusters ≠ [] → (i + 1) % (16 * T.vol.csize) ≠ 0) :
    T.addr (32 * (i + 1)) = T.addr (32 * i) + 32 := by
  by_cases hl : T.clusters = []
  · rw [addr, addr, if_pos hl, if_pos hl]
    omega
  · have hpos : 0 < 16 * T.vol.csize := Nat.mul_pos (by decide) h.sized.pos
    have hdiv := pred_div hpos (hm hl)
    rw [Nat.add_sub_cancel] at hdiv
    have e := Nat.div_add_mod i (16 * T.vol.csize)
    have e' := Nat.div_add_mod (i + 1) (16 * T.vol.csize)
    rw [hdiv] at e
    rw [addr_dynamic hl (getD_succ h (hm hl)), addr_dynamic hl rfl]
    omega

/-- The sectors of the table are seen, and are not those of the FAT. -/
theorem sect_plain (h : T.Placed) (hi : i < T.slots) :
    T.vol.Plain (T.addr (32 * i) / 512) ∧ ¬ T.vol.InFat (T.addr (32 * i) / 512) ∧ T.addr (32 * i) / 512 < 2 ^ 32 ∧
      0 < T.addr (32 * i) / 512 := by
  have hdb := h.sized.database_pos
  have hdb' := h.sized.placed.database
  have hle : T.vol.fsize ≤ T.vol.nFats * T.vol.fsize := Nat.le_mul_of_pos_left _ h.sized.placed.fats
  by_cases hl : T.clusters = []
  · obtain ⟨hty, -, -, hmod, hge, hlt⟩ := h.static hl
    rw [slots, if_pos hl] at hi
    have hsect : T.addr (32 * i) / 512 = T.dirbase + i / 16 := by
      rw [addr, if_pos hl]
      omega
    rw [hsect]
    refine ⟨⟨fun hc => ?_, fun ht => absurd ht hty⟩, fun hf => ?_, by omega, by omega⟩
    · have := hc.2
      omega
    · have := hf.2
      omega
  · obtain ⟨c, hget, hgetD, hge, hlt⟩ := getElem?_of_lt h hl hi
    have hin : T.vol.InClust c (T.addr (32 * i) / 512) := by
      rw [addr, if_neg hl]
      exact inClust_addr h.sized (by rwa [entry_div])
    have hbase := hin.database_le
    obtain ⟨hplain, hfat⟩ := h.sized.placed.plain_of_le hbase
    have hroom := h.sized.sector_add_le hge hlt
    have hend := hin.2
    exact ⟨hplain, hfat, by omega, by omega⟩

/-- An entry lies in one sector. -/
theorem slot_eq (T : DirTable) (mem : ℕ → UInt8) (i : ℕ) :
    T.slot mem i = entryAt mem (512 * (T.addr (32 * i) / 512) + i % 16 * 32) := by
  rw [slot, ← addr_mod T i, Nat.div_add_mod]

theorem slot_congr {mem mem' : ℕ → UInt8} (h : ∀ a, a / 512 = T.addr (32 * i) / 512 → mem a = mem' a) :
    T.slot mem i = T.slot mem' i := by
  rw [slot_eq, slot_eq]
  funext k
  unfold entryAt
  split_ifs with hk
  · exact h _ (by omega)
  · rfl

end DirTable

open DirTable

/-- The directory has this table, and its clusters are in none of the other chains. -/
structure OpenDir.Lies (d : OpenDir) (T : DirTable) (others : List (List ℕ)) : Prop where
  vol : d.fs.toVolume = T.vol
  root : d.nRootdir = T.nRootdir ∧ d.dirbase = T.dirbase
  placed : T.Placed
  alloc : d.fs.Allocated (T.clusters :: others)
  static : T.clusters = [] → d.dp.sclust = 0
  start : ∀ c ∈ T.clusters.head?, if d.dp.sclust = 0 then T.vol.fsType = .FS_FAT32 ∧ T.dirbase = c else d.dp.sclust = c

namespace OpenDir

variable {d d' d'' : OpenDir} {T : DirTable} {others : List (List ℕ)} {fs' : FATFS} {dp : DIR_} {i : ℕ} {α β : Type}

/-- Nothing that is seen is changed, and the directory is the same. -/
structure Same (d d' : OpenDir) : Prop where
  shows : d.fs.Shows d'.fs
  root : d'.nRootdir = d.nRootdir ∧ d'.dirbase = d.dirbase
  sclust : d'.dp.sclust = d.dp.sclust

theorem Same.refl (h : d.fs.Valid) : Same d d := ⟨FATFS.Shows.refl h, ⟨rfl, rfl⟩, rfl⟩

theorem Same.trans (h : Same d d') (h' : Same d' d'') : Same d d'' :=
  ⟨h.shows.trans h'.shows, ⟨h'.root.1.trans h.root.1, h'.root.2.trans h.root.2⟩, h'.sclust.trans h.sclust⟩

theorem Lies.same (h : d.Lies T others) (hs : Same d d') : d'.Lies T others :=
  ⟨hs.shows.vol.trans h.vol, ⟨hs.root.1.trans h.root.1, hs.root.2.trans h.root.2⟩, h.placed, h.alloc.of_shows hs.shows,
    fun hl => hs.sclust.trans (h.static hl), by rw [hs.sclust]; exact h.start⟩

/-- The entries that are seen stay the same. -/
theorem Lies.slot (h : d.Lies T others) (hs : Same d d') (hi : i < T.slots) :
    T.slot d'.fs.seen i = T.slot d.fs.seen i := by
  refine slot_congr fun a ha => hs.shows.seen a ?_
  rw [h.vol, ha]
  exact (sect_plain h.placed hi).1

/-- The postcondition of a part of the code that changes nothing that is seen: `Q` holds, or a transfer failed, so that
fewer than `N` failures are still to come. -/
def Shown (N : ℕ) (d : OpenDir) (Q : Except FRESULT α → OpenDir → Prop) (r : Except FRESULT α) (d' : OpenDir) :
    Prop := Same d d' ∧ (Q r d' ∨ r = .error .FR_DISK_ERR ∧ d'.fs.drv.failures < N)

def Looks (N : ℕ) (m : DirCode α) (d : OpenDir) (Q : Except FRESULT α → OpenDir → Prop) : Prop :=
  m.Returns d (d.Shown N Q)

section Looks

variable {N : ℕ} {m : DirCode α} {k : α → DirCode β} {Q Q' : Except FRESULT α → OpenDir → Prop}
  {R : Except FRESULT β → OpenDir → Prop}

theorem Same.failures_le (h : Same d d') (hN : d.fs.drv.failures ≤ N) : d'.fs.drv.failures ≤ N :=
  h.shows.later.failures_le.trans hN

theorem Shown.of_same (hs : Same d d') {r : Except FRESULT α} (h : d'.Shown N Q r d'') : d.Shown N Q r d'' :=
  ⟨hs.trans h.1, h.2⟩

theorem Looks.bind (h : Looks N m d Q) (hok : ∀ a d', Same d d' → Q (.ok a) d' → Looks N (k a) d' R)
    (herror : ∀ e d', Same d d' → Q (.error e) d' → R (.error e) d') : Looks N (m >>= k) d R := by
  refine Code.Returns.bind h (fun a d' hp => ?_) fun e d' hp => ?_
  · obtain ⟨hs, hq | ⟨hr, -⟩⟩ := hp
    · exact (hok a d' hs hq).mono fun r d'' => Shown.of_same hs
    · cases hr
  · obtain ⟨hs, hq | ⟨hr, hN⟩⟩ := hp
    · exact ⟨hs, .inl (herror e d' hs hq)⟩
    · rw [Except.error.inj hr]
      exact ⟨hs, .inr ⟨rfl, hN⟩⟩

theorem Looks.mono (h : Looks N m d Q) (hq : ∀ r d', Same d d' → Q r d' → Q' r d') : Looks N m d Q' :=
  Code.Returns.mono h fun r d' ⟨hs, hr⟩ => ⟨hs, hr.imp_left (hq r d' hs)⟩

/-- Without a failing transfer. -/
theorem Looks.result (h : Looks 0 m d Q) : ∃ r d', m d = some (r, d') ∧ Same d d' ∧ Q r d' := by
  obtain ⟨r, d', hm, hs, hq | ⟨-, hlt⟩⟩ := h
  · exact ⟨r, d', hm, hs, hq⟩
  · exact absurd hlt (Nat.not_lt_zero _)

theorem Looks.pure {a : α} (hv : d.fs.Valid) (h : Q (.ok a) d) : Looks N (Pure.pure a) d Q :=
  Code.Returns.pure ⟨Same.refl hv, .inl h⟩

theorem Looks.leave {e : FRESULT} (hv : d.fs.Valid) (h : Q (.error e) d) : Looks N (Code.leave e : DirCode α) d Q :=
  Code.Returns.leave ⟨Same.refl hv, .inl h⟩

/-- A transfer has failed. -/
theorem Looks.failed (hv : d.fs.Valid) (hN : d.fs.drv.failures < N) : Looks N (Code.leave .FR_DISK_ERR : DirCode α) d Q :=
  Code.Returns.leave ⟨Same.refl hv, .inr ⟨rfl, hN⟩⟩

theorem Looks.read_bind {k : OpenDir → DirCode β} (h : Looks N (k d) d R) : Looks N (Code.read >>= k) d R := h

/-- Fields of the directory object are set. -/
theorem Looks.setDir_bind {g : DIR_ → DIR_} {k : Unit → DirCode β} (hv : d.fs.Valid)
    (hg : (g d.dp).sclust = d.dp.sclust) (h : Looks N (k ()) { d with dp := g d.dp } R) :
    Looks N (setDir g >>= k) d R := by
  have hs : Same d { d with dp := g d.dp } := ⟨FATFS.Shows.refl hv, ⟨rfl, rfl⟩, hg⟩
  exact Code.Returns.mono h fun _ _ => Shown.of_same hs

theorem Looks.setDir {g : DIR_ → DIR_} {Q : Except FRESULT Unit → OpenDir → Prop} (hv : d.fs.Valid)
    (hg : (g d.dp).sclust = d.dp.sclust) (h : Q (.ok ()) { d with dp := g d.dp }) : Looks N (OpenDir.setDir g) d Q :=
  ⟨_, _, rfl, ⟨FATFS.Shows.refl hv, ⟨rfl, rfl⟩, hg⟩, .inl h⟩

theorem onVolume_eq {ρ : Type} {g : FATFS → ρ × FATFS} {a : ρ} (hg : g d.fs = (a, fs')) :
    onVolume g d = some (.ok a, { d with fs := fs' }) := by rw [onVolume, Code.call, hg]

/-- A function of the volume that changes nothing that is seen. -/
theorem Looks.onVolume_bind {ρ : Type} {g : FATFS → ρ × FATFS} {k : ρ → DirCode β} {a : ρ} (hg : g d.fs = (a, fs'))
    (hshow : d.fs.Shows fs') (h : Same d { d with fs := fs' } → Looks N (k a) { d with fs := fs' } R) :
    Looks N (onVolume g >>= k) d R := by
  have hs : Same d { d with fs := fs' } := ⟨hshow, ⟨rfl, rfl⟩, rfl⟩
  obtain ⟨r, d'', hk, hr⟩ := h hs
  refine ⟨r, d'', ?_, hr.of_same hs⟩
  rw [Code.bind_ok (onVolume_eq hg)]
  exact hk

theorem Looks.ite {c : Prop} [Decidable c] {m' : DirCode α} (h : c → Looks N m d Q) (h' : ¬ c → Looks N m' d Q) :
    Looks N (if c then m else m') d Q := Code.Returns.ite h h'

end Looks

/-! ## Moving -/

section Moving

variable {N : ℕ} {idx j clst : ℕ}

/-- The fields that tell where the directory object is. -/
def Moved (dp dp' : DIR_) : Prop :=
  dp' = { dp with index := dp'.index, clust := dp'.clust, sect := dp'.sect, dir := dp'.dir }

theorem Moved.trans {dp dp' dp'' : DIR_} (h : Moved dp dp') (h' : Moved dp' dp'') : Moved dp dp'' := by
  unfold Moved at *
  rw [h', h]

/-- The entry of a cluster of the table is the next one, or ends the table. -/
theorem Lies.next_clust (h : d.Lies T others) {c : ℕ} (hc : T.clusters[j]? = some c) :
    (T.clusters[j + 1]? = none ∧ T.vol.nFatent ≤ d.fs.fat c) ∨ T.clusters[j + 1]? = some (d.fs.fat c) := by
  have hnext := h.alloc.next hc
  rwa [h.vol] at hnext

/-- A cluster is not the answer of a transfer that failed. -/
theorem ne_failed {v : Volume} (h : v.Placed) {c : ℕ} (hc : c < v.nFatent) : c ≠ 0xFFFFFFFF := by
  have hle : v.entryBound ≤ 2 ^ 28 := by unfold entryBound; split <;> decide
  have := h.last
  omega

theorem sdiLoop_looks (h : d.Lies T others) (hN : d.fs.drv.failures ≤ N) {fuel : ℕ} (hfuel : idx < fuel)
    (hj : T.clusters[j]? = some clst) (hlt : j + idx / (16 * T.vol.csize) < T.clusters.length) :
    Looks N (sdiLoop (16 * T.vol.csize) fuel clst idx) d fun r d' =>
      r = .ok (T.clusters.getD (j + idx / (16 * T.vol.csize)) 0, idx % (16 * T.vol.csize)) ∧ d'.dp = d.dp := by
  have hpos : 0 < 16 * T.vol.csize := Nat.mul_pos (by decide) h.placed.sized.pos
  induction fuel generalizing d idx j clst with
  | zero => omega
  | succ fuel ih =>
    unfold sdiLoop
    refine Looks.ite (fun hge => ?_) fun hlt' => ?_
    · obtain ⟨hcge, hclt⟩ := h.placed.range clst (List.mem_of_getElem? hj)
      rw [Nat.div_eq_sub_div hpos hge] at hlt ⊢
      rw [Nat.mod_eq_sub_mod hge]
      rcases hget : d.fs.getFat clst with ⟨v, fs'⟩
      obtain ⟨hshow, hv⟩ := FATFS.getFat_shows h.alloc.valid hcge (by rwa [h.vol]) hget
      refine Looks.onVolume_bind hget hshow fun hs => Looks.read_bind ?_
      obtain rfl | ⟨rfl, hf⟩ := hv
      · have hj' : j + 1 < T.clusters.length := by
          refine lt_of_le_of_lt ?_ hlt
          rw [← Nat.add_assoc, Nat.add_right_comm]
          exact Nat.le_add_right _ _
        obtain ⟨hnone, -⟩ | hnext := h.next_clust hj
        · rw [List.getElem?_eq_none_iff] at hnone
          omega
        · obtain ⟨hge', hlt'⟩ := h.placed.range _ (List.mem_of_getElem? hnext)
          have hn : fs'.nFatent = T.vol.nFatent := by rw [hshow.vol, h.vol]
          refine Looks.ite (fun he => absurd he (ne_failed h.placed.sized.placed hlt')) fun _ => ?_
          refine Looks.ite (fun hbad => absurd hbad (by dsimp only; rw [hn]; omega)) fun _ => ?_
          rw [show j + ((idx - 16 * T.vol.csize) / (16 * T.vol.csize) + 1) =
            j + 1 + (idx - 16 * T.vol.csize) / (16 * T.vol.csize) by omega] at hlt ⊢
          exact ih (h.same hs) (hs.failures_le hN) (by omega) hnext hlt
      · exact Looks.ite (fun _ => Looks.failed hs.shows.valid (lt_of_lt_of_le hf hN)) fun hne => absurd rfl hne
    · have hz : idx / (16 * T.vol.csize) = 0 := Nat.div_eq_of_lt (by omega)
      refine Looks.pure h.alloc.valid ⟨?_, rfl⟩
      rw [hz, Nat.add_zero, List.getD_eq_getElem?_getD, hj, Nat.mod_eq_of_lt (by omega)]
      rfl

/-- **Moving to an entry.** -/
theorem dirSdi_looks (h : d.Lies T others) (hN : d.fs.drv.failures ≤ N) (hi : i < T.slots) :
    Looks N (dirSdi i) d fun r d' => r = .ok () ∧ T.At d'.dp i ∧ Moved d.dp d'.dp := by
  have hv := h.alloc.valid
  have hn := h.placed.sized.placed.clusters
  have hpos : 0 < 16 * T.vol.csize := Nat.mul_pos (by decide) h.placed.sized.pos
  unfold dirSdi
  refine Looks.setDir_bind hv rfl (Looks.read_bind (Looks.ite (fun hbad => ?_) fun _ => ?_))
  · exfalso
    dsimp only at hbad
    rw [h.vol] at hbad
    cases hl : T.clusters with
    | nil =>
      rw [h.static hl] at hbad
      omega
    | cons c l =>
      have hstart := h.start c (by rw [hl]; rfl)
      have hc := h.placed.range c (by rw [hl]; exact List.mem_cons_self)
      split_ifs at hstart with hz <;> omega
  · dsimp only
    cases hl : T.clusters with
    | nil =>
      obtain ⟨hty, -⟩ := h.placed.static hl
      have hz : (if d.dp.sclust = 0 ∧ d.fs.fsType = .FS_FAT32 then d.dirbase else d.dp.sclust) = 0 := by
        rw [if_neg (fun hc => hty (by rw [← h.vol]; exact hc.2)), h.static hl]
      rw [hz, if_pos rfl]
      rw [slots, if_pos hl] at hi
      refine Looks.setDir_bind hv rfl (Looks.read_bind ?_)
      refine Looks.ite (fun hle => ?_) fun _ => Looks.setDir hv rfl ⟨rfl, ⟨rfl, ?_, ?_, rfl⟩, rfl⟩
      · dsimp only at hle
        rw [h.root.1] at hle
        omega
      · rw [hl]
        rfl
      · dsimp only
        rw [h.root.2, DirTable.addr, if_pos hl]
        omega
    | cons c l =>
      have hstart := h.start c (by rw [hl]; rfl)
      have hc := h.placed.range c (by rw [hl]; exact List.mem_cons_self)
      have hclst : (if d.dp.sclust = 0 ∧ d.fs.fsType = .FS_FAT32 then d.dirbase else d.dp.sclust) = c := by
        by_cases hz : d.dp.sclust = 0
        · rw [if_pos hz] at hstart
          rw [if_pos ⟨hz, by rw [h.vol]; exact hstart.1⟩, h.root.2, hstart.2]
        · rw [if_neg hz] at hstart
          rw [if_neg (fun hc => hz hc.1), hstart]
      have hne : T.clusters ≠ [] := by
        rw [hl]
        exact List.cons_ne_nil _ _
      obtain ⟨c', hget, hgetD, hge', hlt'⟩ := getElem?_of_lt h.placed hne hi
      rw [hclst, if_neg (by omega)]
      refine Looks.read_bind ?_
      dsimp only
      rw [h.vol]
      have hd₁ : Lies { d with dp := { d.dp with index := i } } T others :=
        h.same ⟨FATFS.Shows.refl hv, ⟨rfl, rfl⟩, rfl⟩
      refine Looks.bind (sdiLoop_looks (j := 0) hd₁ hN (Nat.lt_succ_self i) (by rw [hl]; rfl)
        (by rw [Nat.zero_add]; exact (List.getElem?_eq_some_iff.1 hget).1)) (fun a d₂ hs ⟨ha, hdp⟩ => ?_)
        fun e d₂ _ ⟨he, _⟩ => by cases he
      obtain rfl := Except.ok.inj ha
      rw [Nat.zero_add, hgetD]
      refine Looks.setDir hs.shows.valid rfl ⟨rfl, ⟨?_, ?_, ?_, ?_⟩, ?_⟩
      · dsimp only
        rw [hdp]
      · exact hgetD.symm
      · have hsize : d.fs.Sized := by rw [h.vol]; exact h.placed.sized
        dsimp only
        rw [(clust2sect_eq hsize hge' (by rwa [h.vol])).1, h.vol, addr_dynamic hne hgetD]
        omega
      · have := Nat.mod_mod_of_dvd i (Dvd.intro T.vol.csize rfl : 16 ∣ 16 * T.vol.csize)
        dsimp only
        omega
      · unfold Moved
        rw [hdp]

/-- The next sector of the table. -/
theorem nextSect_looks (h : d.Lies T others) (hN : d.fs.drv.failures ≤ N) (hat : T.At d.dp i) (stretch : Bool)
    (hi : i + 1 < T.slots) (h16 : (i + 1) % 16 = 0) :
    Looks N (nextSect stretch (i + 1)) d fun r d' => r = .ok () ∧ Moved d.dp d'.dp ∧
      d'.dp.clust = T.clusters.getD ((i + 1) / (16 * T.vol.csize)) 0 ∧ d'.dp.sect = T.addr (32 * (i + 1)) / 512 := by
  have hv := h.alloc.valid
  have hpos : 0 < 16 * T.vol.csize := Nat.mul_pos (by decide) h.placed.sized.pos
  have hmod := addr_mod T i
  unfold nextSect
  refine Looks.setDir_bind hv rfl (Looks.read_bind ?_)
  by_cases hl : T.clusters = []
  · rw [slots, if_pos hl] at hi
    have haddr := addr_succ (i := i) h.placed fun hne => absurd hl hne
    refine Looks.ite (fun _ => Looks.ite (fun hle => ?_) fun _ => Looks.pure hv ⟨rfl, rfl, ?_, ?_⟩) fun hne => ?_
    · dsimp only at hle
      rw [h.root.1] at hle
      omega
    · dsimp only
      rw [hat.clust, hl]
      rfl
    · dsimp only
      rw [hat.sect, haddr]
      omega
    · dsimp only at hne
      rw [hat.clust, hl] at hne
      exact absurd rfl hne
  · obtain ⟨c, hget, hgetD, hge, hlt⟩ := getElem?_of_lt h.placed hl (Nat.lt_of_succ_lt hi)
    have hclust : d.dp.clust = c := hat.clust.trans hgetD
    obtain ⟨k, -, hk⟩ := h.placed.sized.csize
    have hand : ((i + 1) / 16 &&& (T.vol.csize - 1)) = (i + 1) / 16 % T.vol.csize := by
      rw [hk, Nat.and_two_pow_sub_one_eq_mod]
    have hmm : (i + 1) % (16 * T.vol.csize) = 16 * ((i + 1) / 16 % T.vol.csize) := by
      rw [Nat.mod_mul, h16, Nat.zero_add]
    refine Looks.ite (fun hz => ?_) fun _ => ?_
    · dsimp only at hz
      omega
    unfold Code.onlyIf
    dsimp only
    rw [h.vol, hand]
    refine Looks.ite (fun hz => ?_) fun hne => Looks.pure hv ⟨rfl, rfl, ?_, ?_⟩
    · have hdiv := pred_div_succ hpos (Nat.succ_pos i) (by rw [hmm, hz])
      rw [Nat.succ_sub_one] at hdiv
      obtain ⟨c', hget', hgetD', hge', hlt'⟩ := getElem?_of_lt h.placed hl hi
      have hd₁ : Lies { d with dp := { d.dp with sect := d.dp.sect + 1 } } T others :=
        h.same ⟨FATFS.Shows.refl hv, ⟨rfl, rfl⟩, rfl⟩
      unfold nextClust
      refine Looks.read_bind ?_
      dsimp only
      rw [hclust, h.vol]
      rcases hfat : d.fs.getFat c with ⟨v, fs'⟩
      obtain ⟨hshow, hval⟩ := FATFS.getFat_shows hv hge (by rwa [h.vol]) hfat
      refine Looks.onVolume_bind hfat hshow fun hs => ?_
      obtain rfl | ⟨rfl, hf⟩ := hval
      · have hnext : d.fs.fat c = c' := by
          obtain ⟨hnone, -⟩ | hnext := h.next_clust hget
          · rw [← Nat.succ_eq_add_one, ← hdiv] at hget'
            rw [hnone] at hget'
            cases hget'
          · rw [← Nat.succ_eq_add_one, ← hdiv, hnext] at hget'
            exact Option.some.inj hget'
        rw [hnext]
        refine Looks.ite (fun hle => absurd hle (by omega)) fun _ => ?_
        refine Looks.ite (fun he => absurd he (ne_failed h.placed.sized.placed hlt')) fun _ => ?_
        refine Looks.ite (fun hle => absurd hle (by omega)) fun _ => ?_
        have hvol : fs'.toVolume = T.vol := hshow.vol.trans h.vol
        have hsize : fs'.Sized := by rw [hvol]; exact h.placed.sized
        refine Looks.read_bind (Looks.setDir hshow.valid rfl ⟨rfl, ?_, hgetD'.symm, ?_⟩)
        · rfl
        · dsimp only
          rw [(clust2sect_eq hsize hge' (by rwa [hvol])).1, hvol, addr_dynamic hl hgetD', hmm, hz]
          omega
      · refine Looks.ite (fun hle => absurd hle (by decide)) fun _ => ?_
        exact Looks.ite (fun _ => Looks.failed hs.shows.valid (lt_of_lt_of_le hf hN)) fun hne => absurd rfl hne
    · dsimp only
      rw [hat.clust, getD_succ h.placed (by omega)]
    · have haddr := addr_succ (i := i) h.placed fun _ => by omega
      dsimp only
      rw [hat.sect, haddr]
      omega

/-- **Moving to the next entry.** -/
theorem dirNext_looks (h : d.Lies T others) (hN : d.fs.drv.failures ≤ N) (hat : T.At d.dp i) (stretch : Bool)
    (hi : i + 1 < T.slots) :
    Looks N (dirNext stretch) d fun r d' => r = .ok () ∧ T.At d'.dp (i + 1) ∧ Moved d.dp d'.dp := by
  have hv := h.alloc.valid
  have hle := slots_le h.placed
  have hsect := (sect_plain h.placed (Nat.lt_of_succ_lt hi)).2.2.2
  have hmod := addr_mod T i
  unfold dirNext
  refine Looks.read_bind ?_
  dsimp only
  rw [hat.index, Nat.mod_eq_of_lt (by omega : i + 1 < 2 ^ 16)]
  refine Looks.ite (fun hz => ?_) fun _ => ?_
  · rw [hat.sect] at hz
    omega
  have hlast : ∀ d', Same d d' → Moved d.dp d'.dp → d'.dp.clust = T.clusters.getD ((i + 1) / (16 * T.vol.csize)) 0 →
      d'.dp.sect = T.addr (32 * (i + 1)) / 512 →
      Looks N (setDir fun dp => { dp with index := i + 1, dir := (i + 1) % 16 * 32 }) d' fun r d' =>
        r = .ok () ∧ T.At d'.dp (i + 1) ∧ Moved d.dp d'.dp := by
    intro d' hs hmoved hclust hsect'
    exact Looks.setDir hs.shows.valid rfl ⟨rfl, ⟨rfl, hclust, hsect', rfl⟩, hmoved.trans rfl⟩
  unfold Code.onlyIf
  by_cases h16 : (i + 1) % 16 = 0
  · rw [if_pos h16]
    refine Looks.bind (nextSect_looks h hN hat stretch hi h16) (fun _ d' hs ⟨_, hmoved, hclust, hsect'⟩ => ?_)
      fun e d' _ ⟨he, _⟩ => by cases he
    exact hlast d' hs hmoved hclust hsect'
  · rw [if_neg h16]
    have hm : (i + 1) % (16 * T.vol.csize) ≠ 0 := fun hz => h16 (by
      rw [← Nat.mod_mod_of_dvd (i + 1) (Dvd.intro T.vol.csize rfl : 16 ∣ 16 * T.vol.csize), hz])
    have haddr := addr_succ (i := i) h.placed fun _ => hm
    refine hlast d (Same.refl hv) rfl ?_ ?_
    · rw [hat.clust, getD_succ h.placed hm]
    · rw [hat.sect, haddr]
      omega

/-- At the end of a dynamic table the entry of the last cluster is looked at. -/
theorem dirNext_last (h : d.Lies T others) (hat : T.At d.dp i) (stretch : Bool) (hl : T.clusters ≠ [])
    (hi : i + 1 = T.clusters.length * (16 * T.vol.csize)) (h16 : i + 1 < 2 ^ 16) :
    dirNext stretch d =
      (nextClust stretch >>= fun _ => setDir fun dp => { dp with index := i + 1, dir := (i + 1) % 16 * 32 })
        { d with dp := { d.dp with sect := d.dp.sect + 1 } } := by
  have hslot : i < T.slots := by
    rw [slots, if_neg hl]
    omega
  have hsect := (sect_plain h.placed hslot).2.2.2
  obtain ⟨c, -, hgetD, hge, -⟩ := getElem?_of_lt h.placed hl hslot
  have hclust : d.dp.clust = c := hat.clust.trans hgetD
  obtain ⟨k, -, hk⟩ := h.placed.sized.csize
  have hmod : (i + 1) % 16 = 0 := by rw [hi, Nat.mul_left_comm, Nat.mul_mod_right]
  have hand : ((i + 1) / 16 &&& (T.vol.csize - 1)) = 0 := by
    rw [hi, Nat.mul_left_comm, Nat.mul_div_cancel_left _ (by decide)]
    conv_lhs => rw [hk, Nat.and_two_pow_sub_one_eq_mod]
    exact Nat.mul_mod_left _ _
  unfold dirNext
  rw [Code.bind_ok (show Code.read d = some (.ok d, d) from rfl)]
  dsimp only
  rw [hat.index, Nat.mod_eq_of_lt h16, if_neg (by rw [hat.sect]; omega), Code.onlyIf, if_pos hmod, nextSect,
    Code.bind_assoc, Code.bind_ok (show setDir (fun dp => { dp with sect := dp.sect + 1 }) d =
      some (.ok (), { d with dp := { d.dp with sect := d.dp.sect + 1 } }) from rfl), Code.bind_assoc]
  refine (Code.bind_ok rfl).trans ?_
  dsimp only
  rw [if_neg (by rw [hclust]; omega), Code.onlyIf, h.vol, if_pos hand, hat.index]

/-- Behind the end of a table that can not grow there is no next entry. -/
theorem dirNext_full (h : d.Lies T others) (hat : T.At d.dp i) (stretch : Bool) (hi : i + 1 = T.slots)
    (hfull : T.clusters = [] ∨ T.slots = 2 ^ 16) :
    Looks N (dirNext stretch) d fun r d' => r = .error .FR_NO_FILE ∧ Moved d.dp d'.dp := by
  have hv := h.alloc.valid
  have hle := slots_le h.placed
  have hsect := (sect_plain h.placed (Nat.lt_of_succ_le hi.le)).2.2.2
  unfold dirNext
  refine Looks.read_bind ?_
  dsimp only
  rw [hat.index]
  by_cases h16 : i + 1 < 2 ^ 16
  · have hl : T.clusters = [] := hfull.resolve_right (by omega)
    obtain ⟨-, -, -, hroot, -⟩ := h.placed.static hl
    rw [slots, if_pos hl] at hi
    rw [Nat.mod_eq_of_lt h16]
    refine Looks.ite (fun hz => ?_) fun _ => ?_
    · rw [hat.sect] at hz
      omega
    have hsect' : Looks N (nextSect stretch (i + 1)) d fun r d' => r = .error .FR_NO_FILE ∧ Moved d.dp d'.dp := by
      unfold nextSect
      refine Looks.setDir_bind hv rfl (Looks.read_bind (Looks.ite (fun _ => ?_) fun hne => ?_))
      · exact Looks.ite (fun _ => Looks.leave hv ⟨rfl, rfl⟩) fun hlt => absurd hi.ge (by rwa [← h.root.1])
      · dsimp only at hne
        rw [hat.clust, hl] at hne
        exact absurd rfl hne
    rw [Code.onlyIf, if_pos (by omega)]
    exact Looks.bind hsect' (fun _ _ _ ⟨hr, _⟩ => by cases hr) fun e d' _ ⟨hr, hm⟩ => ⟨hr, hm⟩
  · rw [show (i + 1) % 2 ^ 16 = 0 by omega, if_pos (.inl rfl)]
    exact Looks.leave hv ⟨rfl, rfl⟩

/-- The entry of the last cluster ends the chain. -/
theorem Lies.last_clust (h : d.Lies T others) (hat : T.At d.dp i) (hl : T.clusters ≠ []) (hi : i < T.slots)
    (hlen : i + 1 = T.clusters.length * (16 * T.vol.csize)) : (∃ l, T.clusters = l ++ [d.dp.clust]) ∧ 2 ≤ d.dp.clust ∧
      d.dp.clust < T.vol.nFatent ∧ T.vol.nFatent ≤ d.fs.fat d.dp.clust := by
  obtain ⟨c, hget, hgetD, hge, hlt⟩ := getElem?_of_lt h.placed hl hi
  have hclust : d.dp.clust = c := hat.clust.trans hgetD
  have hpos : 0 < 16 * T.vol.csize := Nat.mul_pos (by decide) h.placed.sized.pos
  have hdiv : i / (16 * T.vol.csize) + 1 = T.clusters.length := by
    have hsucc := pred_div_succ hpos (Nat.succ_pos i) (by rw [← Nat.add_one, hlen, Nat.mul_mod_left])
    rwa [Nat.succ_sub_one, ← Nat.add_one, hlen, Nat.mul_div_cancel _ hpos] at hsucc
  rw [hclust]
  refine ⟨⟨T.clusters.dropLast, ?_⟩, hge, hlt, ?_⟩
  · rw [Nat.eq_sub_of_add_eq hdiv, ← List.getLast?_eq_getElem?] at hget
    exact (List.dropLast_append_getLast? c hget).symm
  · obtain ⟨-, hend⟩ | hnext := h.next_clust hget
    · exact hend
    · rw [List.getElem?_eq_none hdiv.ge] at hnext
      cases hnext

/-- At the end of the chain of clusters there is no next cluster. -/
theorem nextClust_end (h : d.Lies T others) (hN : d.fs.drv.failures ≤ N) (hat : T.At d.dp i)
    (hl : T.clusters ≠ []) (hi : i < T.slots) (hlen : i + 1 = T.clusters.length * (16 * T.vol.csize)) :
    Looks N (nextClust false) { d with dp := { d.dp with sect := d.dp.sect + 1 } } fun r d' =>
      r = .error .FR_NO_FILE ∧ Moved d.dp d'.dp := by
  have hv := h.alloc.valid
  obtain ⟨-, hge, hlt, hend⟩ := h.last_clust hat hl hi hlen
  have hfat := FATFS.fat_lt (c := d.dp.clust) hv.placed
  unfold nextClust
  refine Looks.read_bind ?_
  dsimp only
  rw [h.vol]
  rcases hget' : d.fs.getFat d.dp.clust with ⟨v, fs'⟩
  obtain ⟨hshow, hval⟩ := FATFS.getFat_shows hv hge (by rwa [h.vol]) hget'
  have hn := h.placed.sized.placed.clusters
  refine Looks.onVolume_bind hget' hshow fun hs' => ?_
  obtain rfl | ⟨rfl, hf⟩ := hval
  · refine Looks.ite (fun hle => absurd hle (by omega)) fun _ => ?_
    refine Looks.ite (fun he => absurd he (by omega)) fun _ => ?_
    refine Looks.ite (fun _ => ?_) fun hle => absurd hend hle
    rw [if_neg Bool.false_ne_true]
    exact Looks.leave hs'.shows.valid ⟨rfl, rfl⟩
  · refine Looks.ite (fun hle => absurd hle (by decide)) fun _ => ?_
    exact Looks.ite (fun _ => Looks.failed hs'.shows.valid (lt_of_lt_of_le hf hN)) fun hne => absurd rfl hne

/-- At the end of the table there is no next entry. -/
theorem dirNext_end (h : d.Lies T others) (hN : d.fs.drv.failures ≤ N) (hat : T.At d.dp i) (hi : i + 1 = T.slots) :
    Looks N (dirNext false) d fun r d' => r = .error .FR_NO_FILE ∧ Moved d.dp d'.dp := by
  by_cases hfull : T.clusters = [] ∨ T.slots = 2 ^ 16
  · exact dirNext_full h hat false hi hfull
  · obtain ⟨hl, h16⟩ := not_or.1 hfull
    have hle := slots_le h.placed
    have hlen : i + 1 = T.clusters.length * (16 * T.vol.csize) := by
      rw [slots, if_neg hl] at hi h16
      omega
    have hs : Same d { d with dp := { d.dp with sect := d.dp.sect + 1 } } :=
      ⟨FATFS.Shows.refl h.alloc.valid, ⟨rfl, rfl⟩, rfl⟩
    have hlook : Looks N
        (nextClust false >>= fun _ => setDir fun dp => { dp with index := i + 1, dir := (i + 1) % 16 * 32 })
        { d with dp := { d.dp with sect := d.dp.sect + 1 } } fun r d' => r = .error .FR_NO_FILE ∧ Moved d.dp d'.dp :=
      Looks.bind (nextClust_end h hN hat hl (by omega) hlen) (fun _ _ _ ⟨hr, _⟩ => by cases hr)
        fun e d' _ ⟨hr, hm⟩ => ⟨hr, hm⟩
    unfold Looks Code.Returns
    rw [dirNext_last h hat false hl hlen (by omega)]
    exact Code.Returns.mono hlook fun _ _ => Shown.of_same hs

/-- **The entry is in the window.** -/
theorem toWindow_looks (h : d.Lies T others) (hN : d.fs.drv.failures ≤ N) (hat : T.At d.dp i) (hi : i < T.slots) :
    Looks N toWindow d fun r d' => r = .ok () ∧ d'.dp = d.dp ∧ d'.fs.winsect = d.dp.sect ∧
      d'.entry = T.slot d.fs.seen i := by
  obtain ⟨hplain, -, hlt, -⟩ := sect_plain h.placed hi
  unfold toWindow
  refine Looks.read_bind ?_
  rcases hmove : d.fs.moveWindow d.dp.sect with ⟨res, fs'⟩
  obtain ⟨hshow, hres⟩ := FATFS.moveWindow_shows h.alloc.valid (by rw [h.vol, hat.sect]; exact hplain.1)
    (by rwa [hat.sect]) hmove
  refine Looks.onVolume_bind hmove hshow fun hs => ?_
  obtain ⟨rfl, hwin⟩ | ⟨rfl, hf⟩ := hres
  · refine Looks.pure hshow.valid ⟨rfl, rfl, hwin, ?_⟩
    rw [← h.slot hs hi, slot_eq]
    funext k
    unfold entry entryAt
    dsimp only
    rw [hat.dir]
    split_ifs with hk
    · rw [FATFS.win_eq_seen (hwin.trans hat.sect) (by omega), ← Nat.add_assoc]
    · rfl
  · exact Looks.failed hshow.valid (lt_of_lt_of_le hf hN)

end Moving

end OpenDir

end Miosix
