import MiosixKernel.Fat.File
import MiosixKernel.Fat.ChainRun

/-!
# The bytes of a file on the drive

* `Volume.sector`, `Volume.bcs`: where the clusters lie;
* `Volume.addr`: where a byte of a file lies;
* **`store_addr`**, **`load_addr`**: a range of a file in one cluster is a range of the drive.
-/

namespace Miosix

open Lib

/-! ## Clusters -/

namespace Volume

/-- The first sector of a cluster. -/
def sector (v : Volume) (c : ℕ) : ℕ := v.database + (c - 2) * v.csize

/-- The bytes of a cluster. -/
def bcs (v : Volume) : ℕ := v.csize * 512

/-- The sectors of a cluster. -/
def InClust (v : Volume) (c s : ℕ) : Prop := v.sector c ≤ s ∧ s < v.sector c + v.csize

/-- The clusters of a mounted volume. -/
structure Sized (v : Volume) : Prop where
  placed : v.Placed
  csize : ∃ k ≤ 7, v.csize = 2 ^ k
  room : v.sector v.nFatent ≤ 2 ^ 32

variable {v : Volume} {c c' s o p i n : ℕ} {l l' : List ℕ}

theorem Sized.pos (h : v.Sized) : 0 < v.csize := by
  obtain ⟨k, -, hk⟩ := h.csize
  rw [hk]
  exact Nat.two_pow_pos k

theorem Sized.bcs_pos (h : v.Sized) : 0 < v.bcs := Nat.mul_pos h.pos (by decide)

theorem Sized.database_pos (h : v.Sized) : v.fatbase + v.fsize ≤ v.database ∧ 0 < v.fsize := by
  have hn := h.placed.clusters
  have he := h.placed.entries
  have hm := h.placed.mounted
  have hfat := h.placed.fat
  have hle : v.fsize ≤ v.nFats * v.fsize := Nat.le_mul_of_pos_left _ h.placed.fats
  unfold szbfat at he
  cases ht : v.fsType <;> simp only [ht] at he hm
  · exact absurd rfl hm
  · omega
  · omega
  · omega

theorem sector_succ (hc : 2 ≤ c) : v.sector (c + 1) = v.sector c + v.csize := by
  unfold sector
  obtain ⟨k, rfl⟩ := Nat.exists_eq_add_of_le hc
  rw [Nat.add_sub_cancel_left, show 2 + k + 1 - 2 = k + 1 by omega, Nat.succ_mul]
  omega

theorem sector_mono (h : c ≤ c') : v.sector c ≤ v.sector c' :=
  Nat.add_le_add_left (Nat.mul_le_mul_right _ (Nat.sub_le_sub_right h 2)) _

theorem Sized.sector_add_le (h : v.Sized) (hc : 2 ≤ c) (hlt : c < v.nFatent) : v.sector c + v.csize ≤ 2 ^ 32 := by
  rw [← sector_succ hc]
  exact (sector_mono hlt).trans h.room

/-- A sector is in one cluster. -/
theorem InClust.unique (h : v.InClust c s) (h' : v.InClust c' s) (hc : 2 ≤ c) (hc' : 2 ≤ c') : c = c' := by
  obtain ⟨hge, hlt⟩ := h
  obtain ⟨hge', hlt'⟩ := h'
  rw [← sector_succ hc] at hlt
  rw [← sector_succ hc'] at hlt'
  rcases Nat.lt_trichotomy c c' with hcc | rfl | hcc
  · have := sector_mono (v := v) (show c + 1 ≤ c' from hcc)
    omega
  · rfl
  · have := sector_mono (v := v) (show c' + 1 ≤ c from hcc)
    omega

theorem InClust.database_le (h : v.InClust c s) : v.database ≤ s := (Nat.le_add_right _ _).trans h.1

/-- The sectors of the clusters are seen, and are not those of the FAT. -/
theorem Placed.plain_of_le (h : v.Placed) (hs : v.database ≤ s) : v.Plain s ∧ ¬ v.InFat s := by
  have hfat := h.fat
  have hle : v.fsize ≤ v.nFats * v.fsize := Nat.le_mul_of_pos_left _ h.fats
  refine ⟨⟨fun hc => ?_, fun ht => ?_⟩, fun hf => ?_⟩
  · have := hc.2
    omega
  · have := h.fsinfo ht
    omega
  · have := hf.2
    omega

theorem clust2sect_eq {fs : FATFS} (h : fs.Sized) (hc : 2 ≤ c) (hlt : c < fs.nFatent) :
    fs.clust2sect c = fs.sector c ∧ fs.sector c ≠ 0 := by
  have hle := h.sector_add_le hc hlt
  have hpos := h.pos
  have hdb := h.database_pos
  have hn := h.placed.last
  have he : fs.entryBound ≤ 2 ^ 28 := by unfold entryBound; split <;> decide
  have hu : u32 ((c : ℤ) - 2) = c - 2 := by unfold u32; omega
  unfold FATFS.clust2sect
  rw [hu]
  have hsect : fs.sector c = fs.database + (c - 2) * fs.csize := rfl
  refine ⟨?_, by omega⟩
  simp only
  rw [if_neg (by omega), Nat.mod_eq_of_lt (by omega), hsect, Nat.add_comm]

/-! ## The bytes of a file -/

/-- The address of a byte of the file with these clusters. -/
def addr (v : Volume) (l : List ℕ) (o : ℕ) : ℕ := 512 * v.sector (l.getD (o / v.bcs) 0) + o % v.bcs

theorem addr_eq (h : l[o / v.bcs]? = some c) : v.addr l o = 512 * v.sector c + o % v.bcs := by
  rw [addr, List.getD_eq_getElem?_getD, h, Option.getD_some]

/-- The sector of a byte. -/
theorem addr_div (h : l[o / v.bcs]? = some c) : v.addr l o / 512 = v.sector c + o % v.bcs / 512 := by
  rw [addr_eq h, Nat.mul_add_div (by decide)]

theorem Sized.offset_lt (h : v.Sized) : o % v.bcs / 512 < v.csize :=
  Nat.div_lt_of_lt_mul (lt_of_lt_of_eq (Nat.mod_lt o h.bcs_pos) (Nat.mul_comm _ _))

theorem inClust_addr (h : v.Sized) (hl : l[o / v.bcs]? = some c) : v.InClust c (v.addr l o / 512) := by
  have := h.offset_lt (o := o)
  rw [addr_div hl]
  exact ⟨by omega, by omega⟩

theorem div_mod_add (hb : 0 < n) (hi : o % n + i < n) : (o + i) / n = o / n ∧ (o + i) % n = o % n + i := by
  have e : o + i = n * (o / n) + (o % n + i) := by rw [← Nat.add_assoc, Nat.div_add_mod]
  constructor
  · rw [e, Nat.mul_add_div hb, Nat.div_eq_of_lt hi, Nat.add_zero]
  · rw [e, Nat.mul_add_mod, Nat.mod_eq_of_lt hi]

/-- The byte before another one is in the same cluster, or in the one before it. -/
theorem pred_div (hb : 0 < n) (h : o % n ≠ 0) : (o - 1) / n = o / n := by
  have e := Nat.div_add_mod o n
  have hlt := Nat.mod_lt o hb
  obtain ⟨q, hq⟩ : ∃ q, o / n = q := ⟨_, rfl⟩
  rw [hq] at e ⊢
  rw [show o - 1 = n * q + (o % n - 1) by omega, Nat.mul_add_div hb, Nat.div_eq_of_lt (by omega), Nat.add_zero]

theorem pred_div_succ (hb : 0 < n) (hpos : 0 < o) (h : o % n = 0) : (o - 1) / n + 1 = o / n := by
  have e := Nat.div_add_mod o n
  obtain ⟨q, hq⟩ : ∃ q, o / n = q + 1 := Nat.exists_eq_succ_of_ne_zero fun hz => by
    rw [hz, h] at e
    omega
  rw [hq, Nat.mul_succ] at e
  rw [hq, show o - 1 = n * q + (n - 1) by omega, Nat.mul_add_div hb, Nat.div_eq_of_lt (by omega), Nat.add_zero]

theorem addr_add (h : v.Sized) (hi : o % v.bcs + i < v.bcs) : v.addr l (o + i) = v.addr l o + i := by
  obtain ⟨hdiv, hmod⟩ := div_mod_add h.bcs_pos hi
  rw [addr, addr, hdiv, hmod, Nat.add_assoc]

theorem addr_congr (h : l'[o / v.bcs]? = l[o / v.bcs]?) : v.addr l' o = v.addr l o := by
  rw [addr, addr, List.getD_eq_getElem?_getD, List.getD_eq_getElem?_getD, h]

theorem div_lt (ho : o < v.bcs * l.length) : o / v.bcs < l.length := Nat.div_lt_of_lt_mul ho

/-- A range of the file in one cluster is a range of the drive. -/
theorem mem_range_addr (h : v.Sized) (hnd : l.Nodup) (hge : ∀ c ∈ l, 2 ≤ c) (ho : o < v.bcs * l.length)
    (hp : p < v.bcs * l.length) (hn : p % v.bcs + n ≤ v.bcs) :
    (v.addr l p ≤ v.addr l o ∧ v.addr l o < v.addr l p + n ↔ p ≤ o ∧ o < p + n) ∧
      (p ≤ o → o < p + n → v.addr l o = v.addr l p + (o - p)) := by
  have hin : p ≤ o → o < p + n → v.addr l o = v.addr l p + (o - p) := by
    intro hle hlt
    have e : o = p + (o - p) := by omega
    conv_lhs => rw [e]
    exact addr_add h (by omega)
  refine ⟨⟨fun ⟨hle, hlt⟩ => ?_, fun ⟨hle, hlt⟩ => ?_⟩, hin⟩
  · have hol := div_lt ho
    have hpl := div_lt hp
    have ho' := List.getElem?_eq_getElem hol
    have hp' := List.getElem?_eq_getElem hpl
    have hco := inClust_addr h ho'
    have hcp := inClust_addr h hp'
    have hgeo := hge _ (List.getElem_mem hol)
    have hgep := hge _ (List.getElem_mem hpl)
    -- the address is in the cluster of both bytes
    have hsame : v.InClust l[p / v.bcs] (v.addr l o / 512) := by
      have hend : v.addr l p + n ≤ 512 * v.sector l[p / v.bcs] + v.bcs := by
        rw [addr_eq hp']
        omega
      have hstart := addr_eq hp'
      have hbcs : v.bcs = v.csize * 512 := rfl
      exact ⟨by omega, by omega⟩
    have hidx : o / v.bcs = p / v.bcs := hnd.getElem_inj_iff.1 (hco.unique hsame hgeo hgep)
    have hdo := Nat.div_add_mod o v.bcs
    have hdp := Nat.div_add_mod p v.bcs
    rw [addr_eq ho', addr_eq hp'] at hle hlt
    simp only [hidx] at hle hlt hdo
    omega
  · rw [hin hle hlt]
    omega

end Volume

open Volume

variable {v : Volume} {c s o p n : ℕ} {l : List ℕ} {mem : ℕ → UInt8}

/-- Bytes that are written to the drive are written to the file. -/
theorem store_addr (h : v.Sized) (hnd : l.Nodup) (hge : ∀ c ∈ l, 2 ≤ c) {bs : List UInt8} (ho : o < v.bcs * l.length)
    (hp : p < v.bcs * l.length) (hn : p % v.bcs + bs.length ≤ v.bcs) :
    store mem (v.addr l p) bs (v.addr l o) = store (fun o => mem (v.addr l o)) p bs o := by
  obtain ⟨hiff, hin⟩ := mem_range_addr h hnd hge ho hp hn
  unfold store
  rw [if_congr hiff rfl rfl]
  split_ifs with hx
  · rw [hin hx.1 hx.2, Nat.add_sub_cancel_left]
  · rfl

/-- Bytes that are read from the drive are read from the file. -/
theorem load_addr (h : v.Sized) (hn : p % v.bcs + n ≤ v.bcs) :
    load mem (v.addr l p) n = load (fun o => mem (v.addr l o)) p n := by
  refine List.map_congr_left fun i hi => ?_
  rw [List.mem_range] at hi
  exact congrArg mem (addr_add h (by omega)).symm

end Miosix
