import MiosixKernel.Fat.DirRegister

/-!
# Directories that grow

A directory in a chain of clusters gets another one when there is no room for the entries of a new name. The sectors of
that cluster are filled with zeros, so that its entries are free. No transfer fails here.

* `FATFS.zeroed`, **`cleanLoop_zeroes`**: the loop over the sectors of the new cluster;
* `DirTable.extend`, `Grown`: the table with more clusters, where the old entries are kept and the new ones are free;
* **`stretchTable_grows`**, **`dirNext_grows`**: there is a next entry, unless all clusters are in use;
* **`dirAlloc_grows`**, **`dirRegister_grows`**: there is room, unless the table or the volume is full, and the table only
  gets longer when it had none.
-/

namespace Miosix

open Lib Volume DirTable

/-! ## A cluster of zeros -/

namespace FATFS

variable {fs : FATFS} {a c s n : ℕ}

/-- A sector that is not one of the FAT is written back once. -/
theorem syncWindow_data (hp : fs.Placed) (hf : fs.drv.faults = []) (hs : fs.database ≤ fs.winsect)
    (hlt : fs.winsect < 2 ^ 32) : fs.setDirty.syncWindow =
      (.FR_OK, { fs with wflag := false, drv := ⟨overlay fs.drv.bytes (512 * fs.winsect) 512 fs.win, []⟩ }) := by
  have hfat : ¬ u32 ((fs.winsect : ℤ) - fs.fatbase) < fs.fsize := by
    have hle : fs.fsize ≤ fs.nFats * fs.fsize := Nat.le_mul_of_pos_left _ hp.fats
    have := hp.fat
    rw [isFat_iff hp hlt]
    omega
  unfold syncWindow setDirty
  dsimp only
  rw [if_pos rfl, Drive.diskWrite_ok hf, if_pos rfl, if_neg hfat, store_eq_overlay]

/-- The `n` sectors from `s` on hold zeros, and the window is at the first one. -/
def zeroed (fs : FATFS) (s n : ℕ) : FATFS :=
  { fs with wflag := false, winsect := s, win := fun _ => 0,
            drv := ⟨overlay fs.drv.bytes (512 * s) (512 * n) fun _ => 0, []⟩ }

theorem zeroed_seen (h : fs.Coherent) (hw : fs.wflag = false) (hn : 0 < n) (ha : fs.Plain (a / 512)) :
    (fs.zeroed s n).seen a = if s ≤ a / 512 ∧ a / 512 < s + n then 0 else fs.seen a := by
  by_cases hwin : a / 512 = s
  · rw [seen_of_eq hwin, if_pos (by omega)]
    rfl
  · rw [seen_of_ne hwin, h.seen_of_clean hw ha]
    unfold zeroed
    dsimp only
    split_ifs with hs
    · exact overlay_inside (by omega) (by omega)
    · exact overlay_outside (by omega)

theorem zeroed_valid (hp : fs.Placed) (hn : 0 < n) (hs : fs.database ≤ s) (hlt : s < 2 ^ 32) : (fs.zeroed s n).Valid where
  placed := hp
  lt := hlt
  copy := (hp.plain_of_le hs).1.1
  clean := fun _ _ i hi => by
    dsimp only [zeroed]
    rw [overlay_inside (by omega) (by omega)]
  tidy := Drive.Tidy.nil rfl

theorem zeroed_fat (h : fs.Coherent) (hw : fs.wflag = false) (hn : 0 < n) (hs : fs.database ≤ s) :
    (fs.zeroed s n).fat = fs.fat := by
  funext c
  unfold FATFS.fat
  by_cases hc : 2 ≤ c ∧ c < fs.nFatent
  · refine (if_pos hc).trans (Eq.trans ?_ (if_pos hc).symm)
    refine Volume.entry_congr h.placed hc.2
      fun a (hge : fs.fatbase ≤ a / 512) (hlt : a / 512 < fs.fatbase + fs.fsize) => ?_
    have hle : fs.fsize ≤ fs.nFats * fs.fsize := Nat.le_mul_of_pos_left _ h.placed.fats
    have := h.placed.fat
    rw [zeroed_seen h hw hn (plain_of_fat h.placed hge hlt).1, if_neg (by omega)]
  · exact (if_neg hc).trans (if_neg hc).symm

end FATFS

namespace DirTable

variable {T T' : DirTable} {more more' : List ℕ} {mem mem' : ℕ → UInt8} {c i n : ℕ} {dp : DIR_}

theorem Room.congr (h : ∀ k ≤ i, T'.slot mem' k = T.slot mem k) (hr : T.Room mem n i) : T'.Room mem' n i :=
  ⟨hr.1, fun k hlt hle => by rw [h k hle]; exact hr.2 k hlt hle⟩

theorem Blanks.congr (h : ∀ k < i, T'.slot mem' k = T.slot mem k) (hb : T.Blanks mem n i) : T'.Blanks mem' n i := by
  obtain ⟨hle, hall, hmax⟩ := hb
  refine ⟨hle, fun k hge hlt => ?_, fun hlt => ?_⟩
  · rw [h k hlt]
    exact hall k hge hlt
  · rw [h _ (by omega)]
    exact hmax hlt

/-- The table with more clusters. -/
def extend (T : DirTable) (more : List ℕ) : DirTable := { T with clusters := T.clusters ++ more }

theorem extend_nil : T.extend [] = T := by
  unfold extend
  rw [List.append_nil]

theorem extend_extend : (T.extend more).extend more' = T.extend (more ++ more') := by
  unfold extend
  rw [List.append_assoc]

theorem extend_ne_nil (hl : T.clusters ≠ []) : (T.extend more).clusters ≠ [] := List.append_ne_nil_of_left_ne_nil hl more

theorem slots_le_extend (hl : T.clusters ≠ []) : T.slots ≤ (T.extend more).slots := by
  have hlen : T.clusters.length ≤ (T.extend more).clusters.length := by
    rw [extend, List.length_append]
    exact Nat.le_add_right _ _
  rw [slots, slots, if_neg hl, if_neg (extend_ne_nil hl)]
  exact min_le_min le_rfl (Nat.mul_le_mul_right _ hlen)

theorem slots_lt_extend (h : T.Placed) (hl : T.clusters ≠ []) (h16 : T.slots < 2 ^ 16) :
    T.slots < (T.extend [c]).slots := by
  have hpos : 0 < 16 * T.vol.csize := Nat.mul_pos (by decide) h.sized.pos
  have hlen : (T.extend [c]).clusters.length = T.clusters.length + 1 := List.length_append
  have hroom : (T.extend [c]).clusters.length * (16 * T.vol.csize) =
      T.clusters.length * (16 * T.vol.csize) + 16 * T.vol.csize := by rw [hlen, Nat.succ_mul]
  rw [slots, if_neg hl] at h16
  rw [slots, slots, if_neg hl, if_neg (extend_ne_nil hl)]
  change _ < min (2 ^ 16) ((T.extend [c]).clusters.length * (16 * T.vol.csize))
  omega

/-- The entries of the table stay where they are. -/
theorem addr_extend (hl : T.clusters ≠ []) (hi : i < T.slots) : (T.extend more).addr (32 * i) = T.addr (32 * i) := by
  rw [addr, addr, if_neg hl, if_neg (extend_ne_nil hl)]
  exact addr_congr (List.getElem?_append_left (div_lt (entry_lt hl hi)))

theorem slot_extend (hl : T.clusters ≠ []) (hi : i < T.slots) : (T.extend more).slot mem i = T.slot mem i := by
  rw [slot, slot, addr_extend hl hi]

theorem Placed.extend (h : T.Placed) (hl : T.clusters ≠ []) (hc : 2 ≤ c ∧ c < T.vol.nFatent) (hmem : c ∉ T.clusters) :
    (T.extend [c]).Placed where
  sized := h.sized
  range := fun c' hc' => by
    rcases List.mem_append.1 hc' with hold | hnew
    · exact h.range c' hold
    · rw [List.mem_singleton.1 hnew]
      exact hc
  nodup := List.nodup_append.2 ⟨h.nodup, List.nodup_singleton c, fun c' hc' y hy => by
    rintro rfl
    rw [List.mem_singleton.1 hy] at hc'
    exact hmem hc'⟩
  static := fun hnil => absurd hnil (extend_ne_nil hl)

/-- The entries of a cluster of zeros. -/
theorem extend_slot (h : T.Placed) (hl : T.clusters ≠ []) (h16 : T.slots < 2 ^ 16) (hi : T.slots ≤ i)
    (hi' : i < (T.extend [c]).slots) (hmem : ∀ a, T.vol.InClust c (a / 512) → mem a = 0) :
    (T.extend [c]).slot mem i = fun _ => 0 := by
  have hne : (T.extend [c]).clusters ≠ [] := extend_ne_nil hl
  have hpos : 0 < 16 * T.vol.csize := Nat.mul_pos (by decide) h.sized.pos
  have hlen : (T.extend [c]).clusters.length = T.clusters.length + 1 := List.length_append
  have hdiv : i / (16 * T.vol.csize) = T.clusters.length := by
    rw [slots, if_neg hl] at h16 hi
    rw [slots, if_neg hne, hlen] at hi'
    refine Nat.div_eq_of_lt_le (by omega) (lt_of_lt_of_le hi' (min_le_right _ _))
  have hget : (T.extend [c]).clusters[i / (16 * T.vol.csize)]? = some c := by
    rw [hdiv]
    exact List.getElem?_concat_length
  have hin : T.vol.InClust c ((T.extend [c]).addr (32 * i) / 512) := by
    rw [addr, if_neg hne]
    exact inClust_addr (v := T.vol) h.sized ((congrArg _ (T.entry_div i)).trans hget)
  rw [slot_eq]
  funext k
  unfold entryAt
  split_ifs with hk
  · refine hmem _ ?_
    rwa [show (512 * ((T.extend [c]).addr (32 * i) / 512) + i % 16 * 32 + k) / 512 =
      (T.extend [c]).addr (32 * i) / 512 by omega]
  · rfl

end DirTable

namespace OpenDir

variable {d d' d'' : OpenDir} {T : DirTable} {others : List (List ℕ)} {more more' : List ℕ} {a c i k n : ℕ}

/-- **The sectors of the new cluster.** -/
theorem cleanLoop_zeroes (n : ℕ) (hp : d.fs.Placed) (hf : d.fs.drv.faults = []) (hw : d.fs.wflag = false)
    (hwin : d.fs.win = fun _ => 0) (hs : d.fs.database ≤ d.fs.winsect) (hlt : d.fs.winsect + n ≤ 2 ^ 32) :
    cleanLoop n d = some (.ok (), { d with fs := { d.fs.zeroed d.fs.winsect n with winsect := d.fs.winsect + n } }) := by
  induction n generalizing d with
  | zero =>
    have hbytes : overlay d.fs.drv.bytes (512 * d.fs.winsect) (512 * 0) (fun _ => 0) = d.fs.drv.bytes :=
      overlay_window fun i hi => absurd hi (Nat.not_lt_zero i)
    unfold FATFS.zeroed
    rw [hbytes, ← hf, ← hwin, ← hw]
    rfl
  | succ n ih =>
    have hsync := FATFS.syncWindow_data hp hf hs (by omega)
    have hdirty : onVolume (fun fs => ((), fs.setDirty)) d = some (.ok (), { d with fs := d.fs.setDirty }) := rfl
    have hwrite : onVolume FATFS.syncWindow { d with fs := d.fs.setDirty } = some (.ok .FR_OK,
        { d with fs := { d.fs with wflag := false, drv :=
          ⟨overlay d.fs.drv.bytes (512 * d.fs.winsect) 512 d.fs.win, []⟩ } }) := onVolume_eq hsync
    unfold cleanLoop
    rw [Code.bind_ok hdirty, Code.bind_ok hwrite, if_neg (not_not.2 rfl)]
    refine (Code.bind_ok rfl).trans ?_
    have hrest := ih (d := { d with fs := { d.fs with wflag := false, winsect := d.fs.winsect + 1, drv :=
      ⟨overlay d.fs.drv.bytes (512 * d.fs.winsect) 512 d.fs.win, []⟩ } }) hp rfl rfl hwin (Nat.le_succ_of_le hs)
      (by dsimp only; omega)
    refine hrest.trans ?_
    -- the next sectors follow this one
    have hbytes : overlay (overlay d.fs.drv.bytes (512 * d.fs.winsect) 512 d.fs.win) (512 * (d.fs.winsect + 1)) (512 * n)
        (fun _ => 0) = overlay d.fs.drv.bytes (512 * d.fs.winsect) (512 * (n + 1)) fun _ => 0 := by
      funext x
      rw [hwin]
      unfold overlay
      split_ifs <;> first | rfl | omega
    unfold FATFS.zeroed
    dsimp only
    rw [hbytes, Nat.add_assoc, Nat.add_comm 1 n]

/-! ## A new cluster for the table -/

/-- The table got more clusters, whose entries are free. -/
structure Grown (T : DirTable) (more : List ℕ) (others : List (List ℕ)) (d d' : OpenDir) : Prop where
  lies : d'.Lies (T.extend more) others
  faults : d'.fs.drv.faults = []
  free : ∀ i, T.slots ≤ i → i < (T.extend more).slots → (T.extend more).slot d'.fs.seen i = fun _ => 0
  other : ∀ a, T.vol.Plain (a / 512) → ¬ T.vol.InFat (a / 512) → (∀ c ∈ more, ¬ T.vol.InClust c (a / 512)) →
    d'.fs.seen a = d.fs.seen a

/-- All clusters are in use. -/
def Full (d : OpenDir) : Prop := ∀ c, 2 ≤ c → c < d.fs.nFatent → d.fs.fat c ≠ 0

theorem Same.grown (h : d.Lies T others) (hf : d.fs.drv.faults = []) (hs : Same d d') : Grown T [] others d d' := by
  refine ⟨?_, hs.shows.faults hf, fun i hge hlt => ?_, fun a ha _ _ => hs.shows.seen a (by rwa [h.vol])⟩
  · rw [extend_nil]
    exact h.same hs
  · rw [extend_nil] at hlt
    exact absurd hge (Nat.not_le_of_lt hlt)

theorem Same.then_grown (h : d.Lies T others) (hs : Same d d') (hg : Grown T more others d' d'') :
    Grown T more others d d'' :=
  ⟨hg.lies, hg.faults, hg.free, fun a ha hfat hc => (hg.other a ha hfat hc).trans (hs.shows.seen a (by rwa [h.vol]))⟩

theorem Grown.same (hg : Grown T more others d d') (hs : Same d' d'') : Grown T more others d d'' := by
  have hvol : d'.fs.toVolume = T.vol := hg.lies.vol
  refine ⟨hg.lies.same hs, hs.shows.faults hg.faults, fun i hge hlt => ?_, fun a ha hfat hc => ?_⟩
  · rw [hg.lies.slot hs hlt]
    exact hg.free i hge hlt
  · rw [hs.shows.seen a (by rwa [hvol])]
    exact hg.other a ha hfat hc

/-- The sectors of the table are not those of another cluster. -/
theorem Grown.slot (h : d.Lies T others) (hl : T.clusters ≠ []) (hg : Grown T more others d d') (hi : i < T.slots) :
    (T.extend more).slot d'.fs.seen i = T.slot d.fs.seen i := by
  obtain ⟨hplain, hfat, -, -⟩ := sect_plain h.placed hi
  rw [slot_extend hl hi]
  refine slot_congr fun a ha => hg.other a (by rwa [ha]) (by rwa [ha]) fun c hc hin => ?_
  obtain ⟨y, hget, -, hge, -⟩ := getElem?_of_lt h.placed hl hi
  have hy : T.vol.InClust y (a / 512) := by
    rw [ha, DirTable.addr, if_neg hl]
    exact inClust_addr (v := T.vol) h.placed.sized ((congrArg _ (T.entry_div i)).trans hget)
  have hnd := hg.lies.placed.nodup
  have hrange := (hg.lies.placed.range c (List.mem_append_right _ hc)).1
  obtain rfl := hy.unique hin hge hrange
  exact (List.nodup_append.1 hnd).2.2 y (List.mem_of_getElem? hget) y hc rfl

theorem Grown.trans (hl : T.clusters ≠ []) (hg : Grown T more others d d')
    (hg' : Grown (T.extend more) more' others d' d'') : Grown T (more ++ more') others d d'' := by
  have hext : (T.extend more).extend more' = T.extend (more ++ more') := extend_extend
  refine ⟨hext ▸ hg'.lies, hg'.faults, fun i hge hlt => ?_, fun a ha hfat hc => ?_⟩
  · rw [← hext] at hlt ⊢
    rcases Nat.lt_or_ge i (T.extend more).slots with hold | hnew
    · rw [hg'.slot hg.lies (extend_ne_nil hl) hold]
      exact hg.free i hge hold
    · exact hg'.free i hnew hlt
  · rw [hg'.other a ha hfat fun c hmem => hc c (List.mem_append_right _ hmem)]
    exact hg.other a ha hfat fun c hmem => hc c (List.mem_append_left _ hmem)

/-- A chain of the FAT is longer by one cluster. -/
theorem createChain_grows {l : List ℕ} {fs : FATFS} {y : ℕ} (h : fs.Allocated ((l ++ [y]) :: others))
    (hf : fs.drv.faults = []) : ∃ r fs', fs.createChain y fs.nFatent = some (r, fs') ∧ fs.Keeps fs' ∧
      ((2 ≤ r ∧ r < fs.nFatent ∧ fs'.Allocated ((l ++ [y] ++ [r]) :: others)) ∨
        (r = 0 ∧ (∀ c, 2 ≤ c → c < fs.nFatent → fs'.fat c ≠ 0) ∧ fs'.Allocated ((l ++ [y]) :: others))) := by
  obtain ⟨hge, hlt, -⟩ := h.fat_eq
  obtain ⟨r, fs', hrun, hcreated⟩ := FATFS.createChain_created h.valid (.inr ⟨hge, hlt⟩) le_rfl
  have ha := hcreated.answered_of_mem h (.inr hf)
  obtain ⟨lost, halloc, -, hlost⟩ := ha.chains
  have hrest : fs'.Allocated
      ((if 2 ≤ r ∧ r < fs.nFatent then extendAt (l ++ [y]) l.length r else l ++ [y]) :: others) := by
    have hchains := halloc.chains.perm (List.Perm.cons _ (List.perm_append_comm : (lost ++ others).Perm (others ++ lost)))
    rw [← List.cons_append] at hchains
    exact ⟨halloc.valid, hchains.of_append (hlost hf)⟩
  rw [FATFS.extendAt_new List.not_mem_nil] at hrest
  obtain hr | ⟨rfl, hfull⟩ | ⟨-, hne⟩ := ha.answer
  · rw [if_pos hr] at hrest
    refine ⟨r, fs', hrun, ha.keeps, .inl ⟨hr.1, hr.2, ?_⟩⟩
    rwa [List.append_assoc]
  · rw [if_neg (by omega)] at hrest
    exact ⟨0, fs', hrun, ha.keeps, .inr ⟨rfl, hfull, hrest⟩⟩
  · exact absurd hf hne

theorem Lies.extend {fs' : FATFS} (h : d.Lies T others) (hl : T.clusters ≠ []) (hvol : fs'.toVolume = d.fs.toVolume)
    (halloc : fs'.Allocated ((T.clusters ++ [c]) :: others)) : Lies { d with fs := fs' } (T.extend [c]) others := by
  have hnd : (T.clusters ++ [c]).Nodup := (List.nodup_append.1 (List.flatten_cons ▸ halloc.chains.nodup)).1
  have hc := halloc.mem_range (c := c) (by simp)
  rw [hvol, h.vol] at hc
  refine ⟨hvol.trans h.vol, h.root, h.placed.extend hl hc fun hmem => ?_, halloc,
    fun hnil => absurd hnil (extend_ne_nil hl), fun y hy => h.start y ?_⟩
  · exact (List.nodup_append.1 hnd).2.2 c hmem c (List.mem_singleton_self c) rfl
  · exact (List.head?_append_of_ne_nil _ hl).symm.trans hy

/-- The new cluster is filled with zeros. -/
theorem Grown.zeroed {fs : FATFS} (h : d.Lies T others) (hl : T.clusters ≠ []) (h16 : T.slots < 2 ^ 16)
    (hvol : fs.toVolume = d.fs.toVolume) (hw : fs.wflag = false) (halloc : fs.Allocated ((T.clusters ++ [c]) :: others))
    (hseen : ∀ a, T.vol.Plain (a / 512) → ¬ T.vol.InFat (a / 512) → fs.seen a = d.fs.seen a) :
    Grown T [c] others d { d with fs := fs.zeroed (T.vol.sector c) T.vol.csize } := by
  have hpos := h.placed.sized.pos
  have hvol' : fs.toVolume = T.vol := hvol.trans h.vol
  obtain ⟨hge, hlt⟩ := halloc.mem_range (c := c) (by simp)
  rw [hvol'] at hlt
  have hroom := h.placed.sized.sector_add_le hge hlt
  have hdata : fs.database ≤ T.vol.sector c := by
    rw [hvol']
    exact Nat.le_add_right _ _
  have hcoh := halloc.valid.toCoherent
  have hlinks : (fs.zeroed (T.vol.sector c) T.vol.csize).links = fs.links :=
    FATFS.links_congr rfl (FATFS.zeroed_fat hcoh hw hpos hdata)
  have hzero : (fs.zeroed (T.vol.sector c) T.vol.csize).Allocated ((T.clusters ++ [c]) :: others) :=
    ⟨FATFS.zeroed_valid halloc.valid.placed hpos hdata (by omega), hlinks ▸ halloc.chains⟩
  have hlook : ∀ a, T.vol.Plain (a / 512) → (fs.zeroed (T.vol.sector c) T.vol.csize).seen a =
      if T.vol.sector c ≤ a / 512 ∧ a / 512 < T.vol.sector c + T.vol.csize then 0 else fs.seen a :=
    fun a ha => FATFS.zeroed_seen hcoh hw hpos (by rwa [hvol'])
  refine ⟨h.extend hl hvol hzero, rfl, fun i hi hi' => ?_, fun a ha hfat hc => ?_⟩
  · refine extend_slot h.placed hl h16 hi hi' fun a ha => ?_
    exact (hlook a (h.placed.sized.placed.plain_of_le ha.database_le).1).trans (if_pos ha)
  · exact ((hlook a ha).trans (if_neg (hc c (List.mem_singleton_self c)))).trans (hseen a ha hfat)

theorem createChain_eq {fs' : FATFS} (h : d.fs.createChain c d.fs.nFatent = some (k, fs')) :
    createChain c d = some (.ok k, { d with fs := fs' }) := by
  unfold createChain Code.run
  dsimp only
  rw [h]
  rfl

/-- The code, once the chain has a new cluster and the window is written back. -/
theorem stretchTable_run {fs₁ fs₂ : FATFS} (hs : T.vol.Sized) (hvol : d.fs.toVolume = T.vol)
    (hc : 2 ≤ c ∧ c < T.vol.nFatent) (hcreate : createChain d.dp.clust d = some (.ok c, { d with fs := fs₁ }))
    (hsync : fs₁.syncWindow = (.FR_OK, fs₂)) (hvol' : fs₂.toVolume = T.vol) (hf : fs₂.drv.faults = [])
    (hw : fs₂.wflag = false) :
    stretchTable d = some (.ok c, { d with fs := fs₂.zeroed (T.vol.sector c) T.vol.csize }) := by
  obtain ⟨hge, hlt⟩ := hc
  have hsect : fs₂.clust2sect c = T.vol.sector c := by
    rw [(clust2sect_eq (by rwa [hvol']) hge (by rwa [hvol'])).1, hvol']
  have hdata : fs₂.database ≤ T.vol.sector c := by
    rw [hvol']
    exact Nat.le_add_right _ _
  have hclean := cleanLoop_zeroes (d := { d with fs := { fs₂ with win := fun _ => 0, winsect := T.vol.sector c } })
    T.vol.csize (by rw [hvol']; exact hs.placed) hf hw rfl hdata (hs.sector_add_le hge hlt)
  have hwrite : onVolume FATFS.syncWindow { d with fs := fs₁ } = some (.ok .FR_OK, { d with fs := fs₂ }) :=
    onVolume_eq hsync
  have hwin : onVolume (fun fs => ((), { fs with win := fun _ => 0, winsect := fs.clust2sect c })) { d with fs := fs₂ } =
      some (.ok (), { d with fs := { fs₂ with win := fun _ => 0, winsect := T.vol.sector c } }) :=
    onVolume_eq (by rw [hsect])
  unfold stretchTable
  rw [Code.bind_ok (show Code.read d = some (.ok d, d) from rfl), Code.bind_ok hcreate, if_neg (by omega),
    if_neg (by omega), if_neg (ne_failed hs.placed hlt), Code.bind_ok hwrite, if_neg (not_not.2 rfl),
    Code.bind_ok hwin, hvol]
  refine (Code.bind_ok hclean).trans ?_
  refine (Code.bind_ok rfl).trans ?_
  dsimp only [FATFS.zeroed]
  rw [Nat.add_sub_cancel]
  rfl

/-- **The table gets a cluster of zeros**, unless all clusters are in use. -/
theorem stretchTable_grows {l : List ℕ} (h : d.Lies T others) (hf : d.fs.drv.faults = [])
    (hlast : T.clusters = l ++ [d.dp.clust]) (h16 : T.slots < 2 ^ 16) : ∃ r d', stretchTable d = some (r, d') ∧
      d'.dp = d.dp ∧ ((∃ c, r = .ok c ∧ Grown T [c] others d d') ∨
        (r = .error .FR_DENIED ∧ Grown T [] others d d' ∧ Full d')) := by
  have hl : T.clusters ≠ [] := hlast ▸ List.concat_ne_nil _ l
  have halloc := h.alloc
  rw [hlast] at halloc
  obtain ⟨c, fs₁, hrun, hkeep, hcases⟩ := createChain_grows halloc hf
  rw [← hlast] at hcases
  have hcreate := createChain_eq hrun
  have hf₁ := hkeep.faults hf
  have hother : ∀ a, T.vol.Plain (a / 512) → ¬ T.vol.InFat (a / 512) → fs₁.seen a = d.fs.seen a := fun a ha hfat => by
    unfold Volume.InFat at hfat
    exact hkeep.seen a (by rwa [h.vol]) (by rw [h.vol]; omega)
  obtain ⟨hge, hlt, hlonger⟩ | ⟨rfl, hfull, hsame⟩ := hcases
  · rcases hsync : fs₁.syncWindow with ⟨res, fs₂⟩
    obtain rfl | ⟨-, hfail⟩ := FATFS.res_syncWindow hkeep.valid.toCoherent hsync
    · have hshow := FATFS.syncWindow_shows hkeep.valid hsync
      have hw := FATFS.wflag_syncWindow hkeep.valid.toCoherent hsync
      have hvol : fs₂.toVolume = d.fs.toVolume := hshow.vol.trans hkeep.vol
      rw [h.vol] at hlt
      refine ⟨.ok c, _, stretchTable_run h.placed.sized h.vol ⟨hge, hlt⟩ hcreate hsync (hvol.trans h.vol)
        (hshow.faults hf₁) hw, rfl, .inl ⟨c, rfl, ?_⟩⟩
      refine Grown.zeroed h hl h16 hvol hw (hlonger.of_shows hshow) fun a ha hfat => ?_
      rw [hshow.seen a (by rwa [hkeep.vol, h.vol])]
      exact hother a ha hfat
    · exact absurd hf₁ hfail.ne_nil
  · refine ⟨.error .FR_DENIED, { d with fs := fs₁ }, ?_, rfl, .inr ⟨rfl, ⟨?_, hf₁, fun i hle hlt => ?_, fun a ha hfat _ =>
      hother a ha hfat⟩, fun c hge hlt => hfull c hge (by rwa [← hkeep.vol])⟩⟩
    · unfold stretchTable
      rw [Code.bind_ok (show Code.read d = some (.ok d, d) from rfl), Code.bind_ok hcreate, if_pos rfl]
      rfl
    · rw [extend_nil]
      exact ⟨hkeep.vol.trans h.vol, h.root, h.placed, hsame, h.static, h.start⟩
    · rw [extend_nil] at hlt
      exact absurd hle (Nat.not_le_of_lt hlt)

/-- The entry behind the last one is the first one of the new cluster. -/
theorem extend_at {dp : DIR_} (h : (T.extend [c]).Placed) (hl : T.clusters ≠ [])
    (hlen : i + 1 = T.clusters.length * (16 * T.vol.csize)) (hindex : dp.index = i + 1) (hclust : dp.clust = c)
    (hsect : dp.sect = T.vol.sector c) (hdir : dp.dir = (i + 1) % 16 * 32) : (T.extend [c]).At dp (i + 1) := by
  have hpos : 0 < 16 * T.vol.csize := Nat.mul_pos (by decide) h.sized.pos
  have hdiv : (i + 1) / (16 * T.vol.csize) = T.clusters.length := by rw [hlen, Nat.mul_div_cancel _ hpos]
  have hgetD : (T.extend [c]).clusters.getD ((i + 1) / (16 * (T.extend [c]).vol.csize)) 0 = c := by
    have hget : (T.extend [c]).clusters[T.clusters.length]? = some c := List.getElem?_concat_length
    rw [show (i + 1) / (16 * (T.extend [c]).vol.csize) = T.clusters.length from hdiv, List.getD_eq_getElem?_getD, hget]
    rfl
  refine ⟨hindex, hclust.trans hgetD.symm, hsect.trans ?_, hdir⟩
  rw [addr_dynamic (extend_ne_nil hl) hgetD, show (i + 1) % (16 * (T.extend [c]).vol.csize) = 0 by
    rw [show (T.extend [c]).vol.csize = T.vol.csize from rfl, hlen, Nat.mul_mod_left]]
  exact (Nat.mul_div_cancel_left _ (by decide)).symm

/-- **Behind the last entry** there is one in a new cluster, unless all clusters are in use. -/
theorem dirNext_grows (h : d.Lies T others) (hf : d.fs.drv.faults = []) (hat : T.At d.dp i) (hl : T.clusters ≠ [])
    (hi : i + 1 = T.slots) (h16 : T.slots < 2 ^ 16) : ∃ r d', dirNext true d = some (r, d') ∧ Moved d.dp d'.dp ∧
      ((r = .ok () ∧ ∃ c, Grown T [c] others d d' ∧ (T.extend [c]).At d'.dp (i + 1)) ∨
        (r = .error .FR_DENIED ∧ Grown T [] others d d' ∧ Full d')) := by
  have hv := h.alloc.valid
  have hlen : i + 1 = T.clusters.length * (16 * T.vol.csize) := by
    rw [slots, if_neg hl] at hi h16
    omega
  obtain ⟨⟨l, hlast⟩, hge, hlt, hend⟩ := h.last_clust hat hl (by omega) hlen
  have hfat := FATFS.fat_lt (c := d.dp.clust) hv.placed
  have hn := h.placed.sized.placed.clusters
  rcases hget : d.fs.getFat d.dp.clust with ⟨v, fs'⟩
  obtain ⟨hshow, rfl | ⟨-, hfail⟩⟩ := FATFS.getFat_shows hv hge (by rwa [h.vol]) hget
  · have hs : Same d { d with fs := fs', dp := { d.dp with sect := d.dp.sect + 1 } } := ⟨hshow, ⟨rfl, rfl⟩, rfl⟩
    have hread : onVolume (fun fs => fs.getFat d.dp.clust) { d with dp := { d.dp with sect := d.dp.sect + 1 } } =
        some (.ok (d.fs.fat d.dp.clust), { d with fs := fs', dp := { d.dp with sect := d.dp.sect + 1 } }) :=
      onVolume_eq hget
    have hnext : nextClust true { d with dp := { d.dp with sect := d.dp.sect + 1 } } = (stretchTable >>= toClust)
        { d with fs := fs', dp := { d.dp with sect := d.dp.sect + 1 } } := by
      unfold nextClust
      refine (Code.bind_ok rfl).trans ?_
      dsimp only
      rw [Code.bind_ok hread]
      rw [if_neg (by omega), if_neg (by omega), if_pos (by rwa [h.vol]), if_pos rfl]
    rw [dirNext_last h hat true hl hlen (by omega)]
    obtain ⟨r, d₁, hrun, hdp, ⟨c, rfl, hgrown⟩ | ⟨rfl, hgrown, hfull⟩⟩ :=
      stretchTable_grows (h.same hs) (hs.shows.faults hf) hlast h16
    · have hc := hgrown.lies.placed.range c (List.mem_append_right _ (List.mem_singleton_self c))
      have hsize : d₁.fs.Sized := by rw [hgrown.lies.vol]; exact h.placed.sized
      have hsect : d₁.fs.clust2sect c = T.vol.sector c := by
        rw [(clust2sect_eq hsize hc.1 (by rw [hgrown.lies.vol]; exact hc.2)).1, hgrown.lies.vol]
        rfl
      have hto : toClust c d₁ = some (.ok (), { d₁ with dp := { d₁.dp with clust := c, sect := T.vol.sector c } }) := by
        rw [← hsect]
        rfl
      refine ⟨.ok (),
        { d₁ with dp := { d₁.dp with index := i + 1, clust := c, sect := T.vol.sector c, dir := (i + 1) % 16 * 32 } },
        ?_, ?_, .inl ⟨rfl, c, ?_, extend_at hgrown.lies.placed hl hlen rfl rfl rfl rfl⟩⟩
      · rw [Code.bind_ok (hnext.trans ((Code.bind_ok hrun).trans hto))]
        rfl
      · rw [hdp]
        rfl
      · exact (hs.then_grown h hgrown).same ⟨FATFS.Shows.refl hgrown.lies.alloc.valid, ⟨rfl, rfl⟩, rfl⟩
    · refine ⟨.error .FR_DENIED, d₁, Code.bind_error (hnext.trans (Code.bind_error hrun)), ?_,
        .inr ⟨rfl, hs.then_grown h hgrown, hfull⟩⟩
      rw [hdp]
      rfl
  · exact absurd hf hfail.ne_nil

/-! ## Room for the entries -/

section Room

variable {nent : ℕ} {r : Except FRESULT Unit}

/-- How the search for room ends: at the first room of the table, or without any as the table or the volume is full. The
table gets longer only when it has no room. -/
def Settled (T : DirTable) (others : List (List ℕ)) (nent : ℕ) (full : FRESULT) (d : OpenDir) (r : Except FRESULT Unit)
    (d' : OpenDir) : Prop :=
  ∃ more, Grown T more others d d' ∧ Moved d.dp d'.dp ∧ (more ≠ [] → ∀ k < T.slots, ¬ T.Room d.fs.seen nent k) ∧
    ((r = .ok () ∧ ∃ j < (T.extend more).slots, (T.extend more).Room d'.fs.seen nent j ∧
        (∀ k < j, ¬ (T.extend more).Room d'.fs.seen nent k) ∧ (T.extend more).At d'.dp j) ∨
      ((∀ k < (T.extend more).slots, ¬ (T.extend more).Room d'.fs.seen nent k) ∧
        ((r = .error full ∧ (T.extend more).slots = 2 ^ 16) ∨ (r = .error .FR_DENIED ∧ Full d'))))

theorem Settled.of_grown {full : FRESULT} (h : d.Lies T others) (hl : T.clusters ≠ []) (hg : Grown T more others d d')
    (hm : Moved d.dp d'.dp) (hneed : more ≠ [] → ∀ k < T.slots, ¬ T.Room d.fs.seen nent k)
    (hs : Settled (T.extend more) others nent full d' r d'') : Settled T others nent full d r d'' := by
  obtain ⟨more', hg', hm', hneed', hend⟩ := hs
  rw [extend_extend] at hend
  refine ⟨more ++ more', hg.trans hl hg', hm.trans hm', fun hne k hk hr => ?_, hend⟩
  by_cases hold : more = []
  · refine hneed' (fun hnil => hne (by rw [hold, hnil]; rfl)) k (hk.trans_le (slots_le_extend hl)) ?_
    exact hr.congr fun j hj => hg.slot h hl (by omega)
  · exact hneed hold k hk hr

/-- After an entry up to which there is no room, the search goes on behind it. -/
theorem Settled.next {k : Unit → DirCode Unit} (h : d.Lies T others) (hf : d.fs.drv.faults = []) (hl : T.clusters ≠ [])
    (hat : T.At d.dp i) (hi : i < T.slots) (hb : T.Blanks d.fs.seen n (i + 1))
    (hpast : ∀ j < i + 1, ¬ T.Room d.fs.seen nent j)
    (hk : ∀ T' d', d'.Lies T' others → d'.fs.drv.faults = [] → T'.clusters ≠ [] → T'.At d'.dp (i + 1) →
      i + 1 < T'.slots → T'.Blanks d'.fs.seen n (i + 1) → (∀ j < i + 1, ¬ T'.Room d'.fs.seen nent j) →
      ∃ r d'', k () d' = some (r, d'') ∧ Settled T' others nent .FR_NO_FILE d' r d'') :
    ∃ r d', (dirNext true >>= k) d = some (r, d') ∧ Settled T others nent .FR_NO_FILE d r d' := by
  have hgo : ∀ more d', dirNext true d = some (.ok (), d') → Grown T more others d d' → Moved d.dp d'.dp →
      (more ≠ [] → i + 1 = T.slots) → (T.extend more).At d'.dp (i + 1) → i + 1 < (T.extend more).slots →
      ∃ r d'', (dirNext true >>= k) d = some (r, d'') ∧ Settled T others nent .FR_NO_FILE d r d'' := by
    intro more d' hrun hg hm hend hat' hlt
    have hkeep : ∀ j < i + 1, (T.extend more).slot d'.fs.seen j = T.slot d.fs.seen j :=
      fun j hj => hg.slot h hl (by omega)
    obtain ⟨r, d'', hrest, hs⟩ := hk _ d' hg.lies hg.faults (extend_ne_nil hl) hat' hlt (hb.congr hkeep)
      fun j hj hr => hpast j hj (hr.congr fun y hy => (hkeep y (by omega)).symm)
    exact ⟨r, d'', (Code.bind_ok hrun).trans hrest,
      hs.of_grown h hl hg hm fun hne j hj => hpast j (by have := hend hne; omega)⟩
  have hnone : ∀ d', Grown T [] others d d' → i + 1 = T.slots →
      ∀ j < (T.extend []).slots, ¬ (T.extend []).Room d'.fs.seen nent j := by
    intro d' hg hend j hj hr
    rw [extend_nil] at hj
    exact hpast j (by omega) (hr.congr fun y hy => (hg.slot h hl (by omega)).symm)
  have hle := slots_le h.placed
  rcases Nat.eq_or_lt_of_le (Nat.succ_le_of_lt hi) with hend | hlt
  · by_cases h16 : T.slots = 2 ^ 16
    · obtain ⟨_, d', hrun, hs, rfl, hm⟩ := (dirNext_full (N := 0) h hat true hend (.inr h16)).result
      have hg := hs.grown h hf
      exact ⟨_, d', Code.bind_error hrun, [], hg, hm, fun hne => absurd rfl hne,
        .inr ⟨hnone d' hg hend, .inl ⟨rfl, by rw [extend_nil, h16]⟩⟩⟩
    · obtain ⟨_, d', hrun, hm, ⟨rfl, c, hg, hat'⟩ | ⟨rfl, hg, hfull⟩⟩ := dirNext_grows h hf hat hl hend (by omega)
      · have hlt := slots_lt_extend (c := c) h.placed hl (by omega)
        exact hgo [c] d' hrun hg hm (fun _ => hend) hat' (by rwa [← Nat.succ_eq_add_one, hend])
      · exact ⟨_, d', Code.bind_error hrun, [], hg, hm, fun hne => absurd rfl hne,
          .inr ⟨hnone d' hg hend, .inr ⟨rfl, hfull⟩⟩⟩
  · obtain ⟨_, d', hrun, hs, rfl, hat', hm⟩ := (dirNext_looks h (Drive.failures_of_nil hf) hat true hlt).result
    exact hgo [] d' hrun (hs.grown h hf) hm (fun hne => absurd rfl hne) (by rwa [extend_nil]) (by rwa [extend_nil])

theorem allocLoop_grows (fuel : ℕ) (h : d.Lies T others) (hf : d.fs.drv.faults = []) (hl : T.clusters ≠ [])
    (hat : T.At d.dp i) (hi : i < T.slots) (hb : T.Blanks d.fs.seen n i) (hn : n < nent)
    (hpast : ∀ k < i, ¬ T.Room d.fs.seen nent k) (hfuel : 2 ^ 16 ≤ i + fuel) :
    ∃ r d', allocLoop nent fuel n d = some (r, d') ∧ Settled T others nent .FR_NO_FILE d r d' := by
  induction fuel generalizing d T i n with
  | zero =>
    have := slots_le h.placed
    omega
  | succ fuel ih =>
    obtain ⟨_, d₁, hwin, hs, rfl, hdp, -, hentry⟩ := (toWindow_looks h (Drive.failures_of_nil hf) hat hi).result
    have h₁ := h.same hs
    have hat₁ : T.At d₁.dp i := by rwa [hdp]
    have hm₁ : Moved d.dp d₁.dp := by
      rw [hdp]
      rfl
    have hslot : ∀ k < T.slots, T.slot d₁.fs.seen k = T.slot d.fs.seen k := fun k hk => h.slot hs hk
    rw [← hslot i hi] at hentry
    have hb₁ : T.Blanks d₁.fs.seen n i := hb.congr fun k hk => hslot k (hk.trans hi)
    have hpast₁ : ∀ k < i, ¬ T.Room d₁.fs.seen nent k := fun k hk hr =>
      hpast k hk (hr.congr fun j hj => (hslot j (by omega)).symm)
    -- the next entry, before which so many are blank
    have hnext : ∀ n', n' < nent → T.Blanks d₁.fs.seen n' (i + 1) → ¬ T.Room d₁.fs.seen nent i →
        ∃ r d', (dirNext true >>= fun _ => allocLoop nent fuel n') d₁ = some (r, d') ∧
          Settled T others nent .FR_NO_FILE d₁ r d' := by
      intro n' hn' hb' hroom
      refine Settled.next h₁ (hs.shows.faults hf) hl hat₁ hi hb' (fun k hk => ?_)
        fun T' d' h' hf' hl' hat' hi' hb'' hpast' => ih h' hf' hl' hat' hi' hb'' hn' hpast' (by omega)
      rcases Nat.eq_or_lt_of_le (Nat.le_of_lt_succ hk) with rfl | hlt
      · exact hroom
      · exact hpast₁ k hlt
    have hloop : ∃ r d', allocLoop nent (fuel + 1) n d = some (r, d') ∧ Settled T others nent .FR_NO_FILE d₁ r d' := by
      unfold allocLoop
      rw [Code.bind_ok hwin, Code.bind_ok (show Code.read d₁ = some (.ok d₁, d₁) from rfl), hentry]
      split_ifs with hblank heq
      · refine ⟨.ok (), d₁, rfl, [], (Same.refl h₁.alloc.valid).grown h₁ (hs.shows.faults hf), rfl,
          fun hne => absurd rfl hne, .inl ⟨rfl, i, ?_⟩⟩
        rw [extend_nil]
        exact ⟨hi, heq ▸ hb₁.room hblank, hpast₁, hat₁⟩
      · refine hnext (n + 1) (by omega) (hb₁.blank hblank) fun hroom => ?_
        have := hb₁.le_of_room hroom
        omega
      · exact hnext 0 (by omega) (.used hblank) fun hroom => hblank (hroom.2 i (by omega) le_rfl)
    obtain ⟨r, d', hrun, hset⟩ := hloop
    have hg : Grown T [] others d d₁ := hs.grown h hf
    rw [← extend_nil (T := T)] at hset
    exact ⟨r, d', hrun, hset.of_grown h hl hg hm₁ fun hne => absurd rfl hne⟩

/-- **Room in a directory that may grow.** -/
theorem dirAlloc_grows (h : d.Lies T others) (hf : d.fs.drv.faults = []) (hl : T.clusters ≠ []) (hn : 0 < nent) :
    ∃ r d', dirAlloc nent d = some (r, d') ∧ Settled T others nent .FR_DENIED d r d' := by
  have hpos := slots_pos h.placed
  obtain ⟨_, d₁, hsdi, hs, rfl, hat, hm₁⟩ := (dirSdi_looks h (Drive.failures_of_nil hf) hpos).result
  obtain ⟨r, d', hloop, hset⟩ := allocLoop_grows (2 ^ 16) (h.same hs) (hs.shows.faults hf) hl hat hpos .zero hn
    (fun k hk => absurd hk (Nat.not_lt_zero k)) (by omega)
  have hrun : (dirSdi 0 >>= fun _ => allocLoop nent (2 ^ 16) 0) d = some (r, d') := (Code.bind_ok hsdi).trans hloop
  have hg₁ : Grown T [] others d d₁ := hs.grown h hf
  rw [← extend_nil (T := T)] at hset
  obtain ⟨more, hg, hm, hneed, ⟨rfl, hroom⟩ | ⟨hnone, ⟨rfl, hfull⟩ | ⟨rfl, hfull⟩⟩⟩ :=
    hset.of_grown h hl hg₁ hm₁ fun hne => absurd rfl hne
  · exact ⟨.ok (), d', instead_ok hrun (by decide), more, hg, hm, hneed, .inl ⟨rfl, hroom⟩⟩
  · exact ⟨.error .FR_DENIED, d', instead_error hrun (by decide) (by decide), more, hg, hm, hneed,
      .inr ⟨hnone, .inl ⟨rfl, hfull⟩⟩⟩
  · exact ⟨.error .FR_DENIED, d', instead_error hrun (by decide) (by decide), more, hg, hm, hneed,
      .inr ⟨hnone, .inr ⟨rfl, hfull⟩⟩⟩

end Room

/-- The objects are in the entries that they were in. -/
theorem Grown.holds {os : List DirObject} (h : d.Lies T others) (hl : T.clusters ≠ []) (hg : Grown T more others d d')
    (hos : Holds os (T.entries d.fs.seen 0)) : Holds os ((T.extend more).entries d'.fs.seen 0) := by
  have hle : T.slots ≤ (T.extend more).slots := slots_le_extend hl
  have hsplit : (T.extend more).entries d'.fs.seen 0 = T.entries d.fs.seen 0 ++
      (T.extend more).segment d'.fs.seen T.slots ((T.extend more).slots - T.slots) := by
    have hold : (T.extend more).segment d'.fs.seen 0 T.slots = T.segment d.fs.seen 0 T.slots :=
      List.map_congr_left fun k hk => hg.slot h hl (by have := (List.mem_range'_1.1 hk).2; omega)
    calc (T.extend more).entries d'.fs.seen 0
        = (T.extend more).segment d'.fs.seen 0 (T.slots + ((T.extend more).slots - T.slots)) := by
          rw [entries_zero, Nat.add_sub_cancel' hle]
      _ = _ := by rw [segment_append, hold, Nat.zero_add, entries_zero]
  rw [hsplit]
  refine hos.grow fun e he => ?_
  obtain ⟨k, hk, rfl⟩ := List.mem_map.1 he
  obtain ⟨hge, hlt⟩ := List.mem_range'_1.1 hk
  rw [hg.free k hge (by omega)]

/-- **Registering in a directory that may grow.** An object whose short name needs no number is put among the others, and
the table gets longer when it has no room. Only when no more entries can be reached, or all clusters are in use, there is
no room, and then no entry is changed. -/
theorem dirRegister_grows {os : List DirObject} {o : DirObject} (h : d.Lies T others) (hf : d.fs.drv.faults = [])
    (hl : T.clusters ≠ []) (hos : Holds os (T.entries d.fs.seen 0)) (ho : o.Sound) (hloss : d.dp.ns &&& nsLoss = 0)
    (hfn : d.dp.fn = o.sfn) (hname : if d.dp.ns &&& nsLfn ≠ 0 then HoldsName d.dp.lfnbuf o.nm else o.nm = []) :
    ∃ r d' more, dirRegister d = some (r, d') ∧
      ((r = .ok () ∧ d'.Lies (T.extend more) others ∧ d'.fs.drv.faults = [] ∧
          (more = [] ↔ ∃ j < T.slots, T.Room d.fs.seen (lfnCount o.nm + 1) j) ∧
          (∃ os₁ os₂, os = os₁ ++ os₂ ∧ Holds (os₁ ++ o :: os₂) ((T.extend more).entries d'.fs.seen 0)) ∧
          ∀ a, T.vol.Plain (a / 512) → ¬ T.vol.InFat (a / 512) → (∀ c ∈ more, ¬ T.vol.InClust c (a / 512)) →
            (∀ k < (T.extend more).slots, ∀ x < 32, a ≠ (T.extend more).addr (32 * k) + x) →
              d'.fs.seen a = d.fs.seen a) ∨
        (r = .error .FR_DENIED ∧ Grown T more others d d' ∧ Holds os ((T.extend more).entries d'.fs.seen 0) ∧
          (∀ k < (T.extend more).slots, ¬ (T.extend more).Room d'.fs.seen (lfnCount o.nm + 1) k) ∧
          ((T.extend more).slots = 2 ^ 16 ∨ Full d'))) := by
  rw [dirRegister_eq ho hloss hname]
  obtain ⟨r, d₁, halloc, more, hg, hm₁, hneed, ⟨rfl, j, hj, hroom, hfirst, hat₁⟩ | ⟨hnone, hend⟩⟩ :=
    dirAlloc_grows h hf hl (Nat.succ_pos (lfnCount o.nm))
  · have hn : lfnCount o.nm ≤ j := Nat.le_of_succ_le_succ hroom.1
    have hfn₁ : d₁.dp.fn = o.sfn := by rw [hm₁, hfn]
    have hbuf₁ : 0 < lfnCount o.nm → HoldsName d₁.dp.lfnbuf o.nm := by
      rw [hm₁]
      exact holdsName_of_pos hname
    have hmore : more = [] ↔ ∃ j < T.slots, T.Room d.fs.seen (lfnCount o.nm + 1) j := by
      refine ⟨fun hnil => ?_, fun ⟨k, hk, hr⟩ => by_contra fun hne => hneed hne k hk hr⟩
      subst hnil
      rw [extend_nil] at hj
      exact ⟨j, hj, hroom.congr fun k hk => (hg.slot h hl (by omega)).symm⟩
    obtain ⟨d', hput, hw, hwritten⟩ := putEntries_writes hg.lies hg.faults hat₁ hj hn ho hfn₁ hbuf₁
    refine ⟨.ok (), d', more, (Code.bind_ok halloc).trans hput, .inl ⟨rfl, hw.kept.lies hg.lies, hw.kept.faults hg.faults,
      hmore, hw.holds hg.lies (hg.holds h hl hos) ho hj hroom hfirst hwritten, fun a ha hfat hc hne => ?_⟩⟩
    rw [hw.other a (by rwa [hg.lies.vol]) fun k _ hk => hne k (by omega)]
    exact hg.other a ha hfat hc
  · have hr : r = .error .FR_DENIED := hend.elim (·.1) (·.1)
    subst hr
    exact ⟨.error .FR_DENIED, d₁, more, Code.bind_error halloc,
      .inr ⟨rfl, hg, hg.holds h hl hos, hnone, hend.imp (·.2) (·.2)⟩⟩

/-! ## A directory without room -/

section Sample

/-- `FILEA`, `FILEB` and so on, without long names. -/
def fileObject (i : ℕ) : DirObject :=
  ⟨[], [0x46, 0x49, 0x4C, 0x45, 0x41 + UInt8.ofNat i, 0x20, 0x20, 0x20, 0x20, 0x20, 0x20]⟩

/-- The first cluster has the entries of 16 of them, and the FAT says that it is the only one. -/
def fullBytes : ℕ → UInt8 := fun x =>
  if 4096 ≤ x ∧ x < 4608 then store (fun _ => 0) 0 (fileObject ((x - 4096) / 32)).sfn ((x - 4096) % 32)
  else if x / 2 = 258 then 0xFF else 0

/-- A directory in this cluster, where a name is to be put. -/
def fullDir (o : DirObject) : OpenDir where
  fs := { FATFS.blank FATFS.smallVolume with drv := ⟨fullBytes, []⟩ }
  nRootdir := 80
  dirbase := 3
  dp := { (sampleDir o).dp with sclust := 2 }

def fullTable : DirTable := ⟨FATFS.smallVolume, 80, 3, [2]⟩

theorem fullBytes_start (hi : i < 512) : fullBytes i = 0 := by
  unfold fullBytes
  rw [if_neg (by omega), if_neg (by omega)]

theorem fullDir_seen (o : DirObject) : (fullDir o).fs.seen = fullBytes :=
  overlay_window fun i hi => (fullBytes_start (by omega : 512 * 0 + i < 512)).symm

theorem fullDir_valid (o : DirObject) : (fullDir o).fs.Valid := by
  have hlt : ¬ FATFS.smallVolume.fatbase + FATFS.smallVolume.fsize ≤ 0 := by decide
  exact ⟨⟨FATFS.smallVolume_placed, Nat.two_pow_pos 32, fun hc => absurd hc.1 hlt,
    fun _ _ i hi => (fullBytes_start (by omega : 512 * 0 + i < 512)).symm⟩, Drive.Tidy.nil rfl⟩

theorem fullDir_fat (o : DirObject) :
    (fullDir o).fs.fat = Function.update (FATFS.blank FATFS.smallVolume).fat 2 0xFFFF := by
  funext c
  have hfat : (fullDir o).fs.fat c = if 2 ≤ c ∧ c < 6 then FATFS.smallVolume.entry fullBytes c else 0 := by
    rw [← fullDir_seen o]
    rfl
  rw [hfat]
  by_cases hc : 2 ≤ c ∧ c < 6
  · have hentry : ∀ c < 6, 2 ≤ c → FATFS.smallVolume.entry fullBytes c = if c = 2 then 0xFFFF else 0 := by decide
    rw [if_pos hc, hentry c hc.2 hc.1, Function.update_apply, FATFS.fat_blank]
  · rw [if_neg hc, Function.update_of_ne (by omega), FATFS.fat_blank]

theorem fullDir_lies (o : DirObject) : (fullDir o).Lies fullTable [] where
  vol := rfl
  root := ⟨rfl, rfl⟩
  placed := ⟨sampleTable_placed.sized, by decide, by decide, fun hnil => by cases hnil⟩
  alloc := by
    have hlinks : (fullDir o).fs.links = Function.update (FATFS.blank FATFS.smallVolume).links 2 (FATFS.link 6 0xFFFF) :=
      FATFS.links_update rfl (fullDir_fat o)
    refine ⟨fullDir_valid o, ?_⟩
    rw [hlinks, show FATFS.link 6 0xFFFF = some none by decide]
    exact (FATFS.blank_allocated FATFS.smallVolume_placed (by decide)).chains.add
      (FATFS.links_eq_none.2 (FATFS.fat_blank _ 2))
  static := fun hnil => by cases hnil
  start := fun c hc => by
    obtain rfl : 2 = c := Option.some.inj hc
    rfl

theorem fileObject_sound (i : ℕ) : (fileObject i).Sound where
  name := fun _ hc => absurd hc List.not_mem_nil
  length := Nat.zero_le _
  sfn := rfl
  head := ⟨show (0x46 : UInt8) ≠ 0 by decide, show (0x46 : UInt8) ≠ deletedMark by decide⟩

theorem fullDir_slot (o : DirObject) (hi : i < 16) :
    fullTable.slot (fullDir o).fs.seen i = entryAt (store (fun _ => 0) 0 (fileObject i).sfn) 0 := funext fun x => by
  have haddr : fullTable.addr (32 * i) = 4096 + 32 * i := by
    rw [addr_dynamic (c := 2) (by decide) (by rw [Nat.div_eq_of_lt (show i < 16 * fullTable.vol.csize from hi)]; rfl),
      Nat.mod_eq_of_lt (show i < 16 * fullTable.vol.csize from hi)]
    rfl
  rw [fullDir_seen, DirTable.slot, haddr, entryAt, entryAt, Nat.zero_add]
  refine if_ctx_congr Iff.rfl (fun hx => ?_) fun _ => rfl
  rw [fullBytes, if_pos (by omega), show (4096 + 32 * i + x - 4096) / 32 = i by omega,
    show (4096 + 32 * i + x - 4096) % 32 = x by omega]

theorem fullDir_written (o : DirObject) (hi : i < 16) :
    (fileObject i).Written [fullTable.slot (fullDir o).fs.seen i] := by
  have hcount : lfnCount (fileObject i).nm = 0 := lfnCount_eq_zero.2 rfl
  have hstore : IsSfnEntry (store (fun _ => 0) 0 (fileObject i).sfn) (fileObject i).sfn :=
    ⟨load_store rfl, by rw [store_outside (.inr (show 0 + 11 ≤ 11 by decide))]; decide⟩
  rw [fullDir_slot o hi]
  refine ⟨fun _ _ => 0, _, fun k hk => absurd hk (by omega), hstore.congr fun x hx => ?_, by rw [hcount]; rfl⟩
  rw [entryAt, if_pos hx, Nat.zero_add]

theorem fullDir_holds (o : DirObject) :
    Holds ((List.range' 0 16).map fileObject) (fullTable.entries (fullDir o).fs.seen 0) := by
  have hslots : ∀ l : List ℕ, (∀ i ∈ l, i < 16) →
      Holds (l.map fileObject) (l.map (fullTable.slot (fullDir o).fs.seen)) := by
    intro l
    induction l with
    | nil => exact fun _ => .free fun e he => absurd he List.not_mem_nil
    | cons i l ih =>
      intro hl
      exact .object (fileObject_sound i) (fullDir_written o (hl i List.mem_cons_self))
        (ih fun k hk => hl k (List.mem_cons_of_mem _ hk))
  exact hslots _ fun i hi => (List.mem_range'_1.1 hi).2

/-- A file is put behind the others, in a new cluster. -/
theorem dirRegister_grows_readme : ∃ d' more, dirRegister (fullDir readme) = some (.ok (), d') ∧ more ≠ [] ∧
    d'.Lies (fullTable.extend more) [] ∧ ∃ os₁ os₂, (List.range' 0 16).map fileObject = os₁ ++ os₂ ∧
      Holds (os₁ ++ readme :: os₂) ((fullTable.extend more).entries d'.fs.seen 0) := by
  have hlies := fullDir_lies readme
  have hnone : ∀ j < fullTable.slots, ¬ fullTable.Room (fullDir readme).fs.seen (lfnCount readme.nm + 1) j := by
    intro j hj ⟨_, hr⟩
    have hused := (fullDir_written readme hj).used (fileObject_sound j) _ (List.mem_singleton_self _)
    exact hused (hr j (Nat.lt_add_of_pos_right (Nat.succ_pos _)) le_rfl)
  obtain ⟨r, d', more, hrun, ⟨rfl, hlies', -, hmore, hholds, -⟩ | ⟨-, hg, -, hfull, hend⟩⟩ :=
    dirRegister_grows hlies rfl (List.cons_ne_nil 2 []) (fullDir_holds readme) readme_sound (by decide) rfl fun _ _ => rfl
  · exact ⟨d', more, hrun, fun hnil => by obtain ⟨j, hj, hr⟩ := hmore.1 hnil; exact hnone j hj hr, hlies', hholds⟩
  · rcases more with _ | ⟨c, more⟩
    · -- the cluster 3 is still free
      rw [extend_nil] at hend
      have hfree : d'.fs.fat 3 ≠ 0 := (hend.resolve_left (by decide)) 3 (by decide) (by rw [hg.lies.vol]; decide)
      have hused := (hg.lies.alloc.chains.used 3).1 fun hnil => hfree (FATFS.links_eq_none.1 hnil)
      exact absurd hused (by rw [extend_nil]; decide)
    · -- the entries of a new cluster are free
      have hlen : 32 ≤ (fullTable.extend (c :: more)).slots := by
        have hclusters : (fullTable.extend (c :: more)).clusters.length = more.length + 2 := by
          change ([2] ++ c :: more).length = _
          rw [List.length_append, List.length_cons, List.length_cons, List.length_nil]
          omega
        rw [slots, if_neg (extend_ne_nil (List.cons_ne_nil 2 [])), hclusters]
        change 32 ≤ min (2 ^ 16) ((more.length + 2) * (16 * 1))
        omega
      have hcount : lfnCount readme.nm = 1 := by decide
      have hslots : fullTable.slots = 16 := by decide
      refine hfull 17 (by omega) ⟨by omega, fun k hge hle => .inr ?_⟩ |>.elim
      rw [hg.free k (by omega) (by omega)]

end Sample

end OpenDir

end Miosix
