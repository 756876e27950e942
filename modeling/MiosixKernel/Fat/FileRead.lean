import MiosixKernel.Fat.FileWrite

/-!
# Reading a file

* `readPass_meets`: one pass of the loop;
* **`fRead_meets`**: the bytes of the file are read, and the file is not changed.
-/

namespace Miosix

open Lib Volume

section Ranges

variable {mem : ℕ → UInt8} {a n i : ℕ}

theorem take_load (h : i ≤ n) : (load mem a n).take i = load mem a i := by
  obtain ⟨k, rfl⟩ := Nat.exists_eq_add_of_le h
  rw [load_add, List.take_left' length_load]

theorem drop_load (h : i ≤ n) : (load mem a n).drop i = load mem (a + i) (n - i) := by
  obtain ⟨k, rfl⟩ := Nat.exists_eq_add_of_le h
  rw [load_add, List.drop_left' length_load, Nat.add_sub_cancel_left]

end Ranges

namespace OpenFile

variable {F : Prop} {f f' : OpenFile} {l l' : List ℕ} {lost lost' others : List (List ℕ)} {n c j sect : ℕ}
  {v : ℕ → UInt8}

/-! ## The cluster at the file pointer -/

/-- The chain of the file is not changed when it is read. -/
theorem getFat_meets (h : f.Safe l lost others) (hF : f.fs.drv.faults ≠ [] → F) (hc : c ∈ l) :
    Meets F (onVolume fun fs => fs.getFat c) f lost others fun a f' l' lost' => l' = l ∧ lost' = lost ∧ f'.fp = f.fp ∧
      f'.fs.toVolume = f.fs.toVolume ∧ (a = f.fs.fat c ∨ F ∧ a = 0xFFFFFFFF) ∧
        ∀ n v, f.Exact l n v → f'.Exact l n v := by
  obtain ⟨hge, hlt⟩ := h.mem_l hc
  rcases hget : f.fs.getFat c with ⟨a, fs'⟩
  obtain ⟨hshow, hval⟩ := FATFS.getFat_shows h.alloc.valid hge hlt hget
  have hnear : f.fs.Near (f.fs.getFat c).2 := FATFS.near_getFat h.sized.placed
  rw [hget] at hnear
  obtain ⟨hs, hframe, hbytes⟩ := h.move hshow.keeps (h.near_window hnear) (h.alloc.of_shows hshow) fun _ => id
  exact .of_eq (onVolume_apply hget) hs hframe ⟨rfl, rfl, rfl, hshow.vol, hval.imp_right fun hv => ⟨hF hv.2.ne_nil, hv.1⟩,
    fun n v he => he.move h hshow.vol hbytes List.prefix_rfl⟩

/-- What is known once a cluster was entered. Without a failure there is one. -/
structure ReadEntered (F : Prop) (f f' : OpenFile) (l : List ℕ) : Prop where
  fp : f'.fp = { f.fp with clust := f'.fp.clust }
  vol : f'.fs.toVolume = f.fs.toVolume
  clust : l[f.fp.fptr / f.fs.bcs]? = some f'.fp.clust ∨
    F ∧ f.fs.nFatent ≤ f'.fp.clust ∧ f'.fp.clust < 2 ^ 32
  exact : ∀ n v, f.Exact l n v → f'.Exact l n v

theorem enterRead_meets (h : f.Safe l lost others) (hF : f.fs.drv.faults ≠ [] → F) (hl : f.Located l)
    (hp : f.fp.fptr % 512 = 0) (hroom : f.fp.fptr < f.fs.bcs * l.length ∨ F) :
    Meets F enterRead f lost others fun _ f' l' lost' => l' = l ∧ lost' = lost ∧ ReadEntered F f f' l := by
  have hmod := f.fs.mod_bcs f.fp.fptr
  unfold enterRead
  refine Meets.read_bind (Meets.ite (fun hc => ?_) fun hc => ?_)
  · rw [csect_eq h.sized] at hc
    have hmod0 : f.fp.fptr % f.fs.bcs = 0 := by rw [hmod, hp, hc]
    refine Meets.bind (Q := fun clst f' l' lost' => l' = l ∧ lost' = lost ∧ f'.fp = f.fp ∧
      f'.fs.toVolume = f.fs.toVolume ∧ (l[f.fp.fptr / f.fs.bcs]? = some clst ∨ F ∧ (clst < 2 ∨ clst = 0xFFFFFFFF ∨
        f.fs.nFatent ≤ clst ∧ clst < 2 ^ 32)) ∧ ∀ n v, f.Exact l n v → f'.Exact l n v) ?_ ?_
    · unfold readClust
      refine Meets.ite (fun h0 => ?_) fun h0 => ?_
      · refine Meets.pure h ⟨rfl, rfl, rfl, rfl, ?_, fun _ _ => id⟩
        rw [h0, Nat.zero_div, hl.first]
        cases l with
        | nil =>
          have hfail : F := hroom.resolve_left (by rw [List.length_nil]; omega)
          exact .inr ⟨hfail, .inl (by decide)⟩
        | cons x t => exact .inl rfl
      · have hget := hl.clust (Nat.pos_of_ne_zero h0)
        have hnext := pred_div_succ h.sized.bcs_pos (Nat.pos_of_ne_zero h0) hmod0
        refine (getFat_meets h hF (List.mem_of_getElem? hget)).mono fun a f' l' lost' hs hframe hq => ?_
        obtain ⟨rfl, rfl, hfp, hvol, hval, hexact⟩ := hq
        refine ⟨rfl, rfl, hfp, hvol, ?_, hexact⟩
        obtain rfl | ⟨hfail, rfl⟩ := hval
        · obtain ⟨hnone, hend⟩ | hsome := h.next_clust hget
          · rw [hnext, List.getElem?_eq_none_iff] at hnone
            have hfail : F := hroom.resolve_left fun hlt => by
              have := div_lt hlt
              omega
            have := FATFS.fat_lt (c := f.fp.clust) h.sized.placed
            exact .inr ⟨hfail, .inr (.inr ⟨hend, by omega⟩)⟩
          · rw [hnext] at hsome
            exact .inl hsome
        · exact .inr ⟨hfail, .inr (.inl rfl)⟩
    · rintro clst f' l' lost' hs hframe ⟨rfl, rfl, hfp, hvol, hclst, hexact⟩
      have hset : ¬ clst < 2 → ¬ clst = 0xFFFFFFFF → (l'[f.fp.fptr / f.fs.bcs]? = some clst ∨
          F ∧ f.fs.nFatent ≤ clst ∧ clst < 2 ^ 32) → Meets F (setFil fun fp => { fp with clust := clst }) f' lost' others
            fun _ f'' l'' lost'' => l'' = l' ∧ lost'' = lost' ∧ ReadEntered F f f'' l' := fun _ _ hcl =>
        .of_eq rfl (hs.fil ⟨rfl, rfl⟩ hs.dsect) (Frame.fil ⟨rfl, rfl⟩ ⟨rfl, rfl⟩) ⟨rfl, rfl,
          by dsimp only; rw [hfp], hvol, hcl, fun n v he => (hexact n v he).fil rfl rfl rfl⟩
      refine Meets.ite (fun h2 => ?_) fun h2 => Meets.ite (fun hff => ?_) fun hff => hset h2 hff ?_
      · obtain hget | ⟨hfail, -⟩ := hclst
        · have := (h.mem_l (List.mem_of_getElem? hget)).1
          omega
        · exact Meets.abort hs hfail (by decide)
      · obtain hget | ⟨hfail, -⟩ := hclst
        · exact absurd hff (h.ne_error (h.mem_l (List.mem_of_getElem? hget)).2)
        · exact Meets.abort hs hfail (by decide)
      · obtain hget | ⟨hfail, hcase⟩ := hclst
        · exact .inl hget
        · exact .inr ⟨hfail, (hcase.resolve_left h2).resolve_left hff⟩
  · rw [csect_eq h.sized] at hc
    refine Meets.pure h ⟨rfl, rfl, rfl, rfl, .inl ?_, fun _ _ => id⟩
    have hpos : 0 < f.fp.fptr := Nat.pos_of_ne_zero fun h0 => by simp [h0] at hc
    rw [← pred_div h.sized.bcs_pos (show f.fp.fptr % f.fs.bcs ≠ 0 by omega)]
    exact hl.clust hpos

/-- The cluster is entered and its sector is known, or there is none. -/
theorem readSector_meets {α : Type} {k : ℕ → FileCode α} {R : α → OpenFile → List ℕ → List (List ℕ) → Prop}
    (h : f.Safe l lost others) (hF : f.fs.drv.faults ≠ [] → F) (hl : f.Located l) (hp : f.fp.fptr % 512 = 0)
    (hroom : f.fp.fptr < f.fs.bcs * l.length ∨ F)
    (hk : ∀ f', f'.Safe l lost others → f.Frame f' others → ReadEntered F f f' l →
      l[f.fp.fptr / f.fs.bcs]? = some f'.fp.clust →
        Meets F (k (f.fs.sector f'.fp.clust + f.fp.fptr % f.fs.bcs / 512)) f' lost others R) :
    Meets F (do
      enterRead
      let sect ← currentSector f.csect
      k sect) f lost others R := by
  refine (enterRead_meets h hF hl hp hroom).bind fun _ f' l' lost' hs hframe hq => ?_
  obtain ⟨rfl, rfl, hent⟩ := hq
  obtain hget | ⟨hfail, hge, hlt⟩ := hent.clust
  · refine Meets.apply_bind (currentSector_apply hs (List.mem_of_getElem? hget) f.csect) ?_
    rw [csect_eq_offset h.sized hp, hent.vol]
    exact hk f' hs hframe hent hget
  · -- after the end of the chain
    have hzero : f'.fs.clust2sect f'.fp.clust = 0 := by
      have hn := h.sized.placed.clusters
      have hu : u32 ((f'.fp.clust : ℤ) - 2) = f'.fp.clust - 2 := by unfold u32; omega
      unfold FATFS.clust2sect
      rw [hu, hent.vol]
      exact if_pos (by omega)
    have hleft : currentSector f.csect f' = OpenFile.abort .FR_INT_ERR f' := by
      unfold currentSector
      rw [Code.bind_ok (show Code.read f' = some (.ok f', f') from rfl), hzero, if_pos rfl]
    exact .of_abort (Code.bind_error hleft) hs (Frame.refl f' others) hfail (by decide)

/-! ## Bytes of the file -/

/-- The sectors that were read, with what is in the buffer. -/
theorem withBuffer_eq (f : OpenFile) {cc : ℕ} (hd : f.fp.dsect < 2 ^ 32) (hs : sect + cc ≤ 2 ^ 32) :
    withBuffer f.fp sect cc (load f.fs.drv.bytes (512 * sect) (512 * cc)) = load f.mem (512 * sect) (512 * cc) := by
  unfold withBuffer mem through
  cases hdirty : f.fp.dirty
  · simp
  by_cases hin : sect ≤ f.fp.dsect ∧ f.fp.dsect < sect + cc
  · obtain ⟨i, hi⟩ := Nat.exists_eq_add_of_le hin.1
    have hu : u32 ((f.fp.dsect : ℤ) - sect) = i := by unfold u32; omega
    simp only [hu, true_and, if_pos (show i < cc by omega), if_true]
    obtain ⟨m, hm⟩ := Nat.exists_eq_add_of_le (show i * 512 + 512 ≤ 512 * cc by omega)
    have haddr : 512 * sect + i * 512 = 512 * f.fp.dsect := by omega
    have hbuf : load (overlay f.fs.drv.bytes (512 * f.fp.dsect) 512 f.fp.buf) (512 * f.fp.dsect) 512 =
        load f.fp.buf 0 512 := by
      refine List.map_congr_left fun j hj => ?_
      rw [List.mem_range] at hj
      rw [overlay_inside (by omega) (by omega), Nat.add_sub_cancel_left, Nat.zero_add]
    have hbefore : load f.fs.drv.bytes (512 * sect) (i * 512) =
        load (overlay f.fs.drv.bytes (512 * f.fp.dsect) 512 f.fp.buf) (512 * sect) (i * 512) :=
      load_congr fun x _ hx => (overlay_outside (by omega)).symm
    have hafter : load f.fs.drv.bytes (512 * sect + (i * 512 + 512)) m =
        load (overlay f.fs.drv.bytes (512 * f.fp.dsect) 512 f.fp.buf) (512 * sect + (i * 512 + 512)) m :=
      load_congr fun x hx _ => (overlay_outside (by omega)).symm
    have hsplit : load (overlay f.fs.drv.bytes (512 * f.fp.dsect) 512 f.fp.buf) (512 * sect) (i * 512 + 512 + m) = _ :=
      load_add
    have hsplit' : load (overlay f.fs.drv.bytes (512 * f.fp.dsect) 512 f.fp.buf) (512 * sect) (i * 512 + 512) = _ :=
      load_add
    rw [haddr, hbuf] at hsplit'
    rw [take_load (by omega), drop_load (by omega), hm, Nat.add_sub_cancel_left, hbefore, hafter, hsplit, hsplit']
  · have hu : ¬ u32 ((f.fp.dsect : ℤ) - sect) < cc := by rwa [u32_sub_lt_iff hd hs]
    simp only [true_and, if_neg hu, if_true]
    exact load_congr fun x hx hx' => (overlay_outside (by omega)).symm

/-- The buffer is written back, and a sector is read into it. -/
theorem load_meets (h : f.Safe l lost others) (hF : f.fs.drv.faults ≠ [] → F) (sect : ℕ) :
    Meets F (do
      writeBack (abort .FR_DISK_ERR)
      fill sect) f lost others fun _ f' l' lost' => l' = l ∧ lost' = lost ∧
        f'.fp = { f.fp with buf := f'.fp.buf, dirty := f'.fp.dirty } ∧ f'.fs.toVolume = f.fs.toVolume ∧
          ∀ n v, f.Exact l n v → (⟨f'.fs, { f'.fp with dsect := sect }⟩ : OpenFile).Exact l n v := by
  refine (writeBack_abort_meets h hF).bind fun _ f₁ l₁ lost₁ hs₁ hframe₁ hq => ?_
  obtain ⟨rfl, rfl, hflush⟩ := hq
  refine (fill_meets hs₁ (hframe₁.fail hF) sect).mono fun _ f' l' lost' hs hframe hq => ?_
  obtain ⟨rfl, rfl, hfill⟩ := hq
  have hvol : f'.fs.toVolume = f.fs.toVolume := hfill.vol.trans hflush.vol
  have hdirty : f'.fp.dirty = false := by rw [hfill.fp, hflush.fp]
  refine ⟨rfl, rfl, by rw [hfill.fp, hflush.fp], hvol, fun n v he => ?_⟩
  have he₁ := he.flushed hflush
  refine ⟨by dsimp only; rw [hvol]; exact he.room, fun o ho => ?_, fun _ _ i hi => ?_⟩
  · rw [← he.bytes o ho, OpenFile.mem, if_neg (by simp [hdirty])]
    dsimp only
    rw [hvol, hfill.bytes, hflush.bytes]
  · dsimp only
    rw [hfill.buf i hi, hfill.bytes]

theorem setDsect_meets {f₀ : OpenFile} (hs : f.Safe l lost others) (hown : f₀.Own l lost sect)
    (hfp : f.fp = { f₀.fp with buf := f.fp.buf, dirty := f.fp.dirty }) (hvol : f.fs.toVolume = f₀.fs.toVolume)
    (hexact : ∀ n v, f₀.Exact l n v → (⟨f.fs, { f.fp with dsect := sect }⟩ : OpenFile).Exact l n v) :
    Meets F (setFil fun fp => { fp with dsect := sect }) f lost others fun _ f' l' lost' => l' = l ∧ lost' = lost ∧
      f'.fp = { f₀.fp with dsect := sect, buf := f'.fp.buf, dirty := f'.fp.dirty } ∧ f'.fs.toVolume = f₀.fs.toVolume ∧
        ∀ n v, f₀.Exact l n v → f'.Exact l n v := by
  have hown' : f.Own l lost sect := by
    obtain ⟨c, hc, hin⟩ := hown
    exact ⟨c, hc, by rwa [hvol]⟩
  exact .of_eq rfl (hs.fil ⟨rfl, rfl⟩ (.inr hown')) (Frame.fil ⟨rfl, rfl⟩ ⟨rfl, rfl⟩)
    ⟨rfl, rfl, by dsimp only; rw [hfp], hvol, hexact⟩

theorem loadSector_meets (h : f.Safe l lost others) (hF : f.fs.drv.faults ≠ [] → F) (hown : f.Own l lost sect) :
    Meets F (loadSector sect) f lost others fun _ f' l' lost' => l' = l ∧ lost' = lost ∧
      f'.fp = { f.fp with dsect := sect, buf := f'.fp.buf, dirty := f'.fp.dirty } ∧ f'.fs.toVolume = f.fs.toVolume ∧
        ∀ n v, f.Exact l n v → f'.Exact l n v := by
  unfold loadSector
  refine Meets.read_bind (Meets.bind (Q := fun _ f' l' lost' => l' = l ∧ lost' = lost ∧
    f'.fp = { f.fp with buf := f'.fp.buf, dirty := f'.fp.dirty } ∧ f'.fs.toVolume = f.fs.toVolume ∧
      ∀ n v, f.Exact l n v → (⟨f'.fs, { f'.fp with dsect := sect }⟩ : OpenFile).Exact l n v)
    (Meets.ite (fun _ => load_meets h hF sect) fun heq => ?_) ?_)
  · rw [not_not] at heq
    subst heq
    exact Meets.pure h ⟨rfl, rfl, rfl, rfl, fun _ _ => id⟩
  · rintro - f' l' lost' hs hframe ⟨rfl, rfl, hfp, hvol, hexact⟩
    exact setDsect_meets hs hown hfp hvol hexact

/-- What one pass reads, before the file pointer is moved. -/
structure ReadPassed (f f' : OpenFile) (l : List ℕ) (btr : ℕ) (bytes : List UInt8) : Prop where
  fp : f'.fp = { f.fp with clust := f'.fp.clust, dsect := f'.fp.dsect, buf := f'.fp.buf, dirty := f'.fp.dirty }
  vol : f'.fs.toVolume = f.fs.toVolume
  pos : 0 < bytes.length
  le : bytes.length ≤ btr
  located : (⟨f'.fs, { f'.fp with fptr := f.fp.fptr + bytes.length }⟩ : OpenFile).Located l
  exact : ∀ n v, f.Exact l n v → f'.Exact l n v ∧
    (f.fp.fptr + bytes.length ≤ n → bytes = load v f.fp.fptr bytes.length)

theorem Exact.load_eq (h : f.Exact l n v) (hs : f.fs.Sized) {p w : ℕ} (hfit : p % f.fs.bcs + w ≤ f.fs.bcs)
    (hn : p + w ≤ n) : load f.mem (f.fs.addr l p) w = load v p w := by
  rw [load_addr hs hfit]
  exact load_congr fun x _ hx => h.bytes x (by omega)

theorem pick_meets (h : f.Safe l lost others) (hfirst : f.fp.sclust = l.headD 0)
    (hget : l[f.fp.fptr / f.fs.bcs]? = some f.fp.clust)
    (hd : f.fp.dsect = f.fs.sector f.fp.clust + f.fp.fptr % f.fs.bcs / 512) {btr : ℕ} (hbtr : 0 < btr) :
    Meets F (pick btr) f lost others fun bytes f' l' lost' => l' = l ∧ lost' = lost ∧ ReadPassed f f' l btr bytes := by
  obtain ⟨w, hw⟩ : ∃ w, min (512 - f.fp.fptr % 512) btr = w := ⟨_, rfl⟩
  have hlt := Nat.mod_lt f.fp.fptr (show 0 < 512 by decide)
  have hmod := f.fs.mod_bcs f.fp.fptr
  have hfit : f.fp.fptr % f.fs.bcs + w ≤ f.fs.bcs := h.add_le_bcs (by omega)
  have hcall : pick btr f = some (.ok (load f.fp.buf (f.fp.fptr % 512) w), f) := by
    rw [← hw]
    rfl
  refine .of_eq hcall h (Frame.refl f others)
    ⟨rfl, rfl, rfl, rfl, by rw [length_load]; omega, by rw [length_load]; omega, ?_, fun n v he => ⟨he, fun hn => ?_⟩⟩
  · rw [length_load]
    exact located_add h hfirst (by omega) hget hfit fun _ => ⟨by omega, hd⟩
  · rw [length_load] at hn ⊢
    have hown : f.Own l lost f.fp.dsect := by
      refine ⟨_, List.mem_append_left _ (List.mem_of_getElem? hget), ?_⟩
      rw [hd]
      have := h.sized.offset_lt (o := f.fp.fptr)
      exact ⟨by omega, by omega⟩
    have haddr : f.fs.addr l f.fp.fptr = 512 * f.fp.dsect + f.fp.fptr % 512 := by
      rw [addr_eq hget, hd]
      omega
    rw [← he.load_eq h.sized hfit hn, ← he.through_eq (h.dsect_ne_zero hown), haddr, through]
    refine List.map_congr_left fun i hi => ?_
    rw [List.mem_range] at hi
    rw [overlay_inside (by omega) (by omega)]
    congr 1
    omega

theorem readDirect_meets (h : f.Safe l lost others) (hF : f.fs.drv.faults ≠ [] → F) (hfirst : f.fp.sclust = l.headD 0)
    (hget : l[f.fp.fptr / f.fs.bcs]? = some f.fp.clust) (hp : f.fp.fptr % 512 = 0) {btr cc : ℕ} (hcc : 0 < cc)
    (hle : 512 * cc ≤ btr) (hfit : f.fp.fptr % f.fs.bcs + 512 * cc ≤ f.fs.bcs)
    (hsect : sect = f.fs.sector f.fp.clust + f.fp.fptr % f.fs.bcs / 512) :
    Meets F (readDirect sect cc) f lost others fun bytes f' l' lost' => l' = l ∧ lost' = lost ∧
      ReadPassed f f' l btr bytes := by
  have hmod := f.fs.mod_bcs f.fp.fptr
  have hbcs : f.fs.bcs = f.fs.csize * 512 := rfl
  have hc := h.mem_l (List.mem_of_getElem? hget)
  have hend := h.sized.sector_add_le hc.1 hc.2
  have hd : f.fp.dsect < 2 ^ 32 := by
    obtain ⟨h0, -⟩ | hown := h.dsect
    · omega
    · exact h.own_lt hown
  have haddr : 512 * sect = f.fs.addr l f.fp.fptr := by
    rw [addr_eq hget, hsect]
    omega
  obtain ⟨hs, hframe⟩ := h.next
  obtain ⟨inBuffer, hr, hf, -⟩ | hr := f.fs.drv.diskRead_cases sect cc
  · have hvol : FATFS.diskRead sect cc f.fs = (.error inBuffer, f.fs.withDrv f.fs.drv.next) := by rw [FATFS.diskRead, hr]
    exact .of_abort (Code.bind_ok (onVolume_apply hvol)) hs hframe (hF hf.ne_nil) (by decide)
  · have hvol : FATFS.diskRead sect cc f.fs =
        (.ok (load f.fs.drv.bytes (512 * sect) (512 * cc)), f.fs.withDrv f.fs.drv.next) := by rw [FATFS.diskRead, hr]
    have hbytes := withBuffer_eq f hd (show sect + cc ≤ 2 ^ 32 by omega)
    have hcall : readDirect sect cc f =
        some (.ok (load f.mem (512 * sect) (512 * cc)), ⟨f.fs.withDrv f.fs.drv.next, f.fp⟩) := by
      unfold readDirect
      rw [Code.bind_ok (onVolume_apply hvol), ← hbytes]
      rfl
    refine .of_eq hcall hs hframe ⟨rfl, rfl, rfl, rfl, by rw [length_load]; omega, by rwa [length_load], ?_,
      fun n v he => ⟨⟨he.room, he.bytes, he.clean⟩, fun hn => ?_⟩⟩
    · rw [length_load]
      exact located_add hs hfirst (by omega) hget hfit fun hne => by
        dsimp only at hne
        omega
    · rw [length_load] at hn ⊢
      rw [haddr]
      exact he.load_eq h.sized hfit hn

/-! ## The loop -/

/-- A part of a pass that leaves the file as it is. -/
theorem ReadPassed.of_same {f₁ : OpenFile} {btr : ℕ} {bytes : List UInt8} (h : ReadPassed f₁ f' l btr bytes)
    (hfp : f₁.fp = { f.fp with clust := f₁.fp.clust, dsect := f₁.fp.dsect, buf := f₁.fp.buf, dirty := f₁.fp.dirty })
    (hvol : f₁.fs.toVolume = f.fs.toVolume) (hexact : ∀ n v, f.Exact l n v → f₁.Exact l n v) :
    ReadPassed f f' l btr bytes := by
  have hptr : f₁.fp.fptr = f.fp.fptr := by rw [hfp]
  have hl := h.located
  have hx := h.exact
  rw [hptr] at hl hx
  exact ⟨by rw [h.fp, hfp], h.vol.trans hvol, h.pos, h.le, hl, fun n v he => hx n v (hexact n v he)⟩

theorem readPass_meets (h : f.Safe l lost others) (hF : f.fs.drv.faults ≠ [] → F) (hl : f.Located l) {btr : ℕ}
    (hbtr : 0 < btr) (hroom : f.fp.fptr < f.fs.bcs * l.length ∨ F) :
    Meets F (readPass btr) f lost others fun bytes f' l' lost' => l' = l ∧ lost' = lost ∧ ReadPassed f f' l btr bytes := by
  have hmod := f.fs.mod_bcs f.fp.fptr
  have hlt := Nat.mod_lt (f.fp.fptr / 512) h.sized.pos
  have hbcs : f.fs.bcs = f.fs.csize * 512 := rfl
  unfold readPass
  refine Meets.read_bind (Meets.ite (fun hp => ?_) fun hp => ?_)
  · refine readSector_meets h hF hl hp hroom fun f₁ hs₁ hframe₁ hent hget => ?_
    have hptr₁ : f₁.fp.fptr = f.fp.fptr := by rw [hent.fp]
    have hfirst₁ : f₁.fp.sclust = l.headD 0 := by rw [hent.fp, hl.first]
    have hget₁ : l[f₁.fp.fptr / f₁.fs.bcs]? = some f₁.fp.clust := by rwa [hptr₁, hent.vol]
    have hoff := csect_eq_offset h.sized hp
    refine Meets.ite (fun hcc => ?_) fun hcc => ?_
    · obtain ⟨cc, hcc'⟩ : ∃ cc, (if f.fs.csize < f.csect + btr / 512 then f.fs.csize - f.csect else btr / 512) = cc :=
        ⟨_, rfl⟩
      have hbound : 0 < cc ∧ cc ≤ btr / 512 ∧ f.csect + cc ≤ f.fs.csize := by
        rw [csect_eq h.sized] at hcc' ⊢
        split_ifs at hcc' <;> omega
      rw [hcc']
      refine (readDirect_meets hs₁ (hframe₁.fail hF) hfirst₁ hget₁ (by rwa [hptr₁]) hbound.1
        (show 512 * cc ≤ btr by omega)
        (by rw [hptr₁, hent.vol]; omega) (by rw [hptr₁, hent.vol])).mono fun bytes f' l' lost' _ _ hq => ?_
      obtain ⟨rfl, rfl, hpass⟩ := hq
      exact ⟨rfl, rfl, hpass.of_same (by rw [hent.fp]) hent.vol hent.exact⟩
    · have hown : f₁.Own l lost (f.fs.sector f₁.fp.clust + f.fp.fptr % f.fs.bcs / 512) := by
        refine ⟨_, List.mem_append_left _ (List.mem_of_getElem? hget), ?_⟩
        have := h.sized.offset_lt (o := f.fp.fptr)
        rw [hent.vol]
        exact ⟨by omega, by omega⟩
      refine (loadSector_meets hs₁ (hframe₁.fail hF) hown).bind fun _ f₂ l₂ lost₂ hs₂ hframe₂ hq => ?_
      obtain ⟨rfl, rfl, hfp₂, hvol₂, hexact₂⟩ := hq
      have hptr₂ : f₂.fp.fptr = f.fp.fptr := by rw [hfp₂, hptr₁]
      have hclust₂ : f₂.fp.clust = f₁.fp.clust := by rw [hfp₂]
      have hvol : f₂.fs.toVolume = f.fs.toVolume := hvol₂.trans hent.vol
      refine (pick_meets hs₂ (by rw [hfp₂, hfirst₁]) (by rwa [hptr₂, hvol, hclust₂])
        (by rw [hfp₂, hvol, hptr₁]) hbtr).mono fun bytes f' l' lost' _ _ hq => ?_
      obtain ⟨rfl, rfl, hpass⟩ := hq
      exact ⟨rfl, rfl, hpass.of_same (by rw [hfp₂, hent.fp]) hvol fun n v he => hexact₂ n v (hent.exact n v he)⟩
  · have hpos : 0 < f.fp.fptr := Nat.pos_of_ne_zero fun h0 => hp (by rw [h0])
    have hget : l[f.fp.fptr / f.fs.bcs]? = some f.fp.clust := by
      rw [← pred_div h.sized.bcs_pos (show f.fp.fptr % f.fs.bcs ≠ 0 by omega)]
      exact hl.clust hpos
    exact pick_meets h hl.first hget (hl.sect hp) hbtr

/-- What the loop does: all bytes are read. -/
structure Read (f f' : OpenFile) (l : List ℕ) (btr : ℕ) (bytes : List UInt8) : Prop where
  fp : f'.fp = { f.fp with fptr := f.fp.fptr + btr, clust := f'.fp.clust, dsect := f'.fp.dsect, buf := f'.fp.buf,
                           dirty := f'.fp.dirty }
  length : bytes.length = btr
  located : f'.Located l
  exact : ∀ n v, f.Exact l n v → f'.Exact l n v ∧ (f.fp.fptr + btr ≤ n → bytes = load v f.fp.fptr btr)

theorem readLoop_meets (fuel btr : ℕ) (rbuff : List UInt8) (h : f.Safe l lost others)
    (hF : f.fs.drv.faults ≠ [] → F) (hl : f.Located l) (hfuel : btr < fuel)
    (hroom : f.fp.fptr + btr ≤ f.fs.bcs * l.length ∨ F) :
    Meets F (readLoop fuel btr rbuff) f lost others fun r f' l' lost' => l' = l ∧ lost' = lost ∧
      ∃ bytes, r = rbuff ++ bytes ∧ Read f f' l btr bytes := by
  induction fuel generalizing f btr rbuff with
  | zero => omega
  | succ fuel ih =>
    unfold readLoop
    refine Meets.ite (fun h0 => ?_) fun hpos => ?_
    · subst h0
      exact Meets.pure h ⟨rfl, rfl, [], (List.append_nil _).symm, rfl, rfl, hl, fun n v he => ⟨he, fun _ => rfl⟩⟩
    · refine (readPass_meets h hF hl (Nat.pos_of_ne_zero hpos) (hroom.imp_left fun hr => by omega)).bind
        fun bytes f₁ l₁ lost₁ hs₁ hframe₁ hq => ?_
      obtain ⟨rfl, rfl, hpass⟩ := hq
      have hptr₁ : f₁.fp.fptr = f.fp.fptr := by rw [hpass.fp]
      have hle := hpass.le
      have hlpos := hpass.pos
      have hloc := hpass.located
      rw [← hptr₁] at hloc
      refine Meets.setFil_bind hs₁ ⟨rfl, rfl⟩ ⟨rfl, rfl⟩ hs₁.dsect fun hs₂ => ?_
      refine (ih (btr - bytes.length) (rbuff ++ bytes) hs₂ (hframe₁.fail hF) hloc (by omega) ?_).mono
        fun r f' l' lost' hs hframe hq => ?_
      · refine hroom.imp_left fun hr => ?_
        dsimp only
        rw [hpass.vol, hptr₁]
        omega
      obtain ⟨rfl, rfl, more, rfl, hread⟩ := hq
      refine ⟨rfl, rfl, bytes ++ more, (List.append_assoc ..), ?_, ?_, hread.located, fun n v he => ?_⟩
      · have hsum : f.fp.fptr + bytes.length + (btr - bytes.length) = f.fp.fptr + btr := by omega
        rw [hread.fp]
        dsimp only
        rw [hptr₁, hsum, hpass.fp]
      · rw [List.length_append, hread.length]
        omega
      · obtain ⟨he₁, hb₁⟩ := hpass.exact n v he
        obtain ⟨he₂, hb₂⟩ := hread.exact n v (he₁.fil rfl rfl rfl)
        refine ⟨he₂, fun hn => ?_⟩
        obtain ⟨k, rfl⟩ := Nat.exists_eq_add_of_le hle
        dsimp only at hb₂
        rw [hptr₁, Nat.add_sub_cancel_left] at hb₂
        rw [load_add, ← hb₁ (by omega), ← hb₂ (by omega)]

/-- **Reading.** The bytes of the file from the file pointer on are returned, up to its end, and the file is not
changed. The call fails only if a transfer does. -/
theorem fRead_meets (btr : ℕ) (h : f.Safe l lost others) (hF : f.fs.drv.faults ≠ [] → F) (hl : f.Located l)
    (herr : f.fp.err = .FR_OK) (hmode : f.fp.canRead = true) (hle : f.fp.fptr ≤ f.fp.fsize)
    (hroom : f.fp.fsize ≤ f.fs.bcs * l.length ∨ F) :
    Meets F (fRead btr) f lost others fun bytes f' l' lost' => l' = l ∧ lost' = lost ∧
      Read f f' l (min btr (f.fp.fsize - f.fp.fptr)) bytes := by
  have hbtr : (if f.fp.fsize - f.fp.fptr < btr then f.fp.fsize - f.fp.fptr else btr) =
      min btr (f.fp.fsize - f.fp.fptr) := by split_ifs <;> omega
  unfold fRead
  refine Meets.read_bind ?_
  rw [if_neg (by simp [herr]), if_neg (by simp [hmode])]
  simp only [hbtr]
  refine (readLoop_meets (F := F) _ _ [] h hF hl (by omega) (hroom.imp_left fun hr => by omega)).mono
    fun r f' l' lost' _ _ hq => ?_
  obtain ⟨rfl, rfl, bytes, rfl, hread⟩ := hq
  exact ⟨rfl, rfl, hread⟩

end OpenFile

end Miosix
