import MiosixKernel.Fat.FileTransfer

/-!
# Writing a file

* `enterWrite_meets`: the cluster at the file pointer, which is allocated if there is none;
* `writePass_meets`: one pass of the loop;
* **`fWrite_meets`**: the bytes are in the file.
-/

namespace Miosix

open Lib Volume

theorem Volume.mod_bcs (v : Volume) (o : ℕ) : o % v.bcs = o % 512 + 512 * (o / 512 % v.csize) := by
  rw [bcs, Nat.mul_comm, Nat.mod_mul]

theorem getElem?_extendAt {l : List ℕ} {j r : ℕ} (h : j < l.length) :
    (extendAt l j r)[j + 1]? = some r ∧ (extendAt l j r)[j]? = l[j]? ∧ (extendAt l j r).headD 0 = l.headD 0 := by
  unfold extendAt
  split_ifs with hr
  · exact ⟨hr, rfl, rfl⟩
  · have hlen : (l.take (j + 1)).length = j + 1 := List.length_take_of_le h
    refine ⟨?_, ?_, ?_⟩
    · rw [List.getElem?_append_right (by omega), hlen, Nat.sub_self]
      rfl
    · rw [List.getElem?_append_left (by omega), List.getElem?_take_of_lt (Nat.lt_succ_self j)]
    · obtain ⟨x, l, rfl⟩ : ∃ x t, l = x :: t := List.exists_cons_of_length_pos (by omega)
      rfl

namespace OpenFile

variable {F : Prop} {f f' : OpenFile} {l l' : List ℕ} {lost lost' others : List (List ℕ)} {n c r j sect : ℕ}
  {v : ℕ → UInt8}

theorem csect_eq (h : f.fs.Sized) : f.csect = f.fp.fptr / 512 % f.fs.csize := by
  obtain ⟨k, hk, he⟩ := h.csize
  have hle : 2 ^ k ≤ 2 ^ 7 := Nat.pow_le_pow_right (by decide) hk
  have hlt := Nat.mod_lt (f.fp.fptr / 512) (Nat.two_pow_pos k)
  unfold csect
  rw [he, Nat.and_two_pow_sub_one_eq_mod, Nat.mod_eq_of_lt (by omega)]

/-! ## The cluster at the file pointer -/

theorem Safe.answered_nil (h : f.Safe [] lost others) : ∃ r fs', f.fs.createChain 0 f.fs.nFatent = some (r, fs') ∧
    f.fs.Answered fs' [] [r] (lost ++ others) r := by
  have halloc : f.fs.Allocated (lost ++ others) :=
    ⟨h.alloc.valid, (h.alloc.perm (List.perm_append_singleton [] _).symm).chains.of_append rfl⟩
  obtain ⟨r, fs', hres, hc⟩ := FATFS.createChain_created h.alloc.valid (.inl rfl) (Nat.le_refl f.fs.nFatent)
  exact ⟨r, fs', hres, hc.answered halloc h.whole⟩

theorem Safe.answered (h : f.Safe l lost others) (hc : l[j]? = some c) :
    ∃ r fs', f.fs.createChain c f.fs.nFatent = some (r, fs') ∧
      f.fs.Answered fs' l (extendAt l j r) (lost ++ others) r := by
  obtain ⟨hj, hget⟩ := List.getElem?_eq_some_iff.1 hc
  have hsplit : l = l.take j ++ c :: l.drop (j + 1) := by
    rw [← hget, List.getElem_cons_drop, List.take_append_drop]
  have hlen : (l.take j).length = j := List.length_take_of_le hj.le
  have hmem := h.mem_l (List.mem_of_getElem? hc)
  obtain ⟨r, fs', hres, hcr⟩ := FATFS.createChain_created h.alloc.valid (.inr hmem) (Nat.le_refl f.fs.nFatent)
  have halloc := h.alloc
  rw [hsplit] at halloc
  have hans := hcr.answered_of_mem halloc h.whole
  rw [hlen, ← hsplit] at hans
  exact ⟨r, fs', hres, hans⟩

/-- No cluster is left, and the file pointer is at the end of the last one of the file. -/
structure Stopped (F : Prop) (f : OpenFile) (l : List ℕ) (lost others : List (List ℕ)) : Prop where
  full : f.Full l lost others
  last : F ∨ f.fp.fptr = f.fs.bcs * l.length

/-- What is known once a cluster was entered; with `false` there was none. -/
structure Entered (F : Prop) (f f' : OpenFile) (l l' : List ℕ) (lost' others : List (List ℕ)) (ok : Bool) : Prop where
  fp : f'.fp = { f.fp with sclust := f'.fp.sclust, clust := f'.fp.clust }
  first : f'.fp.sclust = l'.headD 0
  clust : ok = true → l'[f.fp.fptr / f.fs.bcs]? = some f'.fp.clust
  full : ok = false → f'.Located l' ∧ Stopped F f' l' lost' others
  exact : f.fs.drv.faults = [] → ∀ n v, f.Exact l n v → f'.Exact l' n v

/-- The cluster that is chosen: one of the file, none, or an error. -/
structure Chosen (F : Prop) (f f' : OpenFile) (l l' : List ℕ) (lost' others : List (List ℕ)) (clst : ℕ) : Prop where
  fp : f'.fp = { f.fp with sclust := f'.fp.sclust }
  first : f'.fp.sclust = l'.headD 0
  clust : l'[f.fp.fptr / f.fs.bcs]? = some clst ∨
    (clst = 0 ∧ (0 < f.fp.fptr → l'[(f.fp.fptr - 1) / f.fs.bcs]? = some f.fp.clust) ∧ Stopped F f' l' lost' others)
  exact : f.fs.drv.faults = [] → ∀ n v, f.Exact l n v → f'.Exact l' n v

theorem Exact.fil {fp : FIL} (h : f.Exact l n v) (hd : fp.dirty = f.fp.dirty) (hs : fp.dsect = f.fp.dsect)
    (hb : fp.buf = f.fp.buf) : (⟨f.fs, fp⟩ : OpenFile).Exact l n v := by
  refine ⟨h.room, fun o ho => ?_, ?_⟩
  · rw [← h.bytes o ho, mem, mem, through, through]
    dsimp only
    rw [hd, hs, hb]
  · dsimp only
    rw [hd, hs, hb]
    exact h.clean

theorem writeClust_meets (h : f.Safe l lost others) (hF : f.fs.drv.faults ≠ [] → F) (hl : f.Located l)
    (hp : f.fp.fptr % f.fs.bcs = 0) : Meets F (writeClust f) f lost others fun clst f' l' lost' =>
      Chosen F f f' l l' lost' others clst ∨ F ∧ clst = 0xFFFFFFFF := by
  unfold writeClust
  refine Meets.ite (fun h0 => ?_) fun h0 => ?_
  · have hdiv : f.fp.fptr / f.fs.bcs = 0 := by rw [h0, Nat.zero_div]
    refine Meets.ite (fun hsc => ?_) fun hsc => ?_
    · -- the file has no cluster yet
      obtain ⟨-, rfl⟩ := (h.first_cases hl.first).resolve_right fun hne => hne.1 hsc
      obtain ⟨r, fs', hres, hans⟩ := h.answered_nil
      refine (createChain_meets h hres hans).bind fun a f' l' lost' hs hframe hq => ?_
      refine Meets.setFil_bind hs ⟨rfl, rfl⟩ ⟨rfl, rfl⟩ hs.dsect fun hs' => Meets.pure hs' ?_
      obtain ⟨rfl, hst⟩ | herr := hq
      · refine .inl ?_
        have hexact : f.fs.drv.faults = [] → ∀ n v, f.Exact [] n v →
            (⟨f'.fs, { f'.fp with sclust := a }⟩ : OpenFile).Exact l' n v :=
          fun hnil n v he => (hst.exact hnil n v he).fil rfl rfl rfl
        obtain ⟨-, -, rfl⟩ | ⟨rfl, rfl, hfull⟩ := hst.answer
        · exact ⟨by rw [hst.fp], rfl, .inl (by rw [hdiv]; rfl), hexact⟩
        · refine ⟨by rw [hst.fp], rfl, .inr ⟨rfl, fun hpos => absurd hpos (by omega), hfull, .inr ?_⟩, hexact⟩
          dsimp only
          rw [hst.fp, h0, List.length_nil, Nat.mul_zero]
      · exact .inr ⟨hF herr.1, herr.2.1⟩
    · obtain ⟨-, hget⟩ := (h.first_cases hl.first).resolve_left fun hz => hsc hz.1
      exact Meets.pure h (.inl ⟨rfl, hl.first, .inl (by rw [hdiv, hget]), fun _ _ _ => id⟩)
  · -- the cluster after the current one
    have hget := hl.clust (by omega)
    have hnext := pred_div_succ h.sized.bcs_pos (Nat.pos_of_ne_zero h0) hp
    obtain ⟨r, fs', hres, hans⟩ := h.answered hget
    obtain ⟨hj, -⟩ := List.getElem?_eq_some_iff.1 hget
    obtain ⟨hnew, -, hhead⟩ := getElem?_extendAt (r := r) hj
    refine (createChain_meets h hres hans).mono fun a f' l' lost' hs hframe hq => ?_
    obtain ⟨rfl, hst⟩ | herr := hq
    · refine .inl ?_
      obtain ⟨-, -, rfl⟩ | ⟨rfl, rfl, hfull⟩ := hst.answer
      · refine ⟨by rw [hst.fp], ?_, .inl (by rw [← hnext, hnew]), hst.exact⟩
        rw [hst.fp, hl.first, hhead]
      · refine ⟨by rw [hst.fp], by rw [hst.fp, hl.first], .inr ⟨rfl, fun _ => hget, hfull, ?_⟩, hst.exact⟩
        by_cases hfail : F
        · exact .inl hfail
        · have hnil : f.fs.drv.faults = [] := by
            by_contra hne
            exact hfail (hF hne)
          have hdiv := Nat.div_add_mod f.fp.fptr f.fs.bcs
          rw [hst.fp, hst.vol, h.length_of_none hget hnil hres, hnext]
          exact .inr (by omega)
    · exact .inr ⟨hF herr.1, herr.2.1⟩

theorem enterWrite_meets (h : f.Safe l lost others) (hF : f.fs.drv.faults ≠ [] → F) (hl : f.Located l)
    (hp : f.fp.fptr % 512 = 0) :
    Meets F enterWrite f lost others fun ok f' l' lost' => Entered F f f' l l' lost' others ok := by
  have hmod := f.fs.mod_bcs f.fp.fptr
  unfold enterWrite
  refine Meets.read_bind (Meets.ite (fun hc => ?_) fun hc => ?_)
  · rw [csect_eq h.sized] at hc
    refine (writeClust_meets h hF hl (by rw [hmod, hp, hc])).bind fun clst f' l' lost' hs hframe hq => ?_
    obtain hch | ⟨hfail, rfl⟩ := hq
    · have hfp := hch.fp
      have hptr : f'.fp.fptr = f.fp.fptr := by rw [hfp]
      have hclust : f'.fp.clust = f.fp.clust := by rw [hfp]
      obtain hget | ⟨rfl, hget, hfull⟩ := hch.clust
      · have hrange := hs.mem_l (List.mem_of_getElem? hget)
        rw [if_neg (by omega), if_neg (by omega), if_neg (hs.ne_error hrange.2)]
        refine Meets.setFil_bind hs ⟨rfl, rfl⟩ ⟨rfl, rfl⟩ hs.dsect fun hs' => Meets.pure hs' ?_
        refine ⟨by rw [hfp], hch.first, fun _ => hget, fun hfalse => (by cases hfalse), fun hnil n v he => ?_⟩
        exact (hch.exact hnil n v he).fil rfl rfl rfl
      · rw [if_pos rfl]
        refine Meets.pure hs ⟨by rw [hfp], hch.first, fun htrue => (by cases htrue), fun _ => ⟨⟨hch.first, ?_, ?_⟩, hfull⟩,
          hch.exact⟩
        · rw [hptr, hclust, hframe.vol]
          exact hget
        · rw [hptr]
          exact fun hne => absurd hp hne
    · rw [if_neg (by decide), if_neg (by decide), if_pos rfl]
      exact Meets.abort hs hfail (by decide)
  · rw [csect_eq h.sized] at hc
    refine Meets.pure h ⟨rfl, hl.first, fun _ => ?_, fun hfalse => (by cases hfalse), fun _ _ _ => id⟩
    have hpos : 0 < f.fp.fptr := Nat.pos_of_ne_zero fun h0 => by simp [h0] at hc
    have hne : f.fp.fptr % f.fs.bcs ≠ 0 := by omega
    rw [← pred_div h.sized.bcs_pos hne]
    exact hl.clust hpos

/-! ## Bytes of the file -/

/-- A range in one cluster is in the file. -/
theorem add_le_room {p w : ℕ} (hget : l[p / f.fs.bcs]? = some c) (hw : p % f.fs.bcs + w ≤ f.fs.bcs) :
    p + w ≤ f.fs.bcs * l.length := by
  obtain ⟨hlt, -⟩ := List.getElem?_eq_some_iff.1 hget
  have hmul := Nat.mul_le_mul_left f.fs.bcs hlt
  rw [Nat.mul_succ] at hmul
  have := Nat.div_add_mod p f.fs.bcs
  omega

/-- A range in one sector is in one cluster. -/
theorem Safe.add_le_bcs (h : f.Safe l lost others) {p w : ℕ} (hw : p % 512 + w ≤ 512) :
    p % f.fs.bcs + w ≤ f.fs.bcs := by
  have hmod := f.fs.mod_bcs p
  have hlt := Nat.mod_lt (p / 512) h.sized.pos
  have hbcs : f.fs.bcs = f.fs.csize * 512 := rfl
  omega

theorem view_store (h : f.Safe l lost others) {p : ℕ} {bs : List UInt8} {mem : ℕ → UInt8}
    (hget : l[p / f.fs.bcs]? = some c) (hw : p % f.fs.bcs + bs.length ≤ f.fs.bcs) (hroom : n ≤ f.fs.bcs * l.length)
    (hp : p ≤ n) (hv : ∀ o < n, mem (f.fs.addr l o) = v o) :
    ∀ o < max n (p + bs.length), store mem (f.fs.addr l p) bs (f.fs.addr l o) = store v p bs o := by
  intro o ho
  obtain ⟨hlt, -⟩ := List.getElem?_eq_some_iff.1 hget
  have hfit := add_le_room hget hw
  have hb := h.sized.bcs_pos
  have hpl : p < f.fs.bcs * l.length := by
    have := add_le_room (w := 1) hget (Nat.mod_lt p hb)
    omega
  rw [store_addr h.sized h.nodup_l (fun c hc => (h.mem_l hc).1) (by omega) hpl hw]
  unfold store
  split_ifs with hx
  · rfl
  · exact hv o (by omega)

theorem put_meets (h : f.Safe l lost others) (wbuff : List UInt8) (hget : l[f.fp.fptr / f.fs.bcs]? = some c)
    (hd : f.fp.dsect = f.fs.sector c + f.fp.fptr % f.fs.bcs / 512) :
    Meets F (put wbuff) f lost others fun a f' l' lost' => l' = l ∧ lost' = lost ∧ f'.fs = f.fs ∧
      f'.fp = { f.fp with buf := f'.fp.buf, dirty := true } ∧ ∃ w, a = some w ∧
        w = min (512 - f.fp.fptr % 512) wbuff.length ∧ ∀ n v, n ≤ f.fs.bcs * l.length → f.fp.fptr ≤ n →
          (∀ o < n, f.through (f.fs.addr l o) = v o) →
            f'.Exact l (max n (f.fp.fptr + w)) (store v f.fp.fptr (wbuff.take w)) := by
  obtain ⟨w, hw⟩ : ∃ w, min (512 - f.fp.fptr % 512) wbuff.length = w := ⟨_, rfl⟩
  have hlt := Nat.mod_lt f.fp.fptr (show 0 < 512 by decide)
  have hlen : (wbuff.take w).length = w := List.length_take_of_le (by omega)
  have hown : f.Own l lost f.fp.dsect := by
    refine ⟨c, List.mem_append_left _ (List.mem_of_getElem? hget), ?_⟩
    rw [hd]
    have := h.sized.offset_lt (o := f.fp.fptr)
    exact ⟨by omega, by omega⟩
  have hcall : put wbuff f = some (.ok (some w),
      ⟨f.fs, { f.fp with buf := store f.fp.buf (f.fp.fptr % 512) (wbuff.take w), dirty := true }⟩) := by
    rw [← hw]
    rfl
  refine .of_eq hcall (h.fil ⟨rfl, rfl⟩ (.inr hown)) (Frame.fil ⟨rfl, rfl⟩ ⟨rfl, rfl⟩)
    ⟨rfl, rfl, rfl, rfl, w, rfl, hw.symm, fun n v hroom hp hv => ?_⟩
  have hmod := f.fs.mod_bcs f.fp.fptr
  have hfit : f.fp.fptr % f.fs.bcs + w ≤ f.fs.bcs := h.add_le_bcs (by omega)
  have haddr : 512 * f.fp.dsect + f.fp.fptr % 512 = f.fs.addr l f.fp.fptr := by
    rw [addr_eq hget, hd]
    omega
  refine ⟨Nat.max_le.2 ⟨hroom, add_le_room hget hfit⟩, fun o ho => ?_, fun hfalse => by cases hfalse⟩
  have hstore : overlay f.fs.drv.bytes (512 * f.fp.dsect) 512 (store f.fp.buf (f.fp.fptr % 512) (wbuff.take w)) =
      store f.through (f.fs.addr l f.fp.fptr) (wbuff.take w) := by
    rw [← haddr]
    exact store_overlay (by omega)
  have hview := view_store h hget (by rwa [hlen]) hroom hp hv o (by rwa [hlen])
  rw [← hview, ← hstore]
  rfl

theorem fillSector_meets (h : f.Safe l lost others) (hF : f.fs.drv.faults ≠ [] → F) (hdirty : f.fp.dirty = false)
    (hget : l[f.fp.fptr / f.fs.bcs]? = some c) (hp : f.fp.fptr % 512 = 0)
    (hsect : sect = f.fs.sector c + f.fp.fptr % f.fs.bcs / 512) :
    Meets F (fillSector sect) f lost others fun _ f' l' lost' => l' = l ∧ lost' = lost ∧
      f'.fp = { f.fp with dsect := sect, buf := f'.fp.buf } ∧ f'.fs.toVolume = f.fs.toVolume ∧
        ∀ v, f.Exact l (max f.fp.fsize f.fp.fptr) v → ∀ o < max f.fp.fsize f.fp.fptr, f'.through (f.fs.addr l o) = v o := by
  have hown : f.Own l lost sect := by
    refine ⟨c, List.mem_append_left _ (List.mem_of_getElem? hget), ?_⟩
    rw [hsect]
    have := h.sized.offset_lt (o := f.fp.fptr)
    exact ⟨by omega, by omega⟩
  have hmem : f.mem = f.fs.drv.bytes := by rw [OpenFile.mem, hdirty]; rfl
  unfold fillSector
  refine Meets.read_bind (Meets.bind (Q := fun _ f' l' lost' => l' = l ∧ lost' = lost ∧
      f'.fp = { f.fp with buf := f'.fp.buf } ∧ f'.fs.toVolume = f.fs.toVolume ∧ f'.fs.drv.bytes = f.fs.drv.bytes ∧
        (f'.fp.buf = f.fp.buf ∧ (f.fp.dsect = sect ∨ f.fp.fsize ≤ f.fp.fptr) ∨
          ∀ i < 512, f'.fp.buf i = f.fs.drv.bytes (512 * sect + i))) ?_ ?_)
  · refine Meets.ite (fun hc => ?_) fun hc => ?_
    · refine (fill_meets h hF sect).mono fun _ f' l' lost' hs hframe hq => ?_
      obtain ⟨rfl, rfl, hfill⟩ := hq
      exact ⟨rfl, rfl, hfill.fp, hfill.vol, hfill.bytes, .inr hfill.buf⟩
    · exact Meets.pure h ⟨rfl, rfl, rfl, rfl, rfl, .inl ⟨rfl, by omega⟩⟩
  · rintro - f' l' lost' hs hframe ⟨rfl, rfl, hfp, hvol, hbytes, hbuf⟩
    have hown' : f'.Own l' lost' sect := by
      obtain ⟨c, hc, hin⟩ := hown
      exact ⟨c, hc, by rwa [hvol]⟩
    refine Meets.of_eq rfl (hs.fil ⟨rfl, rfl⟩ (.inr hown')) (Frame.fil ⟨rfl, rfl⟩ ⟨rfl, rfl⟩)
      ⟨rfl, rfl, by dsimp only; rw [hfp], hvol, fun v he o ho => ?_⟩
    have hlen : o < f.fs.bcs * l'.length := lt_of_lt_of_le ho he.room
    rw [← he.bytes o ho, hmem, through]
    dsimp only
    rw [hbytes]
    obtain ⟨hb, hcase⟩ | hb := hbuf
    · rw [hb]
      rcases hcase with rfl | hcase
      · exact congrFun ((he.through_eq (h.dsect_ne_zero hown)).trans hmem) _
      · -- the sector is after the end of the file
        have hpl : f.fp.fptr < f.fs.bcs * l'.length := by
          have := add_le_room (w := 1) hget (Nat.mod_lt _ h.sized.bcs_pos)
          omega
        have hrange := (mem_range_addr h.sized h.nodup_l (fun c hc => (h.mem_l hc).1) hlen hpl
          (h.add_le_bcs (w := 512) (by omega))).1
        have haddr : 512 * sect = f.fs.addr l' f.fp.fptr := by
          have hmod := f.fs.mod_bcs f.fp.fptr
          rw [addr_eq hget, hsect]
          omega
        refine overlay_outside ?_
        rw [haddr]
        omega
    · exact congrFun (overlay_window hb) _

theorem u32_sub_lt_iff {d cc : ℕ} (hd : d < 2 ^ 32) (hs : sect + cc ≤ 2 ^ 32) :
    u32 ((d : ℤ) - sect) < cc ↔ sect ≤ d ∧ d < sect + cc := by
  unfold u32
  omega

/-- The buffer holds what was written over its sector. -/
theorem refill_buf (fp : FIL) {cc i : ℕ} {wbuff : List UInt8} {mem : ℕ → UInt8} (hlen : 512 * cc ≤ wbuff.length)
    (hd : fp.dsect < 2 ^ 32) (hs : sect + cc ≤ 2 ^ 32) (hi : i < 512) (hbuf : fp.buf i = mem (512 * fp.dsect + i)) :
    (refill fp sect cc wbuff).buf i = store mem (512 * sect) (wbuff.take (512 * cc)) (512 * fp.dsect + i) := by
  have htake : (wbuff.take (512 * cc)).length = 512 * cc := List.length_take_of_le hlen
  unfold refill
  by_cases hin : sect ≤ fp.dsect ∧ fp.dsect < sect + cc
  · obtain ⟨k, hk⟩ := Nat.exists_eq_add_of_le hin.1
    have hu : u32 ((fp.dsect : ℤ) - sect) = k := by unfold u32; omega
    have hslice : ((wbuff.drop (k * 512)).take 512).length = 512 := List.length_take_of_le (by rw [List.length_drop]; omega)
    simp only [hu, if_pos (show k < cc by omega)]
    rw [store_inside (by omega) (by omega), store_inside (by omega) (by omega)]
    simp only [List.getD_eq_getElem?_getD]
    rw [List.getElem?_take_of_lt (by omega), List.getElem?_take_of_lt (by omega), List.getElem?_drop]
    congr 2
    omega
  · have hu : ¬ u32 ((fp.dsect : ℤ) - sect) < cc := by rwa [u32_sub_lt_iff hd hs]
    simp only [if_neg hu]
    rw [store_outside (by omega), hbuf]

/-- Sectors of the current cluster are written past the buffer. -/
theorem writeDirect_meets (h : f.Safe l lost others) (hF : f.fs.drv.faults ≠ [] → F) (hdirty : f.fp.dirty = false)
    {cc : ℕ} {wbuff : List UInt8} (hlen : 512 * cc ≤ wbuff.length) (hget : l[f.fp.fptr / f.fs.bcs]? = some c)
    (hp : f.fp.fptr % 512 = 0) (hfit : f.fp.fptr % f.fs.bcs + 512 * cc ≤ f.fs.bcs)
    (hsect : sect = f.fs.sector c + f.fp.fptr % f.fs.bcs / 512) :
    Meets F (writeDirect sect cc wbuff) f lost others fun a f' l' lost' => l' = l ∧ lost' = lost ∧ a = some (512 * cc) ∧
      f'.fp = { f.fp with buf := f'.fp.buf } ∧ f'.fs.toVolume = f.fs.toVolume ∧
        ∀ n v, f.Exact l n v → f.fp.fptr ≤ n →
          f'.Exact l (max n (f.fp.fptr + 512 * cc)) (store v f.fp.fptr (wbuff.take (512 * cc))) := by
  obtain ⟨bs, hbs⟩ : ∃ bs, wbuff.take (512 * cc) = bs := ⟨_, rfl⟩
  have hbl : bs.length = 512 * cc := by rw [← hbs]; exact List.length_take_of_le hlen
  have hmod := f.fs.mod_bcs f.fp.fptr
  have hbcs : f.fs.bcs = f.fs.csize * 512 := rfl
  have hc := h.mem_l (List.mem_of_getElem? hget)
  have hend := h.sized.sector_add_le hc.1 hc.2
  have haddr : 512 * sect = f.fs.addr l f.fp.fptr := by
    rw [addr_eq hget, hsect]
    omega
  have hown : ∀ s, sect ≤ s → s < sect + cc → f.Own l lost s := fun s hge hlt =>
    ⟨c, List.mem_append_left _ (List.mem_of_getElem? hget), by omega, by omega⟩
  have hmem : f.mem = f.fs.drv.bytes := by rw [OpenFile.mem, hdirty]; rfl
  unfold writeDirect
  rw [hbs]
  obtain ⟨drv, hw, hlater, hf, hout⟩ | hw := f.fs.drv.diskWrite_cases bs sect
  · have hvol : FATFS.diskWrite bs sect f.fs = (false, f.fs.withDrv drv) := by rw [FATFS.diskWrite, hw]
    obtain ⟨hs, hframe⟩ := h.withDrv hlater fun x hx => hout x (by
      by_contra hin
      exact hx (hown _ (by omega) (by omega)))
    exact .of_abort (Code.bind_ok (onVolume_apply hvol)) hs hframe (hF hf.ne_nil) (by decide)
  · have hvol : FATFS.diskWrite bs sect f.fs =
        (true, f.fs.withDrv ⟨store f.fs.drv.bytes (512 * sect) bs, f.fs.drv.faults.tail⟩) := by
      rw [FATFS.diskWrite, hw]
    have hout : ∀ x, ¬ f.Own l lost (x / 512) → store f.fs.drv.bytes (512 * sect) bs x = f.fs.drv.bytes x := by
      intro x hx
      refine store_outside ?_
      by_contra hin
      exact hx (hown _ (by omega) (by omega))
    have hlater : f.fs.drv.Later ⟨store f.fs.drv.bytes (512 * sect) bs, f.fs.drv.faults.tail⟩ := f.fs.drv.later_next
    obtain ⟨hs, hframe⟩ := h.withDrv hlater hout
    have hfp : refill f.fp sect cc wbuff = { f.fp with buf := (refill f.fp sect cc wbuff).buf } := by
      unfold refill
      by_cases hin : u32 ((f.fp.dsect : ℤ) - sect) < cc
      · simp only [if_pos hin, ← hdirty]
      · simp only [if_neg hin]
    obtain ⟨fp, hfp'⟩ : ∃ fp, refill f.fp sect cc wbuff = fp := ⟨_, rfl⟩
    rw [hfp'] at hfp
    have hdsect : fp.dsect = f.fp.dsect := by rw [hfp]
    have hdirty' : fp.dirty = false := by rw [hfp, hdirty]
    have hmode : fp.canRead = f.fp.canRead ∧ fp.canWrite = f.fp.canWrite := by rw [hfp]; exact ⟨rfl, rfl⟩
    have hentry : fp.dirSect = f.fp.dirSect ∧ fp.dirPtr = f.fp.dirPtr := by rw [hfp]; exact ⟨rfl, rfl⟩
    have hcall : (do
        if ← onVolume (FATFS.diskWrite bs sect) then
          setFil fun fp => refill fp sect cc wbuff
          pure (some (512 * cc))
        else OpenFile.abort .FR_DISK_ERR : FileCode (Option ℕ)) f = some (.ok (some (512 * cc)),
          ⟨f.fs.withDrv ⟨store f.fs.drv.bytes (512 * sect) bs, f.fs.drv.faults.tail⟩, fp⟩) := by
      rw [Code.bind_ok (onVolume_apply hvol), ← hfp']
      rfl
    refine .of_eq hcall (hs.fil hentry ?_) (hframe.trans (Frame.fil hmode hentry))
      ⟨rfl, rfl, rfl, hfp, rfl, fun n v he hle => ⟨?_, fun o ho => ?_, fun _ hd i hi => ?_⟩⟩
    · rw [hdsect, hdirty']
      exact h.dsect.imp_left fun h0 => ⟨h0.1, rfl⟩
    · have := add_le_room (w := 512 * cc) hget hfit
      exact Nat.max_le.2 ⟨he.room, this⟩
    · have hview := view_store h hget (show _ + bs.length ≤ _ by rwa [hbl]) he.room hle
        (fun o ho => (congrFun hmem _).symm.trans (he.bytes o ho)) o (by rwa [hbl])
      rw [← hview, ← haddr, OpenFile.mem, if_neg (by simp [hdirty'])]
      rfl
    · dsimp only at hd ⊢
      rw [hdsect] at hd ⊢
      have hbuf := he.clean hdirty hd i hi
      have hlt := h.own_lt (h.dsect.resolve_left fun h0 => hd h0.1)
      have hfull := refill_buf f.fp hlen hlt (show sect + cc ≤ 2 ^ 32 by omega) hi hbuf
      rw [hfp', hbs] at hfull
      exact hfull

/-! ## The loop -/

/-- What one pass does, before the file pointer is moved. -/
structure Passed (F : Prop) (f f' : OpenFile) (l l' : List ℕ) (lost' others : List (List ℕ)) (wbuff : List UInt8)
    (wcnt : Option ℕ) : Prop where
  fp : f'.fp = { f.fp with sclust := f'.fp.sclust, clust := f'.fp.clust, dsect := f'.fp.dsect, buf := f'.fp.buf,
                           dirty := f'.fp.dirty }
  full : wcnt = none → f'.Located l' ∧ Stopped F f' l' lost' others ∧
    (f.fs.drv.faults = [] → ∀ n v, f.Exact l n v → f'.Exact l' n v)
  some : ∀ w, wcnt = some w → 0 < w ∧ w ≤ wbuff.length ∧
    (⟨f'.fs, { f'.fp with fptr := f.fp.fptr + w }⟩ : OpenFile).Located l' ∧
    (f.fs.drv.faults = [] → ∀ v, f.Exact l (max f.fp.fsize f.fp.fptr) v →
      f'.Exact l' (max f.fp.fsize (f.fp.fptr + w)) (store v f.fp.fptr (wbuff.take w)))

/-- The fields after `w` bytes of the current cluster. -/
theorem located_add {w : ℕ} (h : f.Safe l lost others) (hfirst : f.fp.sclust = l.headD 0) (hw : 0 < w)
    (hget : l[f.fp.fptr / f.fs.bcs]? = some f.fp.clust) (hfit : f.fp.fptr % f.fs.bcs + w ≤ f.fs.bcs)
    (hsect : (f.fp.fptr + w) % 512 ≠ 0 → f.fp.fptr % 512 + w ≤ 512 ∧
      f.fp.dsect = f.fs.sector f.fp.clust + f.fp.fptr % f.fs.bcs / 512) :
    (⟨f.fs, { f.fp with fptr := f.fp.fptr + w }⟩ : OpenFile).Located l := by
  have hb := h.sized.bcs_pos
  refine ⟨hfirst, fun _ => ?_, fun hne => ?_⟩
  · obtain ⟨hdiv, -⟩ := div_mod_add (o := f.fp.fptr) (i := w - 1) hb (by omega)
    dsimp only
    rw [Nat.add_sub_assoc hw, hdiv]
    exact hget
  · obtain ⟨hle, hd⟩ := hsect hne
    have hmod := f.fs.mod_bcs f.fp.fptr
    have hlt := Nat.mod_lt (f.fp.fptr / 512) h.sized.pos
    have hbcs : f.fs.bcs = f.fs.csize * 512 := rfl
    dsimp only at hne ⊢
    obtain ⟨-, hmod'⟩ := div_mod_add (o := f.fp.fptr) (i := w) hb (by omega)
    rw [hd, hmod']
    omega

/-- The sector at the file pointer, on a sector boundary. -/
theorem csect_eq_offset (h : f.fs.Sized) (hp : f.fp.fptr % 512 = 0) : f.csect = f.fp.fptr % f.fs.bcs / 512 := by
  have hmod := f.fs.mod_bcs f.fp.fptr
  rw [csect_eq h]
  omega

theorem writeSector_meets (h : f.Safe l lost others) (hF : f.fs.drv.faults ≠ [] → F) (hdirty : f.fp.dirty = false)
    (hfirst : f.fp.sclust = l.headD 0) {wbuff : List UInt8} (hne : wbuff ≠ [])
    (hget : l[f.fp.fptr / f.fs.bcs]? = some f.fp.clust) (hp : f.fp.fptr % 512 = 0) {cs : ℕ} (hcs : cs = f.csect) :
    Meets F (do
      let sect ← currentSector cs
      let cc := wbuff.length / 512
      if cc ≠ 0 then writeDirect sect (if f.fs.csize < cs + cc then f.fs.csize - cs else cc) wbuff
      else
        fillSector sect
        put wbuff) f lost others fun wcnt f' l' lost' => Passed F f f' l l' lost' others wbuff wcnt := by
  subst hcs
  have hlen := List.length_pos_iff.2 hne
  have hoff := csect_eq_offset h.sized hp
  have hmod := f.fs.mod_bcs f.fp.fptr
  have hlt := Nat.mod_lt (f.fp.fptr / 512) h.sized.pos
  have hbcs : f.fs.bcs = f.fs.csize * 512 := rfl
  refine Meets.apply_bind (currentSector_apply h (List.mem_of_getElem? hget) f.csect) ?_
  refine Meets.ite (fun hcc => ?_) fun hcc => ?_
  · obtain ⟨cc, hcc'⟩ : ∃ cc, (if f.fs.csize < f.csect + wbuff.length / 512 then f.fs.csize - f.csect
      else wbuff.length / 512) = cc := ⟨_, rfl⟩
    have hbound : 0 < cc ∧ cc ≤ wbuff.length / 512 ∧ f.csect + cc ≤ f.fs.csize := by
      rw [csect_eq h.sized] at hcc' ⊢
      split_ifs at hcc' <;> omega
    rw [hcc']
    refine (writeDirect_meets h hF hdirty (by omega) hget hp (by omega) (by rw [hoff])).mono
      fun wcnt f' l' lost' hs hframe hq => ?_
    obtain ⟨rfl, rfl, rfl, hfp, hvol, hexact⟩ := hq
    have hptr : f'.fp.fptr = f.fp.fptr := by rw [hfp]
    have hclust : f'.fp.clust = f.fp.clust := by rw [hfp]
    refine ⟨by rw [hfp], fun hw => (by cases hw), fun w hw => ?_⟩
    obtain rfl : 512 * cc = w := by simpa using hw
    refine ⟨by omega, by omega, ?_, fun hnil v he => ?_⟩
    · rw [← hptr]
      refine located_add hs (by rw [hfp, hfirst]) (by omega) ?_ ?_ fun hne => ?_
      · rwa [hptr, hvol, hclust]
      · rw [hptr, hvol]
        omega
      · rw [hptr] at hne
        omega
    · have := hexact _ v he (Nat.le_max_right _ _)
      rwa [Nat.max_assoc, Nat.max_eq_right (show f.fp.fptr ≤ f.fp.fptr + 512 * cc by omega)] at this
  · refine (fillSector_meets h hF hdirty hget hp (by rw [hoff])).bind fun _ f₁ l₁ lost₁ hs₁ hframe₁ hq => ?_
    obtain ⟨rfl, rfl, hfp₁, hvol₁, hexact₁⟩ := hq
    have hptr₁ : f₁.fp.fptr = f.fp.fptr := by rw [hfp₁]
    have hclust₁ : f₁.fp.clust = f.fp.clust := by rw [hfp₁]
    have hdsect₁ : f₁.fp.dsect = f.fs.sector f.fp.clust + f.fp.fptr % f.fs.bcs / 512 := by rw [hfp₁, hoff]
    have hget₁ : l₁[f₁.fp.fptr / f₁.fs.bcs]? = some f₁.fp.clust := by rwa [hptr₁, hvol₁, hclust₁]
    refine (put_meets hs₁ wbuff hget₁ (by rw [hdsect₁, hvol₁, hptr₁, hclust₁])).mono
      fun wcnt f' l' lost' hs hframe hq => ?_
    obtain ⟨rfl, rfl, hfs, hfp, w, rfl, hw, hexact⟩ := hq
    rw [hptr₁] at hw hexact
    have hptr : f'.fp.fptr = f.fp.fptr := by rw [hfp, hptr₁]
    have hclust : f'.fp.clust = f.fp.clust := by rw [hfp, hclust₁]
    have hvol : f'.fs.toVolume = f.fs.toVolume := by rw [hfs, hvol₁]
    refine ⟨by rw [hfp, hfp₁], fun hw => (by cases hw), fun w' hw' => ?_⟩
    obtain rfl : w = w' := by simpa using hw'
    refine ⟨by omega, by omega, ?_, fun hnil v he => ?_⟩
    · rw [← hptr]
      refine located_add hs (by rw [hfp, hfp₁, hfirst]) (by omega) ?_ ?_ fun hne => ?_
      · rwa [hptr, hvol, hclust]
      · rw [hptr, hvol]
        exact h.add_le_bcs (by omega)
      · rw [hptr, hvol, hclust]
        exact ⟨by omega, by rw [hfp, hdsect₁]⟩
    · have hfin := hexact _ v (by rw [hvol₁]; exact he.room) (Nat.le_max_right _ _) (by rw [hvol₁]; exact hexact₁ v he)
      rwa [Nat.max_assoc, Nat.max_eq_right (show f.fp.fptr ≤ f.fp.fptr + w by omega)] at hfin

/-- A part of a pass that leaves the file as it is. -/
theorem Passed.of_same {f₁ : OpenFile} {l₁ : List ℕ} {wbuff : List UInt8} {wcnt : Option ℕ}
    (h : Passed F f₁ f' l₁ l' lost' others wbuff wcnt) (hfaults : f.fs.drv.faults = [] → f₁.fs.drv.faults = [])
    (hfp : f₁.fp = { f.fp with sclust := f₁.fp.sclust, clust := f₁.fp.clust, dirty := f₁.fp.dirty })
    (hexact : f.fs.drv.faults = [] → ∀ n v, f.Exact l n v → f₁.Exact l₁ n v) :
    Passed F f f' l l' lost' others wbuff wcnt := by
  have hptr : f₁.fp.fptr = f.fp.fptr := by rw [hfp]
  have hsize : f₁.fp.fsize = f.fp.fsize := by rw [hfp]
  refine ⟨by rw [h.fp, hfp], fun hnone => ?_, fun w hw => ?_⟩
  · obtain ⟨hl, hfull, he⟩ := h.full hnone
    exact ⟨hl, hfull, fun hnil n v hx => he (hfaults hnil) n v (hexact hnil n v hx)⟩
  · obtain ⟨hpos, hle, hl, he⟩ := h.some w hw
    rw [hptr] at hl he
    rw [hsize] at he
    exact ⟨hpos, hle, hl, fun hnil v hx => he (hfaults hnil) v (hexact hnil _ v hx)⟩

theorem writePass_meets (h : f.Safe l lost others) (hF : f.fs.drv.faults ≠ [] → F) (hl : f.Located l)
    {wbuff : List UInt8} (hne : wbuff ≠ []) :
    Meets F (writePass wbuff) f lost others fun wcnt f' l' lost' => Passed F f f' l l' lost' others wbuff wcnt := by
  have hlen := List.length_pos_iff.2 hne
  unfold writePass
  refine Meets.read_bind (Meets.ite (fun hp => ?_) fun hp => ?_)
  · refine (enterWrite_meets h hF hl hp).bind fun ok f₁ l₁ lost₁ hs₁ hframe₁ hent => ?_
    have hF₁ := hframe₁.fail hF
    have hptr₁ : f₁.fp.fptr = f.fp.fptr := by rw [hent.fp]
    cases ok with
    | false =>
      rw [if_neg (by decide)]
      exact Meets.pure hs₁ ⟨by rw [hent.fp], fun _ => ⟨(hent.full rfl).1, (hent.full rfl).2, hent.exact⟩,
        fun w hw => by cases hw⟩
    | true =>
      rw [if_pos rfl]
      refine (writeBack_abort_meets hs₁ hF₁).bind fun _ f₂ l₂ lost₂ hs₂ hframe₂ hq => ?_
      obtain ⟨rfl, rfl, hflush⟩ := hq
      have hptr₂ : f₂.fp.fptr = f.fp.fptr := by rw [hflush.fp, hptr₁]
      have hclust₂ : f₂.fp.clust = f₁.fp.clust := by rw [hflush.fp]
      have hvol₂ : f₂.fs.toVolume = f.fs.toVolume := hframe₂.vol.trans hframe₁.vol
      have hget₂ : l₂[f₂.fp.fptr / f₂.fs.bcs]? = some f₂.fp.clust := by
        rw [hptr₂, hvol₂, hclust₂]
        exact hent.clust rfl
      have hcs : f.csect = f₂.csect := by unfold csect; rw [hptr₂, hvol₂]
      have hsector := writeSector_meets (F := F) hs₂ (hframe₂.fail hF₁) (by rw [hflush.fp])
        (by rw [hflush.fp, hent.first]) hne hget₂ (by rwa [hptr₂]) hcs
      rw [hvol₂] at hsector
      refine hsector.mono fun wcnt f' l' lost' hs hframe hq => hq.of_same
        (fun hnil => hframe₂.faults (hframe₁.faults hnil)) (by rw [hflush.fp, hent.fp]) fun hnil n v he => ?_
      exact (hent.exact hnil n v he).flushed hflush
  · have hpos : 0 < f.fp.fptr := Nat.pos_of_ne_zero fun h0 => hp (by rw [h0])
    have hmod := f.fs.mod_bcs f.fp.fptr
    have hget : l[f.fp.fptr / f.fs.bcs]? = some f.fp.clust := by
      rw [← pred_div h.sized.bcs_pos (show f.fp.fptr % f.fs.bcs ≠ 0 by omega)]
      exact hl.clust hpos
    have hd := hl.sect hp
    refine (put_meets h wbuff hget hd).mono fun wcnt f' l' lost' hs hframe hq => ?_
    obtain ⟨rfl, rfl, hfs, hfp, w, rfl, hw, hexact⟩ := hq
    have hptr : f'.fp.fptr = f.fp.fptr := by rw [hfp]
    have hclust : f'.fp.clust = f.fp.clust := by rw [hfp]
    refine ⟨by rw [hfp], fun hw => (by cases hw), fun w' hw' => ?_⟩
    obtain rfl : w = w' := by simpa using hw'
    have hlt := Nat.mod_lt f.fp.fptr (show 0 < 512 by decide)
    refine ⟨by omega, by omega, ?_, fun hnil v he => ?_⟩
    · rw [← hptr]
      refine located_add hs (by rw [hfp, hl.first]) (by omega) ?_ ?_ fun hne => ?_
      · rwa [hptr, hfs, hclust]
      · rw [hptr, hfs]
        exact h.add_le_bcs (by omega)
      · rw [hptr, hfs, hclust]
        exact ⟨by omega, by rw [hfp, hd]⟩
    · have hown : f.Own l' lost' f.fp.dsect := by
        refine ⟨_, List.mem_append_left _ (List.mem_of_getElem? hget), ?_⟩
        rw [hd]
        have := h.sized.offset_lt (o := f.fp.fptr)
        exact ⟨by omega, by omega⟩
      have hthrough := he.through_eq (h.dsect_ne_zero hown)
      have hfin := hexact _ v he.room (Nat.le_max_right _ _) fun o ho => (congrFun hthrough _).trans (he.bytes o ho)
      rwa [Nat.max_assoc, Nat.max_eq_right (show f.fp.fptr ≤ f.fp.fptr + w by omega)] at hfin

/-- What the loop does: `k` bytes are written, and all of them unless the drive is full. -/
structure Wrote (F : Prop) (f f' : OpenFile) (l l' : List ℕ) (lost' others : List (List ℕ)) (wbuff : List UInt8) (k : ℕ) :
    Prop where
  le : k ≤ wbuff.length
  located : f'.Located l'
  fptr : f'.fp.fptr = f.fp.fptr + k
  fields : f'.fp.fsize = f.fp.fsize ∧ f'.fp.written = f.fp.written ∧ f'.fp.err = f.fp.err
  full : k < wbuff.length → Stopped F f' l' lost' others
  exact : f.fs.drv.faults = [] → ∀ v, f.Exact l (max f.fp.fsize f.fp.fptr) v →
    f'.Exact l' (max f.fp.fsize (f.fp.fptr + k)) (store v f.fp.fptr (wbuff.take k))

theorem store_nil {a : ℕ} : store v a [] = v := by
  funext x
  exact store_outside (by rw [List.length_nil]; omega)

theorem writeLoop_meets (fuel : ℕ) {wbuff : List UInt8} (bw : ℕ) (h : f.Safe l lost others)
    (hF : f.fs.drv.faults ≠ [] → F) (hl : f.Located l) (hfuel : wbuff.length < fuel) :
    Meets F (writeLoop fuel wbuff bw) f lost others fun n f' l' lost' => ∃ k, n = bw + k ∧
      Wrote F f f' l l' lost' others wbuff k := by
  induction fuel generalizing f l lost wbuff bw with
  | zero => omega
  | succ fuel ih =>
    unfold writeLoop
    refine Meets.ite (fun hnil => ?_) fun hne => ?_
    · refine Meets.pure h ⟨0, rfl, Nat.zero_le _, hl, rfl, ⟨rfl, rfl, rfl⟩, fun hlt => ?_, fun _ v he => ?_⟩
      · rw [hnil] at hlt
        exact absurd hlt (by simp)
      · rwa [List.take_zero, store_nil]
    · refine (writePass_meets h hF hl hne).bind fun wcnt f₁ l₁ lost₁ hs₁ hframe₁ hpass => ?_
      have hptr₁ : f₁.fp.fptr = f.fp.fptr := by rw [hpass.fp]
      have hfields₁ : f₁.fp.fsize = f.fp.fsize ∧ f₁.fp.written = f.fp.written ∧ f₁.fp.err = f.fp.err := by
        rw [hpass.fp]
        exact ⟨rfl, rfl, rfl⟩
      cases wcnt with
      | none =>
        obtain ⟨hl₁, hfull, hexact⟩ := hpass.full rfl
        refine Meets.pure hs₁ ⟨0, rfl, Nat.zero_le _, hl₁, hptr₁, hfields₁, fun _ => hfull, fun hnil v he => ?_⟩
        rw [List.take_zero, store_nil]
        exact hexact hnil _ v he
      | some w =>
        obtain ⟨hpos, hle, hl₁, hexact⟩ := hpass.some w rfl
        refine Meets.setFil_bind hs₁ ⟨rfl, rfl⟩ ⟨rfl, rfl⟩ hs₁.dsect fun hs₂ => ?_
        rw [← hptr₁] at hl₁
        refine (ih (bw + w) hs₂ (hframe₁.fail hF) hl₁ (by rw [List.length_drop]; omega)).mono
          fun n f' l' lost' hs hframe hq => ?_
        obtain ⟨k, rfl, hw⟩ := hq
        have hlk := hw.le
        rw [List.length_drop] at hlk
        refine ⟨w + k, by omega, by omega, hw.located, ?_, ?_, fun hlt => hw.full (by rw [List.length_drop]; omega),
          fun hnil v he => ?_⟩
        · rw [hw.fptr]
          dsimp only
          omega
        · exact ⟨hw.fields.1.trans hfields₁.1, hw.fields.2.1.trans hfields₁.2.1, hw.fields.2.2.trans hfields₁.2.2⟩
        · have hlen : (wbuff.take w).length = w := List.length_take_of_le hle
          have he₁ := hexact hnil v he
          have hfin := hw.exact (hframe₁.faults hnil) (store v f.fp.fptr (wbuff.take w))
          dsimp only at hfin
          rw [hptr₁, hfields₁.1] at hfin
          have happ : store (store v f.fp.fptr (wbuff.take w)) (f.fp.fptr + (wbuff.take w).length)
            ((wbuff.drop w).take k) = _ := store_append
          rw [hlen] at happ
          rw [List.take_add, ← happ, ← Nat.add_assoc]
          exact hfin (he₁.fil rfl rfl rfl)

/-- The bytes that may be written: a file does not reach 4 GB. -/
def bytesToWrite (f : OpenFile) (wbuff : List UInt8) : ℕ := if f.fp.fptr + wbuff.length < 2 ^ 32 then wbuff.length else 0

/-- **Writing.** The bytes are in the file from the file pointer on. They are all written unless the drive is full, and
the call fails only if a transfer does. -/
theorem fWrite_meets {wbuff : List UInt8} (h : f.Safe l lost others) (hF : f.fs.drv.faults ≠ [] → F) (hl : f.Located l)
    (herr : f.fp.err = .FR_OK) (hmode : f.fp.canWrite = true) (hlt : f.fp.fptr < 2 ^ 32) (hlen : wbuff.length < 2 ^ 32) :
    Meets F (fWrite wbuff) f lost others fun n f' l' lost' => n ≤ f.bytesToWrite wbuff ∧ f'.Located l' ∧
      f'.fp.fptr = f.fp.fptr + n ∧ f'.fp.fsize = max f.fp.fsize (f.fp.fptr + n) ∧ f'.fp.written = true ∧
      f'.fp.err = .FR_OK ∧ (n < f.bytesToWrite wbuff → Stopped F f' l' lost' others) ∧
      (f.fs.drv.faults = [] → f.fp.fptr ≤ f.fp.fsize → ∀ v, f.Exact l f.fp.fsize v →
        f'.Exact l' f'.fp.fsize (store v f.fp.fptr (wbuff.take n))) := by
  have hbtw : (if (f.fp.fptr + wbuff.length) % 2 ^ 32 < f.fp.fptr then 0 else wbuff.length) = f.bytesToWrite wbuff := by
    unfold bytesToWrite
    split_ifs <;> omega
  have hble : f.bytesToWrite wbuff ≤ wbuff.length := by
    unfold bytesToWrite
    split_ifs <;> omega
  unfold fWrite
  refine Meets.read_bind ?_
  rw [if_neg (by simp [herr]), if_neg (by simp [hmode])]
  simp only [hbtw]
  have htake : (wbuff.take (f.bytesToWrite wbuff)).length = f.bytesToWrite wbuff := List.length_take_of_le hble
  refine (writeLoop_meets (F := F) _ 0 h hF hl (by rw [htake]; exact Nat.lt_succ_self _)).bind
    fun n f₁ l₁ lost₁ hs₁ hframe₁ hq => ?_
  obtain ⟨k, rfl, hw⟩ := hq
  rw [Nat.zero_add]
  have hk := hw.le
  rw [htake] at hk
  refine Meets.setFil_bind hs₁ ⟨rfl, rfl⟩ ⟨rfl, rfl⟩ hs₁.dsect fun hs₂ => Meets.pure hs₂ ?_
  have hsize : (if f₁.fp.fsize < f₁.fp.fptr then f₁.fp.fptr else f₁.fp.fsize) = max f.fp.fsize (f.fp.fptr + k) := by
    rw [hw.fptr, hw.fields.1]
    split_ifs <;> omega
  refine ⟨hk, ⟨hw.located.first, hw.located.clust, hw.located.sect⟩, hw.fptr, hsize, rfl, hw.fields.2.2.trans herr,
    fun hlt => ?_, fun hnil hle v he => ?_⟩
  · obtain ⟨hfull, hlast⟩ := hw.full (by rwa [htake])
    exact ⟨hfull, hlast⟩
  have hfin := hw.exact hnil v (by rwa [Nat.max_eq_left hle])
  rw [List.take_take, Nat.min_eq_left hk] at hfin
  dsimp only
  rw [hsize]
  exact hfin.fil rfl rfl rfl

end OpenFile

end Miosix
