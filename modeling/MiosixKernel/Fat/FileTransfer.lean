import MiosixKernel.Fat.FileState

/-!
# Transfers of an open file

* `writeBack_meets`, `fill_meets`, `currentSector_apply`: the parts that reading, writing and seeking share;
* `createChain_meets`: a cluster for the file.
-/

namespace Miosix

open Lib Volume

namespace FATFS

/-- The next cluster is answered without a search. -/
theorem createChain_follows {fs : FATFS} {clst fuel : ℕ} (h : fs.Valid) (hge : 2 ≤ clst) (hlt : clst < fs.nFatent)
    (hf : fs.drv.faults = []) (hge' : 2 ≤ fs.fat clst) (hlt' : fs.fat clst < fs.nFatent) :
    ∃ fs', fs.createChain clst fuel = some (fs.fat clst, fs') ∧ fs.Shows fs' := by
  rcases hget : fs.getFat clst with ⟨cs, fs'⟩
  obtain ⟨hshow, rfl | ⟨-, hne⟩⟩ := getFat_shows h hge hlt hget
  · refine ⟨fs', ?_, hshow⟩
    unfold createChain
    rw [if_neg (by omega), hget]
    simp only [hshow.vol]
    rw [if_neg (by omega), if_pos hlt']
  · exact absurd hf hne.ne_nil

end FATFS

namespace OpenFile

variable {F : Prop} {f f' : OpenFile} {l : List ℕ} {lost others : List (List ℕ)} {n c j sect : ℕ} {v : ℕ → UInt8}

theorem onVolume_apply {α : Type} {g : FATFS → α × FATFS} {a : α} {fs' : FATFS} (h : g f.fs = (a, fs')) :
    onVolume g f = some (.ok a, ⟨fs', f.fp⟩) := by rw [onVolume, Code.call, h]

/-- The buffer is clean, or the transfer fails, or what was seen through the buffer is on the drive. -/
theorem writeBack_cases (fail : FileCode Unit) (f : OpenFile) :
    (f.fp.dirty = false ∧ writeBack fail f = some (.ok (), f)) ∨
    (f.fp.dirty = true ∧ ∃ drv, f.fs.drv.Later drv ∧ f.fs.drv.Failed drv ∧
      (∀ x, x / 512 ≠ f.fp.dsect → drv.bytes x = f.fs.drv.bytes x) ∧
      writeBack fail f = fail ⟨f.fs.withDrv drv, f.fp⟩) ∨
    (f.fp.dirty = true ∧ writeBack fail f =
      some (.ok (), ⟨f.fs.withDrv ⟨f.through, f.fs.drv.faults.tail⟩, { f.fp with dirty := false }⟩)) := by
  unfold writeBack
  rw [Code.bind_ok (show Code.read f = some (.ok f, f) from rfl)]
  cases hd : f.fp.dirty
  · exact .inl ⟨rfl, rfl⟩
  · rw [if_pos rfl]
    obtain ⟨drv, hw, hlater, hf, hout⟩ | hw := f.fs.drv.diskWrite_cases (load f.fp.buf 0 512) f.fp.dsect
    · have hvol : FATFS.diskWrite (load f.fp.buf 0 512) f.fp.dsect f.fs = (false, f.fs.withDrv drv) := by
        rw [FATFS.diskWrite, hw]
      exact .inr (.inl ⟨rfl, drv, hlater, hf, fun x hx => hout x (by rw [length_load]; omega),
        Code.bind_ok (onVolume_apply hvol)⟩)
    · have hvol : FATFS.diskWrite (load f.fp.buf 0 512) f.fp.dsect f.fs =
          (true, f.fs.withDrv ⟨f.through, f.fs.drv.faults.tail⟩) := by
        rw [FATFS.diskWrite, hw, store_eq_overlay]
        rfl
      exact .inr (.inr ⟨rfl, Code.bind_ok (onVolume_apply hvol)⟩)

/-- The buffer is written back. -/
structure Flushed (f f' : OpenFile) : Prop where
  fp : f'.fp = { f.fp with dirty := false }
  bytes : f'.fs.drv.bytes = f.mem
  vol : f'.fs.toVolume = f.fs.toVolume

theorem Flushed.mem (h : Flushed f f') : f'.mem = f.mem := by
  rw [← h.bytes, OpenFile.mem, h.fp]
  rfl

theorem Exact.flushed (h : f.Exact l n v) (hf : Flushed f f') : f'.Exact l n v := by
  have hdsect : f'.fp.dsect = f.fp.dsect := by rw [hf.fp]
  have hbuf : f'.fp.buf = f.fp.buf := by rw [hf.fp]
  refine ⟨by rw [hf.vol]; exact h.room, fun o ho => by rw [hf.vol, hf.mem]; exact h.bytes o ho, fun _ hd i hi => ?_⟩
  rw [hdsect] at hd
  rw [hf.bytes, hdsect, hbuf, ← h.through_eq hd, through, overlay_inside (by omega) (by omega),
    Nat.add_sub_cancel_left]

theorem writeBack_meets {fail : FileCode Unit} (h : f.Safe l lost others)
    (hfail : ∀ fs', f.fs.drv.faults ≠ [] → (⟨fs', f.fp⟩ : OpenFile).Safe l lost others →
      fs'.toVolume = f.fs.toVolume → Meets F fail ⟨fs', f.fp⟩ lost others
        fun _ f' l' lost' => l' = l ∧ lost' = lost ∧ Flushed f f') :
    Meets F (writeBack fail) f lost others fun _ f' l' lost' => l' = l ∧ lost' = lost ∧ Flushed f f' := by
  have hown (hd : f.fp.dirty = true) : f.Own l lost f.fp.dsect := h.dsect.resolve_left fun h0 => by simp [hd] at h0
  obtain ⟨hd, heq⟩ | ⟨hd, drv, hlater, hf, hout, heq⟩ | ⟨hd, heq⟩ := writeBack_cases fail f
  · refine .of_eq heq h (Frame.refl f others) ⟨rfl, rfl, ?_, ?_, rfl⟩
    · rw [← hd]
    · rw [OpenFile.mem, hd]
      rfl
  · obtain ⟨hs, hframe⟩ := h.withDrv hlater fun x hx => hout x fun heq => hx (heq ▸ hown hd)
    obtain ⟨r, f', hres, hpost⟩ := hfail _ hf.ne_nil hs rfl
    exact ⟨r, f', heq.trans hres, hpost.of_frame hframe fun _ => rfl⟩
  · have hout : ∀ x, ¬ f.Own l lost (x / 512) → f.through x = f.fs.drv.bytes x := by
      intro x hx
      refine overlay_outside ?_
      by_contra hc
      have hsect : x / 512 = f.fp.dsect := by omega
      exact hx (hsect ▸ hown hd)
    have hlater : f.fs.drv.Later ⟨f.through, f.fs.drv.faults.tail⟩ := f.fs.drv.later_next
    obtain ⟨hs, hframe⟩ := h.withDrv hlater hout
    refine .of_eq heq (hs.fil ⟨rfl, rfl⟩ (.inr (hown hd))) (hframe.trans (Frame.fil ⟨rfl, rfl⟩ ⟨rfl, rfl⟩))
      ⟨rfl, rfl, rfl, ?_, rfl⟩
    rw [OpenFile.mem, hd, if_pos rfl]
    rfl

theorem writeBack_abort_meets (h : f.Safe l lost others) (hF : f.fs.drv.faults ≠ [] → F) :
    Meets F (writeBack (abort .FR_DISK_ERR)) f lost others fun _ f' l' lost' => l' = l ∧ lost' = lost ∧ Flushed f f' :=
  writeBack_meets h fun _ hf hs _ => Meets.abort hs (hF hf) (by decide)

/-- A sector is in the buffer. -/
structure Filled (f f' : OpenFile) (sect : ℕ) : Prop where
  fp : f'.fp = { f.fp with buf := f'.fp.buf }
  buf : ∀ i < 512, f'.fp.buf i = f.fs.drv.bytes (512 * sect + i)
  bytes : f'.fs.drv.bytes = f.fs.drv.bytes
  vol : f'.fs.toVolume = f.fs.toVolume

theorem fill_meets (h : f.Safe l lost others) (hF : f.fs.drv.faults ≠ [] → F) (sect : ℕ) :
    Meets F (fill sect) f lost others fun _ f' l' lost' => l' = l ∧ lost' = lost ∧ Filled f f' sect := by
  obtain ⟨hs, hframe⟩ := h.next
  obtain ⟨inBuffer, hr, hf, -⟩ | hr := f.fs.drv.diskRead_cases sect 1
  · have hvol : FATFS.diskRead sect 1 f.fs = (.error inBuffer, f.fs.withDrv f.fs.drv.next) := by rw [FATFS.diskRead, hr]
    -- what is in the buffer is not used any more
    exact .of_abort (Code.bind_ok (onVolume_apply hvol)) (hs.fil ⟨rfl, rfl⟩ hs.dsect)
      (hframe.trans (Frame.fil ⟨rfl, rfl⟩ ⟨rfl, rfl⟩)) (hF hf.ne_nil) (by decide)
  · have hvol : FATFS.diskRead sect 1 f.fs =
        (.ok (load f.fs.drv.bytes (512 * sect) (512 * 1)), f.fs.withDrv f.fs.drv.next) := by rw [FATFS.diskRead, hr]
    generalize hbytes : load f.fs.drv.bytes (512 * sect) (512 * 1) = bytes at hvol
    refine .of_eq (Code.bind_ok (onVolume_apply hvol)) (hs.fil ⟨rfl, rfl⟩ hs.dsect)
      (hframe.trans (Frame.fil ⟨rfl, rfl⟩ ⟨rfl, rfl⟩)) ⟨rfl, rfl, rfl, fun i hi => ?_, rfl, rfl⟩
    have hlen : i < 512 * 1 := by rwa [Nat.mul_one]
    dsimp only
    rw [← hbytes]
    exact store_load hlen

/-- The sector at the file pointer. -/
theorem currentSector_apply (h : f.Safe l lost others) (hc : f.fp.clust ∈ l) (cs : ℕ) :
    currentSector cs f = some (.ok (f.fs.sector f.fp.clust + cs), f) := by
  obtain ⟨hge, hlt⟩ := h.mem_l hc
  obtain ⟨heq, hne⟩ := clust2sect_eq h.sized hge hlt
  unfold currentSector
  rw [Code.bind_ok (show Code.read f = some (.ok f, f) from rfl), heq, if_neg hne]
  rfl

/-! ## A cluster for the file -/

theorem entryBound_le (fs : FATFS) : fs.entryBound ≤ 2 ^ 28 := by
  unfold Volume.entryBound
  split <;> decide

theorem Safe.ne_error (h : f.Safe l lost others) (hc : c < f.fs.nFatent) : c ≠ 0xFFFFFFFF := by
  have := entryBound_le f.fs
  have := h.sized.placed.last
  omega

/-- A file has a first cluster, or no clusters. -/
theorem Safe.first_cases (h : f.Safe l lost others) (hfirst : f.fp.sclust = l.headD 0) :
    (f.fp.sclust = 0 ∧ l = []) ∨ (f.fp.sclust ≠ 0 ∧ l[0]? = some f.fp.sclust) := by
  rw [hfirst]
  cases l with
  | nil => exact .inl ⟨rfl, rfl⟩
  | cons x t =>
    have hx := (h.mem_l List.mem_cons_self).1
    exact .inr ⟨by rw [List.headD_cons]; omega, rfl⟩

/-- The entry of a cluster of the file is the next one, or ends the file. -/
theorem Safe.next_clust (h : f.Safe l lost others) (hc : l[j]? = some c) :
    (l[j + 1]? = none ∧ f.fs.nFatent ≤ f.fs.fat c) ∨ l[j + 1]? = some (f.fs.fat c) := h.alloc.next hc

/-- Without a failure there is no cluster only at the end of the file. -/
theorem Safe.length_of_none {fs' : FATFS} (h : f.Safe l lost others) (hc : l[j]? = some c)
    (hf : f.fs.drv.faults = []) (hres : f.fs.createChain c f.fs.nFatent = some (0, fs')) : l.length = j + 1 := by
  obtain ⟨hj, -⟩ := List.getElem?_eq_some_iff.1 hc
  obtain ⟨hnone, -⟩ | hsome := h.next_clust hc
  · rw [List.getElem?_eq_none_iff] at hnone
    omega
  · obtain ⟨hge, hlt⟩ := h.mem_l (List.mem_of_getElem? hc)
    obtain ⟨hge', hlt'⟩ := h.mem_l (List.mem_of_getElem? hsome)
    obtain ⟨fs'', hres', -⟩ := FATFS.createChain_follows h.alloc.valid hge hlt hf hge' hlt'
    rw [hres] at hres'
    have hz : 0 = f.fs.fat c := congrArg Prod.fst (Option.some.inj hres')
    omega

/-- Every cluster is in use. -/
def Full (f : OpenFile) (l : List ℕ) (lost others : List (List ℕ)) : Prop :=
  ∀ c, 2 ≤ c → c < f.fs.nFatent → c ∈ l ++ lost.flatten ++ others.flatten

/-- What is answered for a cluster of the file. -/
structure Stretched (f f' : OpenFile) (l l' : List ℕ) (lost' others : List (List ℕ)) (new : List ℕ) (r : ℕ) : Prop where
  fp : f'.fp = f.fp
  vol : f'.fs.toVolume = f.fs.toVolume
  answer : (2 ≤ r ∧ r < f.fs.nFatent ∧ l' = new) ∨ (r = 0 ∧ l' = l ∧ f'.Full l' lost' others)
  exact : f.fs.drv.faults = [] → ∀ n v, f.Exact l n v → f'.Exact l' n v

theorem createChain_meets {clst r : ℕ} {new : List ℕ} {fs' : FATFS} (h : f.Safe l lost others)
    (hres : f.fs.createChain clst f.fs.nFatent = some (r, fs'))
    (hans : f.fs.Answered fs' l new (lost ++ others) r) :
    Meets F (createChain clst) f lost others fun a f' l' lost' => a = r ∧ Stretched f f' l l' lost' others new r ∨
      f.fs.drv.faults ≠ [] ∧ a = 0xFFFFFFFF ∧ f'.fp = f.fp ∧ f'.fs.toVolume = f.fs.toVolume ∧ l' = l := by
  obtain ⟨hkeep, hanswer, hgrows, ⟨more, halloc, hmem, hkept⟩, -⟩ := hans
  have hnear := FATFS.near_createChain h.sized.placed hres
  rw [List.cons_append, ← List.append_assoc] at halloc
  obtain ⟨hs, hframe, hbytes⟩ := h.move hkeep (h.near_window hnear) halloc fun c hc => by
    rw [List.flatten_append, ← List.append_assoc]
    obtain hc | hc := List.mem_append.1 hc
    · exact List.mem_append_left _ (hmem c hc)
    · exact List.mem_append_right _ hc
  refine ⟨.ok r, _, Code.run_apply (by rw [hres]; rfl), _, _, hs, hframe, fun hnil => ?_, ?_⟩
  · rw [List.flatten_append, hkept hnil, List.nil_append]
  obtain hr | ⟨rfl, hfull⟩ | ⟨hr, hf⟩ := hanswer
  · rw [if_pos hr] at hs ⊢
    exact .inl ⟨rfl, rfl, hkeep.vol, .inl ⟨hr.1, hr.2, rfl⟩,
      fun hnil n v he => he.move h hkeep.vol hbytes (hgrows hnil hr)⟩
  · rw [if_neg (by omega)] at hs ⊢
    refine .inl ⟨rfl, rfl, hkeep.vol, .inr ⟨rfl, rfl, fun c hge hlt => ?_⟩,
      fun hnil n v he => he.move h hkeep.vol hbytes List.prefix_rfl⟩
    have hused := (hs.alloc.chains.used c).1 fun hn => hfull c hge (by rwa [← hkeep.vol]) (FATFS.links_eq_none.1 hn)
    rwa [List.flatten_cons, List.flatten_append, ← List.append_assoc] at hused
  · have hne : ¬ (2 ≤ r ∧ r < f.fs.nFatent) := fun hlt => h.ne_error hlt.2 hr
    rw [if_neg hne] at hs ⊢
    exact .inr ⟨hf, hr, rfl, hkeep.vol, rfl⟩

end OpenFile

end Miosix
