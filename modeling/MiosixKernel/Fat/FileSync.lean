import MiosixKernel.Fat.FileSeek

/-!
# Writing a file back

* `withEntry`: the directory entry of the file is changed in the window;
* `Stored`: the drive holds the directory entry and the FAT;
* **`fSync_meets`**: after a call that succeeds, the drive holds the file.
-/

namespace Miosix

open Lib Volume

/-! ## The directory entry -/

section Numbers

variable {p : ℕ → UInt8} {a val x : ℕ}

theorem stDword_outside (h : x < a ∨ a + 4 ≤ x) : stDword p a val x = p x := store_outside h

theorem shiftLeft_or_shiftRight (n : ℕ) : n % 2 ^ 16 ||| (n >>> 16) <<< 16 = n := by
  rw [Nat.or_comm, ← Nat.shiftLeft_add_eq_or_of_lt (Nat.mod_lt n (Nat.two_pow_pos 16)), Nat.shiftRight_eq_div_pow,
    Nat.shiftLeft_eq, Nat.mul_comm, Nat.div_add_mod]

end Numbers

namespace OpenFile

variable {fp : FIL} {win : ℕ → UInt8} {v : Volume} {i : ℕ}

theorem updateEntry_outside (h : i < fp.dirPtr ∨ fp.dirPtr + 32 ≤ i) : updateEntry fp win i = win i := by
  unfold updateEntry stClust
  rw [stWord_outside (by omega), stDword_outside (by omega), stWord_outside (by omega), stWord_outside (by omega),
    stDword_outside (by omega)]
  exact store_outside (by simp only [List.length_cons, List.length_nil]; omega)

/-- The size in the entry. -/
theorem ldDword_updateEntry : ldDword (updateEntry fp win) (fp.dirPtr + 28) = fp.fsize % 2 ^ 32 := by
  rw [← ldDword_stDword (p := store win (fp.dirPtr + 11) [win (fp.dirPtr + 11) ||| 0x20]) (a := fp.dirPtr + 28)]
  refine ldDword_congr fun i hi => ?_
  unfold updateEntry stClust
  rw [stWord_outside (by omega), stDword_outside (by omega), stWord_outside (by omega), stWord_outside (by omega)]

/-- The first cluster in the entry. -/
theorem ldClust_updateEntry (h : fp.sclust < v.entryBound) : ldClust v (updateEntry fp win) fp.dirPtr = fp.sclust := by
  have hlow : ldWord (updateEntry fp win) (fp.dirPtr + 26) = fp.sclust % 2 ^ 16 := by
    rw [← ldWord_stWord (p := stDword (store win (fp.dirPtr + 11) [win (fp.dirPtr + 11) ||| 0x20]) (fp.dirPtr + 28)
      fp.fsize) (a := fp.dirPtr + 26)]
    refine ldWord_congr fun i hi => ?_
    unfold updateEntry stClust
    rw [stWord_outside (by omega), stDword_outside (by omega), stWord_outside (by omega)]
  have hhigh : ldWord (updateEntry fp win) (fp.dirPtr + 20) = (fp.sclust >>> 16) % 2 ^ 16 := by
    rw [← ldWord_stWord (p := stWord (stDword (store win (fp.dirPtr + 11) [win (fp.dirPtr + 11) ||| 0x20])
      (fp.dirPtr + 28) fp.fsize) (fp.dirPtr + 26) fp.sclust) (a := fp.dirPtr + 20)]
    refine ldWord_congr fun i hi => ?_
    unfold updateEntry stClust
    rw [stWord_outside (by omega), stDword_outside (by omega)]
  unfold ldClust
  rw [hlow, hhigh]
  unfold entryBound at h
  cases ht : v.fsType <;> simp only [ht] at h ⊢
  · omega
  · simp only [reduceCtorEq, if_false]
    omega
  · simp only [reduceCtorEq, if_false]
    omega
  · rw [if_pos trivial, Nat.mod_eq_of_lt (a := fp.sclust >>> 16) (by rw [Nat.shiftRight_eq_div_pow]; omega)]
    exact shiftLeft_or_shiftRight _

end OpenFile

namespace FATFS

variable {fs : FATFS} {win : ℕ → UInt8} {x : ℕ}

/-- The volume after the window was changed. -/
def withWin (fs : FATFS) (win : ℕ → UInt8) : FATFS := { fs with win := win, wflag := true }

theorem seen_withWin : (fs.withWin win).seen x = if x / 512 = fs.winsect then win (x % 512) else fs.seen x := by
  split_ifs with hx
  · exact seen_of_eq (show x / 512 = (fs.withWin win).winsect from hx)
  · rw [seen_of_ne hx]
    exact seen_of_ne (show x / 512 ≠ (fs.withWin win).winsect from hx)

/-- A window that is not on the FAT. -/
theorem fat_withWin (h : fs.Valid) (hw : ¬ fs.InFat fs.winsect) : (fs.withWin win).fat = fs.fat := by
  funext c
  change (if 2 ≤ c ∧ c < fs.nFatent then fs.entry (fs.withWin win).seen c else 0) = fs.fat c
  unfold fat
  split_ifs with hc
  · refine Volume.entry_congr h.placed hc.2 fun x hge hlt => ?_
    rw [seen_withWin, if_neg fun hx => hw ⟨by rwa [← hx], by rwa [← hx]⟩]
  · rfl

theorem winsect_moveWindow (fs : FATFS) (s : ℕ) :
    (fs.moveWindow s).2.winsect = fs.winsect ∨ (fs.moveWindow s).2.winsect = s := by
  have hsync : fs.syncWindow.2.winsect = fs.winsect := by
    unfold syncWindow
    split_ifs
    · dsimp only
      split <;> rfl
    · rfl
  unfold moveWindow
  split_ifs
  · rcases hres : fs.syncWindow with ⟨res, fs₁⟩
    rw [hres] at hsync
    cases res with
    | FR_OK =>
      dsimp only
      split
      · exact .inr rfl
      · exact .inl hsync
    | _ => exact .inl hsync
  · exact .inl rfl

/-- The window is written back if the call succeeds, and only a failing transfer is an error. -/
theorem syncFs_cases {fs' : FATFS} {res : FRESULT} (h : fs.Valid) (hres : fs.syncFs = (res, fs')) :
    (res = .FR_OK ∧ fs'.wflag = false ∨ res = .FR_DISK_ERR ∧ fs.drv.faults ≠ []) ∧
      (fs'.winsect = fs.winsect ∨ fs'.winsect < fs.database) := by
  unfold syncFs at hres
  have hnear := fs.near_syncWindow
  rcases hsync : fs.syncWindow with ⟨res₁, fs₁⟩
  have hshow := syncWindow_shows h hsync
  rw [hsync] at hres hnear
  have hwin : fs₁.winsect = fs.winsect := by
    obtain ⟨-, -, rfl⟩ | ⟨-, -, drv, rfl, -⟩ | ⟨-, -, drv, rfl, -⟩ := syncWindow_cases h.toCoherent hsync <;> rfl
  obtain rfl | ⟨rfl, hf⟩ := res_syncWindow h.toCoherent hsync
  · have hw := wflag_syncWindow h.toCoherent hsync
    have hend : ∀ fs₂ : FATFS, fs₂.wflag = false → (fs.drv.faults = [] → fs₂.drv.faults = []) →
        (fs₂.winsect = fs.winsect ∨ fs₂.winsect < fs.database) →
        (if fs₂.drv.diskSync.1 then .FR_OK else .FR_DISK_ERR, { fs₂ with drv := fs₂.drv.diskSync.2 }) = (res, fs') →
        (res = .FR_OK ∧ fs'.wflag = false ∨ res = .FR_DISK_ERR ∧ fs.drv.faults ≠ []) ∧
          (fs'.winsect = fs.winsect ∨ fs'.winsect < fs.database) := by
      intro fs₂ hw₂ hf₂ hwin₂ heq
      obtain ⟨hr, rfl⟩ := Prod.mk.inj heq
      refine ⟨?_, hwin₂⟩
      cases hd : fs₂.drv.diskSync.1
      · refine .inr ⟨by rw [← hr, hd]; rfl, fun hnil => ?_⟩
        simp [Drive.diskSync, hf₂ hnil, Transfer.isFailed] at hd
      · exact .inl ⟨by rw [← hr, hd]; rfl, hw₂⟩
    by_cases hfsi : fs₁.fsType = .FS_FAT32 ∧ fs₁.fsiFlag = 1
    · simp only [hfsi, and_self, if_true] at hres
      have hfat := hshow.valid.placed.fsinfo hfsi.1
      have hdb := hshow.valid.placed.fat
      refine hend { fs₁ with win := fs₁.fsinfo, winsect := fs₁.volbase + 1, fsiFlag := 0,
                             drv := (fs₁.drv.diskWrite (load fs₁.fsinfo 0 512) (fs₁.volbase + 1)).2 }
        hw (fun hnil => (fs₁.drv.later_diskWrite _ _).nil (hshow.faults hnil)) (.inr ?_) hres
      · rw [hshow.vol] at hfat hdb
        dsimp only
        rw [hshow.vol]
        omega
    · simp only [hfsi, if_false] at hres
      exact hend fs₁ hw hshow.faults (.inl hwin) hres
  · obtain ⟨rfl, rfl⟩ := Prod.mk.inj hres
    exact ⟨.inr ⟨rfl, hf.ne_nil⟩, .inl hwin⟩

end FATFS

namespace OpenFile

variable {F : Prop} {f f' : OpenFile} {fs' : FATFS} {l : List ℕ} {lost others : List (List ℕ)}

/-- The volume with the directory entry of the file in the window. -/
def withEntry (f : OpenFile) : FATFS := f.fs.withWin (updateEntry f.fp f.fs.win)

theorem Safe.withEntry (h : f.Safe l lost others) (hw : f.fs.winsect = f.fp.dirSect) :
    (⟨f.withEntry, f.fp⟩ : OpenFile).Safe l lost others ∧ f.Frame ⟨f.withEntry, f.fp⟩ others := by
  have hent := h.entry
  have hfat : f.withEntry.fat = f.fs.fat := FATFS.fat_withWin h.alloc.valid (by rw [hw]; exact hent.fat)
  have hlinks : f.withEntry.links = f.fs.links := FATFS.links_congr rfl hfat
  refine ⟨⟨⟨h.alloc.valid.dirty _, hlinks ▸ h.alloc.chains⟩, h.sized, h.whole, h.window, h.entry, h.dsect⟩,
    rfl, ⟨rfl, rfl⟩, ⟨rfl, rfl⟩, id, fun _ hm => hm.dirty _, fun a _ _ _ hne => ?_⟩
  refine FATFS.seen_withWin.trans ?_
  split_ifs with ha
  · have hroom := hent.room
    unfold InEntry at hne
    rw [FATFS.seen_of_eq ha]
    exact updateEntry_outside (by omega)
  · rfl

/-- What is seen of the entry. -/
theorem seen_withEntry (hw : f.fs.winsect = f.fp.dirSect) {i : ℕ} (hi : i < 512) :
    f.withEntry.seen (512 * f.fp.dirSect + i) = updateEntry f.fp f.fs.win i := by
  refine FATFS.seen_withWin.trans ?_
  rw [if_pos (by omega), show (512 * f.fp.dirSect + i) % 512 = i by omega]

/-! ## The drive -/

/-- What is on the drive of the file: its directory entry, and the FAT. -/
structure Stored (f : OpenFile) : Prop where
  clean : f.fs.wflag = false
  size : ldDword f.fs.drv.bytes (512 * f.fp.dirSect + f.fp.dirPtr + 28) = f.fp.fsize % 2 ^ 32
  first : f.fp.sclust < f.fs.entryBound →
    ldClust f.fs.toVolume f.fs.drv.bytes (512 * f.fp.dirSect + f.fp.dirPtr) = f.fp.sclust

theorem ldClust_congr {v : Volume} {p q : ℕ → UInt8} {a b : ℕ} (h : ∀ i < 32, p (a + i) = q (b + i)) :
    ldClust v p a = ldClust v q b := by
  unfold ldClust
  rw [ldWord_congr (a := a + 26) (b := b + 26) fun i hi => ?_, ldWord_congr (a := a + 20) (b := b + 20) fun i hi => ?_]
  · rw [Nat.add_assoc, Nat.add_assoc]
    exact h _ (by omega)
  · rw [Nat.add_assoc, Nat.add_assoc]
    exact h _ (by omega)

/-! ## The call -/

/-- The fields that say where the file pointer is. -/
theorem Ready.of_same (h : f.Ready l)
    (hfp : f'.fp = { f.fp with written := f'.fp.written, dirty := f'.fp.dirty }) (hvol : f'.fs.toVolume = f.fs.toVolume) :
    f'.Ready l := by
  obtain ⟨⟨hfirst, hclust, hsect⟩, hle, hlt⟩ := h
  obtain ⟨fs', fp'⟩ := f'
  dsimp only at hfp hvol
  rw [hfp]
  refine ⟨⟨hfirst, ?_, ?_⟩, hle, hlt⟩ <;> · dsimp only; rwa [hvol]

theorem Meets.leave {α : Type} {Q : α → OpenFile → List ℕ → List (List ℕ) → Prop} {res : FRESULT}
    (h : f.Safe l lost others) (hF : F) (hr : f.fp.err = .FR_OK → f.Ready l) :
    Meets F (Code.leave res) f lost others Q := ⟨.error res, f, rfl, hF, l, lost, h, Frame.refl f others, hr⟩

/-- A step of the volume that the file does not see. -/
structure Aside (f f' : OpenFile) (l : List ℕ) : Prop where
  fp : f'.fp = f.fp
  vol : f'.fs.toVolume = f.fs.toVolume
  exact : ∀ n v, f.Exact l n v → f'.Exact l n v
  bytes : ∀ a, f.fs.Plain (a / 512) → f'.fs.seen a = f.fs.seen a

theorem shows_meets {α : Type} {g : FATFS → α × FATFS} {r : α} (h : f.Safe l lost others) (hg : g f.fs = (r, fs'))
    (hshow : f.fs.Shows fs') (hwin : f.fs.Apart others fs'.winsect) :
    Meets F (onVolume g) f lost others fun a f' l' lost' => l' = l ∧ lost' = lost ∧ a = r ∧ f'.fs = fs' ∧ Aside f f' l := by
  obtain ⟨hs, hframe, hbytes⟩ := h.move hshow.keeps hwin (h.alloc.of_shows hshow) fun _ => id
  exact .of_eq (onVolume_apply hg) hs hframe ⟨rfl, rfl, rfl, rfl, rfl, hshow.vol,
    fun n v he => he.move h hshow.vol hbytes List.prefix_rfl, hshow.seen⟩

theorem moveWindow_meets (h : f.Safe l lost others) (hF : f.fs.drv.faults ≠ [] → F) :
    Meets F (onVolume fun fs => fs.moveWindow f.fp.dirSect) f lost others fun res f' l' lost' =>
      l' = l ∧ lost' = lost ∧ Aside f f' l ∧ (res = .FR_OK ∧ f'.fs.winsect = f.fp.dirSect ∨ res ≠ .FR_OK ∧ F) := by
  have hent := h.entry
  rcases hmove : f.fs.moveWindow f.fp.dirSect with ⟨res, fs'⟩
  obtain ⟨hshow, hres⟩ := FATFS.moveWindow_shows h.alloc.valid hent.plain.1 hent.lt hmove
  have hwin : f.fs.Apart others fs'.winsect := by
    have hw := f.fs.winsect_moveWindow f.fp.dirSect
    rw [hmove] at hw
    obtain hw | hw := hw
    · rw [hw]
      exact h.window
    · rw [hw]
      exact hent.apart
  refine (shows_meets h hmove hshow hwin).mono fun a f' l' lost' _ _ hq => ?_
  obtain ⟨rfl, rfl, rfl, rfl, haside⟩ := hq
  refine ⟨rfl, rfl, haside, hres.imp_right fun hr => ⟨fun heq => ?_, hF hr.2.ne_nil⟩⟩
  rw [hr.1] at heq
  cases heq

theorem syncFs_meets (h : f.Safe l lost others) (hF : f.fs.drv.faults ≠ [] → F) :
    Meets F (onVolume FATFS.syncFs) f lost others fun res f' l' lost' =>
      l' = l ∧ lost' = lost ∧ Aside f f' l ∧ (res = .FR_OK ∧ f'.fs.wflag = false ∨ res ≠ .FR_OK ∧ F) := by
  rcases hsync : f.fs.syncFs with ⟨res, fs'⟩
  have hshow := FATFS.syncFs_shows h.alloc.valid hsync
  obtain ⟨hres, hw⟩ := FATFS.syncFs_cases h.alloc.valid hsync
  have hwin : f.fs.Apart others fs'.winsect := by
    obtain hw | hw := hw
    · rw [hw]
      exact h.window
    · exact .inl hw
  refine (shows_meets h hsync hshow hwin).mono fun a f' l' lost' _ _ hq => ?_
  obtain ⟨rfl, rfl, rfl, rfl, haside⟩ := hq
  refine ⟨rfl, rfl, haside, hres.imp_right fun hr => ⟨fun heq => ?_, hF hr.2⟩⟩
  rw [hr.1] at heq
  cases heq

/-- What is on the drive once the window was written back. -/
theorem stored_of_clean (f₀ : OpenFile) (h : f.Safe l lost others) (hw₀ : f₀.fs.winsect = f.fp.dirSect)
    (hclean : f.fs.wflag = false) (hfp : f.fp.dirSect = f₀.fp.dirSect ∧ f.fp.dirPtr = f₀.fp.dirPtr ∧
      f.fp.fsize = f₀.fp.fsize ∧ f.fp.sclust = f₀.fp.sclust)
    (hseen : ∀ a, f.fs.Plain (a / 512) → f.fs.seen a = f₀.withEntry.seen a) : f.Stored := by
  obtain ⟨hds, hdp, hfs, hsc⟩ := hfp
  have hent := h.entry
  have hbyte : ∀ i < 512, f.fs.drv.bytes (512 * f.fp.dirSect + i) = updateEntry f₀.fp f₀.fs.win i := by
    intro i hi
    have hsect : (512 * f.fp.dirSect + i) / 512 = f.fp.dirSect := by omega
    have hplain : f.fs.Plain ((512 * f.fp.dirSect + i) / 512) := by
      rw [hsect]
      exact hent.plain
    rw [← h.alloc.valid.toCoherent.seen_of_clean hclean hplain, hseen _ hplain, hds, seen_withEntry (hw₀.trans hds) hi]
  have hroom := hent.room
  refine ⟨hclean, ?_, fun hlt => ?_⟩
  · rw [hfs, ← show ldDword (updateEntry f₀.fp f₀.fs.win) _ = _ from ldDword_updateEntry]
    refine ldDword_congr fun i hi => ?_
    rw [← hdp, show 512 * f.fp.dirSect + f.fp.dirPtr + 28 + i = 512 * f.fp.dirSect + (f.fp.dirPtr + 28 + i) by omega]
    exact hbyte _ (by omega)
  · rw [hsc] at hlt ⊢
    rw [← show ldClust f.fs.toVolume (updateEntry f₀.fp f₀.fs.win) _ = _ from ldClust_updateEntry hlt]
    refine ldClust_congr fun i hi => ?_
    rw [← hdp, Nat.add_assoc]
    exact hbyte _ (by omega)

/-- What a call that succeeds has done. -/
structure Synced (f f' : OpenFile) (l : List ℕ) : Prop where
  fp : f'.fp = { f.fp with written := false, dirty := f'.fp.dirty }
  vol : f'.fs.toVolume = f.fs.toVolume
  exact : ∀ n v, f.Exact l n v → f'.Exact l n v
  stored : f.fp.written = true → f'.fp.dirty = false ∧ f'.Stored

/-- **Writing back.** If the call succeeds, the drive holds the file. It fails only if a transfer does, and then the
file is as it was. -/
theorem fSync_meets (h : f.Safe l lost others) (hF : f.fs.drv.faults ≠ [] → F) (hr : f.fp.err = .FR_OK → f.Ready l) :
    Meets F fSync f lost others fun _ f' l' lost' => l' = l ∧ lost' = lost ∧ Synced f f' l := by
  unfold fSync
  refine Meets.read_bind (Meets.ite (fun hw => ?_) fun hw => ?_)
  · refine (writeBack_meets h fun _ hf hs hvol => Meets.leave hs (hF hf) fun he => ?_).bind
      fun _ f₁ l₁ lost₁ hs₁ hframe₁ hq => ?_
    · exact (hr he).of_same rfl hvol
    obtain ⟨rfl, rfl, hflush⟩ := hq
    have hF₁ := hframe₁.fail hF
    have hr₁ : f₁.fp.err = .FR_OK → f₁.Ready l₁ := fun he =>
      (hr (by rw [hflush.fp] at he; exact he)).of_same (by rw [hflush.fp]) hflush.vol
    have hmove := moveWindow_meets hs₁ hF₁
    rw [hframe₁.entry.1] at hmove
    refine hmove.bind fun res f₂ l₂ lost₂ hs₂ hframe₂ hq => ?_
    obtain ⟨rfl, rfl, haside₂, hres₂⟩ := hq
    have hF₂ := hframe₂.fail hF₁
    have hr₂ : f₂.fp.err = .FR_OK → f₂.Ready l₂ := fun he =>
      (hr₁ (by rwa [haside₂.fp] at he)).of_same (by rw [haside₂.fp]) haside₂.vol
    refine Meets.ite (fun hne => Meets.leave hs₂ (hres₂.resolve_left fun hok => hne hok.1).2 hr₂) fun hok => ?_
    rw [not_not] at hok
    have hwin := (hres₂.resolve_right fun hne => hne.1 hok).2
    have hfp₂ : f₂.fp = { f.fp with dirty := false } := by rw [haside₂.fp, hflush.fp]
    have hds : f₂.fp.dirSect = f.fp.dirSect := by rw [hfp₂]
    have hupd : f₂.fs.withWin (updateEntry f.fp f₂.fs.win) = f₂.withEntry := by
      unfold OpenFile.withEntry
      rw [hfp₂]
      rfl
    obtain ⟨hs₃, hframe₃⟩ := hs₂.withEntry (by rw [hwin, hds, ← hframe₁.entry.1])
    refine Meets.bind (Q := fun _ f' l' lost' => l' = l₂ ∧ lost' = lost₂ ∧ f' = ⟨f₂.withEntry, f₂.fp⟩)
      (Meets.of_eq (onVolume_apply (congrArg (Prod.mk ()) hupd)) hs₃ hframe₃ ⟨rfl, rfl, rfl⟩)
      fun _ f₃ l₃ lost₃ hs₃ hframe₃ hq => ?_
    obtain ⟨rfl, rfl, rfl⟩ := hq
    refine Meets.setFil_bind hs₃ ⟨rfl, rfl⟩ ⟨rfl, rfl⟩ hs₃.dsect fun hs₄ => ?_
    refine (syncFs_meets hs₄ (hframe₃.fail hF₂)).bind fun res f₅ l₅ lost₅ hs₅ hframe₅ hq => ?_
    obtain ⟨rfl, rfl, haside₅, hres₅⟩ := hq
    have hfp₅ : f₅.fp = { f.fp with written := false, dirty := false } := by rw [haside₅.fp, hfp₂]
    have hvol₅ : f₅.fs.toVolume = f₂.fs.toVolume := haside₅.vol
    refine Meets.ite (fun hne => ?_) fun hok₅ => ?_
    · refine Meets.leave hs₅ (hres₅.resolve_left fun hok => hne hok.1).2 fun he => (hr₂ ?_).of_same ?_ hvol₅
      · rwa [hfp₅, ← show f₂.fp.err = f.fp.err by rw [hfp₂]] at he
      · rw [hfp₅, hfp₂]
    · rw [not_not] at hok₅
      have hclean := (hres₅.resolve_right fun hne => hne.1 hok₅).2
      refine Meets.pure hs₅ ⟨rfl, rfl, by rw [hfp₅], hvol₅.trans (haside₂.vol.trans hflush.vol), fun n v he => ?_,
        fun _ => ⟨by rw [hfp₅], ?_⟩⟩
      · obtain ⟨hroom, hbytes, hcl⟩ := haside₂.exact n v (he.flushed hflush)
        exact haside₅.exact n v ⟨hroom, hbytes, hcl⟩
      · refine stored_of_clean f₂ hs₅ (by rw [hwin, hfp₅, ← hframe₁.entry.1]) hclean ?_ fun a ha => ?_
        · rw [hfp₅, hfp₂]
          exact ⟨rfl, rfl, rfl, rfl⟩
        · rw [hvol₅] at ha
          exact haside₅.bytes a ha
  · exact Meets.pure h ⟨rfl, rfl, by rw [← (show f.fp.written = false by simpa using hw)], rfl, fun _ _ => id,
      fun hw' => absurd hw' hw⟩

end OpenFile

end Miosix
