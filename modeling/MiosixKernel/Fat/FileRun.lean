import MiosixKernel.Fat.FileSync
import MiosixKernel.Lib.ByteFile
import MiosixKernel.Lib.Calls

/-!
# Runs of an open file

The kernel writes, reads, moves the file pointer and synchronizes, in any order.

* `FileCall.exec`: a call; `FileSpec.exec`: what it is for, with the file as a list of bytes;
* **`serve_file`**: without a failing transfer every sequence of calls is answered as for the list;
* **`serve_file_stored`**: after each write the drive holds the list, in the directory entry, the FAT and the clusters;
* **`reopen_holds`**: the file is the same list once it was opened again;
* **`serve_file_frame`**: whichever transfers fail, no other file is changed.
-/

namespace Miosix

open Lib Volume

/-! ## The calls -/

inductive FileCall where
  | write (data : List UInt8) (lt : data.length < 2 ^ 32)
  | read (len : ℕ)
  | lseek (pos : ℤ) (whence : Whence)
  | sync

/-- The bytes that were read, and the result, or an error. -/
abbrev FileReply : Type := Except ℤ (List UInt8 × ℤ)

def FileCall.exec : FileCall → Code OpenFile ℤ (List UInt8 × ℤ)
  | .write data _ => do
    let n ← Fat32File.write data
    pure ([], n)
  | .read len => Fat32File.read len
  | .lseek pos whence => do
    let n ← Fat32File.lseek pos whence
    pure ([], n)
  | .sync => do
    Fat32File.sync
    pure ([], 0)

/-! ## What they are for -/

/-- A file with at most `cap` bytes. -/
structure FileSpec extends ByteFile UInt8 where
  cap : ℕ
  canRead : Bool
  canWrite : Bool

namespace FileSpec

/-- How many of the bytes are written: as many as there is room for, and none if the file would reach 4 GB. -/
def room (b : FileSpec) (n : ℕ) : ℕ := if b.pos + n < 2 ^ 32 then min n (b.cap - b.pos) else 0

/-- Where the position is moved. -/
def target (b : FileSpec) (pos : ℤ) : Whence → Option ℤ
  | .SEEK_CUR => some (b.pos + pos)
  | .SEEK_SET => some pos
  | .SEEK_END => some (b.bytes.length + pos)
  | .other => none

def exec (b : FileSpec) : FileCall → FileReply × FileSpec
  | .write data _ =>
    if b.canWrite then
      (.ok ([], Fat32File.toInt (b.room data.length)),
        { b with toByteFile := b.toByteFile.write (data.take (b.room data.length)) })
    else (.error (-ENOSPC), b)
  | .read len =>
    if b.canRead then
      (.ok (b.toByteFile.read len, Fat32File.toInt (b.toByteFile.read len).length),
        { b with toByteFile := b.toByteFile.seek (b.pos + (b.toByteFile.read len).length) })
    else (.error (-ENOSPC), b)
  | .lseek pos whence =>
    match b.target pos whence with
    | some offset =>
      if offset < 0 ∨ b.bytes.length < offset then (.error (-EOVERFLOW), b)
      else (.ok ([], offset), { b with toByteFile := b.toByteFile.seek offset.toNat })
    | none => (.error (-EINVAL), b)
  | .sync => (.ok ([], 0), b)

/-- The list of bytes after these calls. -/
def after (b : FileSpec) (calls : List FileCall) : FileSpec := (answers (fun call b => b.exec call) calls b).2

theorem canWrite_exec (b : FileSpec) (call : FileCall) : (b.exec call).2.canWrite = b.canWrite := by
  cases call with
  | write data hlt => simp only [FileSpec.exec]; split_ifs <;> rfl
  | read len => simp only [FileSpec.exec]; split_ifs <;> rfl
  | lseek pos whence =>
    simp only [FileSpec.exec]
    split
    · split_ifs <;> rfl
    · rfl
  | sync => rfl

/-- The file was opened again. -/
def opened (b : FileSpec) (canRead canWrite : Bool) : FileSpec where
  bytes := b.bytes
  pos := 0
  le := Nat.zero_le _
  cap := b.cap
  canRead := canRead
  canWrite := canWrite

/-- The byte at an offset. -/
def byte (b : FileSpec) (o : ℕ) : UInt8 := b.bytes.getD o 0

end FileSpec

/-- An entry of the FAT on the drive. -/
theorem FATFS.entry_drive {fs : FATFS} (h : fs.Valid) (hw : fs.wflag = false) {c : ℕ} (hc : 2 ≤ c) (hlt : c < fs.nFatent) :
    fs.entry fs.drv.bytes c = fs.fat c := by
  rw [FATFS.fat_eq hc hlt]
  exact Volume.entry_congr h.placed hlt fun x hge hx =>
    (h.seen_of_clean hw (FATFS.plain_of_fat h.placed hge hx).1).symm

namespace OpenFile

variable {f f' : OpenFile} {b : FileSpec} {l l' : List ℕ} {lost lost' others : List (List ℕ)} {n : ℕ} {v w : ℕ → UInt8}

/-- The clusters that the file can have. -/
def most (f : OpenFile) (lost others : List (List ℕ)) : ℕ :=
  f.fs.nFatent - 2 - (lost.flatten.length + others.flatten.length)

/-- The open file is this list of bytes, and no transfer will fail. -/
structure Holding (f : OpenFile) (l : List ℕ) (lost others : List (List ℕ)) (b : FileSpec) : Prop where
  safe : f.Safe l lost others
  ready : f.Ready l
  err : f.fp.err = .FR_OK
  faults : f.fs.drv.faults = []
  mirrored : f.fs.Mirrored
  exact : f.Exact l b.bytes.length b.byte
  size : f.fp.fsize = b.bytes.length
  pos : f.fp.fptr = b.pos
  cap : b.cap = f.fs.bcs * f.most lost others
  mode : f.fp.canRead = b.canRead ∧ f.fp.canWrite = b.canWrite

def Holds (others : List (List ℕ)) (f : OpenFile) (b : FileSpec) : Prop := ∃ l lost, f.Holding l lost others b

/-! ## Clusters that are left -/

theorem Safe.length_le (h : f.Safe l lost others) : l.length ≤ f.most lost others := by
  have hn := h.sized.placed.clusters
  have hlen := FATFS.length_of_nodup (by omega) h.nodup fun c hc => h.mem_range hc
  rw [List.length_append, List.length_append] at hlen
  unfold most
  omega

theorem Full.length_eq (hfull : f.Full l lost others) (h : f.Safe l lost others) : l.length = f.most lost others := by
  have hle := h.length_le
  have hsub : List.range' 2 (f.fs.nFatent - 2) ⊆ l ++ lost.flatten ++ others.flatten := fun c hc => by
    rw [List.mem_range'_1] at hc
    exact hfull c hc.1 (by omega)
  have hlen := ((List.nodup_range' 1).subperm hsub).length_le
  rw [List.length_range', List.length_append, List.length_append] at hlen
  unfold most at *
  omega

theorem Exact.congr (h : f.Exact l n v) (heq : ∀ o < n, v o = w o) : f.Exact l n w :=
  ⟨h.room, fun o ho => (h.bytes o ho).trans (heq o ho), h.clean⟩

/-- Without a failing transfer, the code returns. -/
theorem Meets.result {α : Type} {m : FileCode α} {Q : α → OpenFile → List ℕ → List (List ℕ) → Prop}
    (h : Meets False m f lost others Q) : ∃ a f' l' lost', m f = some (.ok a, f') ∧ f'.Safe l' lost' others ∧
      f.Frame f' others ∧ (f.fs.drv.faults = [] → lost'.flatten = lost.flatten) ∧ Q a f' l' lost' := by
  obtain ⟨r, f', hm, hp⟩ := h
  cases r with
  | ok a =>
    obtain ⟨l', lost', hs, hframe, hkept, hq⟩ := hp
    exact ⟨a, f', l', lost', hm, hs, hframe, hkept, hq⟩
  | error e => exact hp.1.elim

theorem Holding.not_failing (h : f.Holding l lost others b) : f.fs.drv.faults ≠ [] → False := fun hne => hne h.faults

theorem most_eq (hvol : f'.fs.toVolume = f.fs.toVolume) (hkept : lost'.flatten = lost.flatten) :
    f'.fs.bcs * f'.most lost' others = f.fs.bcs * f.most lost others := by
  unfold most
  rw [hvol, hkept]

/-! ## Each call -/

section Answering

variable {α : Type} {g : FRESULT → ℤ} {m : FileCode α} {a : α} {e : FRESULT}

theorem answering_ok (h : m f = some (.ok a, f')) : Fat32File.answering g m f = some (.ok a, f') := by
  rw [Fat32File.answering, h]
  rfl

theorem answering_error (h : m f = some (.error e, f')) : Fat32File.answering g m f = some (.error (g e), f') := by
  rw [Fat32File.answering, h]
  rfl

end Answering

/-- As much is written as there is room for. -/
theorem room_eq {data : List UInt8} (h : f.Holding l lost others b) (hle : n ≤ f.bytesToWrite data)
    (hfit : b.pos + n ≤ b.cap) (hstop : n < f.bytesToWrite data → b.pos + n = b.cap) : n = b.room data.length := by
  unfold bytesToWrite at hle hstop
  rw [h.pos] at hle hstop
  unfold FileSpec.room
  split_ifs at hle hstop ⊢ with hlt <;> omega

theorem write_byte {data : List UInt8} {o : ℕ} :
    store b.byte b.pos data o = (b.toByteFile.write data).bytes.getD o 0 := ByteFile.getD_write.symm

/-- What a write leaves on the drive. -/
def Written (f : OpenFile) : Prop := f.fp.dirty = false ∧ f.Stored

/-- The state after a call that kept the volume. -/
theorem Holding.of_step {b' : FileSpec} (h : f.Holding l lost others b) (hs : f'.Safe l' lost' others)
    (hframe : f.Frame f' others) (hkept : f.fs.drv.faults = [] → lost'.flatten = lost.flatten)
    (hl : f'.Located l') (herr : f'.fp.err = .FR_OK) (hexact : f'.Exact l' b'.bytes.length b'.byte)
    (hsize : f'.fp.fsize = b'.bytes.length) (hpos : f'.fp.fptr = b'.pos) (hlt : b'.bytes.length < 2 ^ 32)
    (hcap : b'.cap = b.cap) (hmode : b'.canRead = b.canRead ∧ b'.canWrite = b.canWrite) :
    f'.Holding l' lost' others b' where
  safe := hs
  ready := ⟨hl, by rw [hsize, hpos]; exact b'.le, by rwa [hsize]⟩
  err := herr
  faults := hframe.faults h.faults
  mirrored := hframe.mirrored h.faults h.mirrored
  exact := hexact
  size := hsize
  pos := hpos
  cap := by rw [hcap, h.cap, most_eq hframe.vol (hkept h.faults)]
  mode := ⟨hframe.mode.1.trans (h.mode.1.trans hmode.1.symm), hframe.mode.2.trans (h.mode.2.trans hmode.2.symm)⟩

theorem Holding.write (h : f.Holding l lost others b) (data : List UInt8) (hlt : data.length < 2 ^ 32) :
    ∃ f' l' lost', FileCall.exec (.write data hlt) f = some ((b.exec (.write data hlt)).1, f') ∧
      f'.Holding l' lost' others (b.exec (.write data hlt)).2 ∧ f.Frame f' others ∧
        (b.canWrite = true → f'.Written) := by
  cases hmode : b.canWrite
  · have hdenied : fWrite data f = some (.error .FR_DENIED, f) := by
      unfold fWrite
      rw [Code.bind_ok (show Code.read f = some (.ok f, f) from rfl), if_neg (by simp [h.err]),
        if_pos (by simp [h.mode.2, hmode])]
      rfl
    refine ⟨f, l, lost, ?_, ?_, Frame.refl f others, fun hc => (by cases hc)⟩
    · simp only [FileCall.exec, FileSpec.exec, hmode]
      exact Code.bind_error (Code.bind_error (answering_error hdenied))
    · simp only [FileSpec.exec, hmode]
      exact h
  · have hptr := h.ready.le
    have hsize := h.ready.lt
    obtain ⟨n, f₁, l₁, lost₁, hres, hs₁, hframe₁, hkept₁, hn, hl₁, hptr₁, hsize₁, hwritten, herr₁, hstop, hexact⟩ :=
      (fWrite_meets (F := False) h.safe h.not_failing h.ready.located h.err (by rw [h.mode.2, hmode]) (by omega)
        hlt).result
    have hx := hexact h.faults hptr b.byte (by rw [h.size]; exact h.exact)
    have hfaults₁ := hframe₁.faults h.faults
    have hcap : f₁.fs.bcs * f₁.most lost₁ others = b.cap := (most_eq hframe₁.vol (hkept₁ h.faults)).trans h.cap.symm
    obtain rfl : n = b.room data.length := by
      refine room_eq h hn ?_ fun hlt => ?_
      · have hle := Nat.mul_le_mul_left f₁.fs.bcs hs₁.length_le
        have hroom := hx.room
        have := h.pos
        omega
      · obtain ⟨hfull, hlast⟩ := hstop hlt
        rw [← h.pos, ← hptr₁, ← hcap, ← hfull.length_eq hs₁]
        exact hlast.resolve_left id
    generalize hk : b.room data.length = n at *
    have hle : n ≤ data.length := hn.trans (by unfold bytesToWrite; split_ifs <;> omega)
    have hlen : (data.take n).length = n := List.length_take_of_le hle
    have hlt₁ : f₁.fp.fsize < 2 ^ 32 := by
      unfold bytesToWrite at hn
      split_ifs at hn <;> omega
    have hr₁ : f₁.Ready l₁ := ⟨hl₁, by omega, hlt₁⟩
    obtain ⟨_, f₂, l₂, lost₂, hsync, hs₂, hframe₂, hkept₂, rfl, rfl, hsynced⟩ :=
      (fSync_meets (F := False) hs₁ (fun hne => hne hfaults₁) fun _ => hr₁).result
    have hbytes : (b.toByteFile.write (data.take n)).bytes.length = f₁.fp.fsize := by
      rw [ByteFile.length_write, hlen, hsize₁, h.size, h.pos]
    refine ⟨f₂, l₂, lost₂, ?_, ?_, hframe₁.trans hframe₂, fun _ => hsynced.stored hwritten⟩
    · simp only [FileCall.exec, FileSpec.exec, hmode, if_true, hk]
      exact Code.bind_ok ((Code.bind_ok (answering_ok hres)).trans (Code.bind_ok (answering_ok hsync)))
    · simp only [FileSpec.exec, hmode, if_true, hk]
      refine h.of_step hs₂ (hframe₁.trans hframe₂) hkept₁ (hr₁.of_same (by rw [hsynced.fp]) hsynced.vol).located
        (by rw [hsynced.fp]; exact herr₁) (hsynced.exact _ _ ?_) (by rw [hsynced.fp]; exact hbytes.symm)
        (by rw [hsynced.fp]; exact hptr₁.trans (by rw [h.pos]; exact congrArg (b.pos + ·) hlen.symm))
        (by rwa [hbytes]) rfl ⟨rfl, hmode.symm⟩
      dsimp only
      rw [hbytes]
      rw [h.pos] at hx
      exact hx.congr fun o _ => write_byte

theorem Holding.lt (h : f.Holding l lost others b) : b.bytes.length < 2 ^ 32 := by
  rw [← h.size]
  exact h.ready.lt

theorem Holding.room (h : f.Holding l lost others b) : f.fp.fsize ≤ f.fs.bcs * l.length ∨ False := by
  rw [h.size]
  exact .inl h.exact.room

theorem load_byte {p k : ℕ} (hle : p + k ≤ b.bytes.length) : load b.byte p k = (b.bytes.drop p).take k := by
  refine List.ext_getElem ?_ fun i hi hi' => ?_
  · rw [length_load, List.length_take, List.length_drop]
    omega
  · rw [length_load] at hi
    simp only [load, List.getElem_take, List.getElem_drop, List.getElem_map, List.getElem_range]
    exact List.getD_eq_getElem _ _ (by omega)

theorem Holding.read (h : f.Holding l lost others b) (len : ℕ) :
    ∃ f' l' lost', FileCall.exec (.read len) f = some ((b.exec (.read len)).1, f') ∧
      f'.Holding l' lost' others (b.exec (.read len)).2 ∧ f.Frame f' others := by
  cases hmode : b.canRead
  · have hdenied : fRead len f = some (.error .FR_DENIED, f) := by
      unfold fRead
      rw [Code.bind_ok (show Code.read f = some (.ok f, f) from rfl), if_neg (by simp [h.err]),
        if_pos (by simp [h.mode.1, hmode])]
      rfl
    refine ⟨f, l, lost, ?_, ?_, Frame.refl f others⟩
    · simp only [FileCall.exec, FileSpec.exec, hmode]
      exact Code.bind_error (answering_error hdenied)
    · simp only [FileSpec.exec, hmode]
      exact h
  · obtain ⟨bytes, f', l', lost', hres, hs, hframe, hkept, rfl, rfl, hread⟩ :=
      (fRead_meets (F := False) len h.safe h.not_failing h.ready.located h.err (by rw [h.mode.1, hmode]) h.ready.le
        h.room).result
    obtain ⟨he, hbytes⟩ := hread.exact _ _ h.exact
    have hfp := hread.fp
    have hlen := hread.length
    have hle := b.le
    rw [h.size, h.pos] at hlen hbytes
    have hb : bytes = b.toByteFile.read len := by
      rw [hbytes (by omega), load_byte (by omega), ByteFile.read, List.take_eq_take_min (i := len), List.length_drop]
    have hpos : b.pos + bytes.length ≤ b.bytes.length := by omega
    refine ⟨f', l', lost', ?_, ?_, hframe⟩
    · simp only [FileCall.exec, FileSpec.exec, hmode, if_true, ← hb]
      exact Code.bind_ok (answering_ok hres)
    · simp only [FileSpec.exec, hmode, if_true, ← hb]
      refine h.of_step hs hframe hkept hread.located (by rw [hfp]; exact h.err) he (by rw [hfp]; exact h.size) ?_
        h.lt rfl ⟨hmode.symm, rfl⟩
      rw [hfp]
      dsimp only [ByteFile.seek]
      rw [h.pos, h.size, Nat.min_eq_left hpos, hlen]

theorem Holding.seek (h : f.Holding l lost others b) {n : ℕ} (hn : n ≤ b.bytes.length) :
    ∃ f' l' lost', fLseek n f = some (.ok (), f') ∧
      f'.Holding l' lost' others { b with toByteFile := b.toByteFile.seek n } ∧ f.Frame f' others := by
  obtain ⟨_, f', l', lost', hres, hs, hframe, hkept, hmoved⟩ :=
    (fLseek_meets (F := False) h.safe h.not_failing h.ready.located h.err h.ready.le h.ready.lt
      (show n ≤ f.fp.fsize by rwa [h.size]) h.room).result
  refine ⟨f', l', lost', hres, h.of_step hs hframe hkept hmoved.located (hmoved.fields.2.2.trans h.err)
    (hmoved.exact h.faults _ _ h.exact) (hmoved.fields.1.trans h.size) ?_ h.lt rfl
    ⟨rfl, rfl⟩, hframe⟩
  exact (hmoved.eq.resolve_right id).trans (Nat.min_eq_left hn).symm

theorem Holding.lseek (h : f.Holding l lost others b) (pos : ℤ) (whence : Whence) :
    ∃ f' l' lost', FileCall.exec (.lseek pos whence) f = some ((b.exec (.lseek pos whence)).1, f') ∧
      f'.Holding l' lost' others (b.exec (.lseek pos whence)).2 ∧ f.Frame f' others := by
  cases ht : b.target pos whence with
  | none =>
    obtain rfl : whence = .other := by cases whence <;> simp [FileSpec.target] at ht ⊢
    exact ⟨f, l, lost, rfl, h, Frame.refl f others⟩
  | some offset =>
    have hcall : FileCall.exec (.lseek pos whence) f = (do
        let n ← (if offset < 0 ∨ f.fp.fsize < offset then Code.leave (-EOVERFLOW) else do
          Fat32File.answering translateError (fLseek offset.toNat)
          pure offset : Code OpenFile ℤ ℤ)
        pure ([], n)) f := by
      have hpos := h.pos
      have hsize := h.size
      cases whence <;> simp only [FileSpec.target, Option.some.injEq, reduceCtorEq] at ht <;> subst ht <;>
        simp only [FileCall.exec, Fat32File.lseek, ← hpos, ← hsize] <;> rfl
    rw [hcall]
    simp only [FileSpec.exec, ht, h.size]
    by_cases hout : offset < 0 ∨ b.bytes.length < offset
    · rw [if_pos hout, if_pos hout]
      exact ⟨f, l, lost, rfl, h, Frame.refl f others⟩
    · rw [if_neg hout, if_neg hout]
      obtain ⟨f', l', lost', hres, hh⟩ := h.seek (show offset.toNat ≤ b.bytes.length by omega)
      exact ⟨f', l', lost', Code.bind_ok (Code.bind_ok (answering_ok hres)), hh⟩

theorem Holding.sync (h : f.Holding l lost others b) :
    ∃ f' l' lost', FileCall.exec .sync f = some ((b.exec .sync).1, f') ∧
      f'.Holding l' lost' others (b.exec .sync).2 ∧ f.Frame f' others := by
  obtain ⟨_, f', l', lost', hres, hs, hframe, hkept, rfl, rfl, hsynced⟩ :=
    (fSync_meets (F := False) h.safe h.not_failing fun _ => h.ready).result
  refine ⟨f', l', lost', Code.bind_ok (answering_ok hres), ?_⟩
  exact ⟨h.of_step hs hframe hkept (h.ready.of_same (by rw [hsynced.fp]) hsynced.vol).located
    (by rw [hsynced.fp]; exact h.err) (hsynced.exact _ _ h.exact) (by rw [hsynced.fp]; exact h.size)
    (by rw [hsynced.fp]; exact h.pos) h.lt rfl ⟨rfl, rfl⟩, hframe⟩

/-! ## Runs without a failing transfer -/

theorem Holds.exec (call : FileCall) (h : Holds others f b) :
    ∃ f', call.exec f = some ((b.exec call).1, f') ∧ Holds others f' (b.exec call).2 ∧ f.Frame f' others := by
  obtain ⟨l, lost, h⟩ := h
  cases call with
  | write data hlt =>
    obtain ⟨f', l', lost', hres, hh, hframe, -⟩ := h.write data hlt
    exact ⟨f', hres, ⟨l', lost', hh⟩, hframe⟩
  | read len =>
    obtain ⟨f', l', lost', hres, hh, hframe⟩ := h.read len
    exact ⟨f', hres, ⟨l', lost', hh⟩, hframe⟩
  | lseek pos whence =>
    obtain ⟨f', l', lost', hres, hh, hframe⟩ := h.lseek pos whence
    exact ⟨f', hres, ⟨l', lost', hh⟩, hframe⟩
  | sync =>
    obtain ⟨f', l', lost', hres, hh, hframe⟩ := h.sync
    exact ⟨f', hres, ⟨l', lost', hh⟩, hframe⟩

theorem serve_run (calls : List FileCall) (h : Holds others f b) :
    ∃ f', serve FileCall.exec calls f = some ((answers (fun call b => b.exec call) calls b).1, f') ∧
      Holds others f' (b.after calls) ∧ f.Frame f' others ∧ (b.after calls).canWrite = b.canWrite := by
  refine serve_refines (R := fun f' b' => Holds others f' b' ∧ f.Frame f' others ∧ b'.canWrite = b.canWrite) ?_ calls
    ⟨h, Frame.refl f others, rfl⟩
  rintro call f₁ b₁ ⟨h₁, hframe₁, hmode⟩
  obtain ⟨f', hres, hh, hframe⟩ := h₁.exec call
  exact ⟨f', hres, hh, hframe₁.trans hframe, (FileSpec.canWrite_exec b₁ call).trans hmode⟩

/-- **The open file is a list of bytes.** Without a failing transfer every sequence of calls returns, and is answered as
for the list. -/
theorem serve_file (calls : List FileCall) (h : Holds others f b) :
    ∃ f', serve FileCall.exec calls f = some ((answers (fun call b => b.exec call) calls b).1, f') ∧
      Holds others f' (b.after calls) := by
  obtain ⟨f', hres, hh, -, -⟩ := serve_run calls h
  exact ⟨f', hres, hh⟩

/-- An empty file on a drive of zeros, with its directory entry in the root directory. -/
def blankFile : OpenFile where
  fs := FATFS.blank FATFS.smallVolume
  fp := { canRead := true, canWrite := true, written := false, dirty := false, err := .FR_OK, fptr := 0, fsize := 0,
          sclust := 0, clust := 0, dsect := 0, dirSect := 3, dirPtr := 0, buf := fun _ => 0 }

/-- The empty list, with room for four clusters. -/
def blankSpec : FileSpec := ⟨⟨[], 0, Nat.le_refl 0⟩, 2048, true, true⟩

theorem blankFile_safe : blankFile.Safe [] [] [] where
  alloc := ⟨FATFS.blank_valid FATFS.smallVolume_placed (by decide),
    (FATFS.blank_allocated FATFS.smallVolume_placed (by decide)).chains.nil⟩
  sized := ⟨FATFS.smallVolume_placed, ⟨0, by decide, rfl⟩, by decide⟩
  whole := .inr rfl
  window := .inl (by decide)
  entry := ⟨⟨fun h => absurd h.2 (by decide), by decide⟩, fun h => absurd h.2 (by decide), .inl (by decide), by decide,
    by decide⟩
  dsect := .inl ⟨rfl, rfl⟩

theorem blankFile_ready : blankFile.Ready [] :=
  ⟨⟨rfl, fun h => absurd h (by decide), fun h => absurd rfl h⟩, Nat.le_refl 0, by decide⟩

theorem blankFile_holds : Holds [] blankFile blankSpec :=
  ⟨[], [], blankFile_safe, blankFile_ready, rfl, rfl, fun _ _ _ _ _ _ => rfl,
    ⟨Nat.zero_le _, fun _ h => absurd h (Nat.not_lt_zero _), fun _ h => absurd rfl h⟩, rfl, rfl, rfl, rfl, rfl⟩

theorem serve_file_blank : ∃ f', serve FileCall.exec [.write [1, 2, 3] (by decide), .lseek (-2) .SEEK_END, .read 5]
    blankFile = some ([.ok ([], 3), .ok ([], 1), .ok ([2, 3], 2)], f') ∧
      Holds [] f' ⟨⟨[1, 2, 3], 3, Nat.le_refl 3⟩, 2048, true, true⟩ :=
  serve_file [.write [1, 2, 3] (by decide), .lseek (-2) .SEEK_END, .read 5] blankFile_holds

/-! ## The drive after a write -/

/-- What the bytes of the drive say of the file with this directory entry: its size and first cluster, its chain in
every copy of the FAT, and its contents. -/
structure OnDrive (v : Volume) (mem : ℕ → UInt8) (dir : ℕ) (l : List ℕ) (bytes : List UInt8) : Prop where
  room : bytes.length ≤ v.bcs * l.length
  size : ldDword mem (dir + 28) = bytes.length
  first : ldClust v mem dir = l.headD 0
  chain : ∀ k < v.nFats, ∀ j c, l[j]? = some c →
    (l[j + 1]? = none ∧ v.nFatent ≤ v.entry (fun a => mem (a + k * (512 * v.fsize))) c) ∨
      l[j + 1]? = some (v.entry (fun a => mem (a + k * (512 * v.fsize))) c)
  content : ∀ o < bytes.length, mem (v.addr l o) = bytes.getD o 0

/-- The place of the directory entry on the drive. -/
def entryAddr (f : OpenFile) : ℕ := 512 * f.fp.dirSect + f.fp.dirPtr

theorem Holding.onDrive (h : f.Holding l lost others b) (hw : f.Written) :
    OnDrive f.fs.toVolume f.fs.drv.bytes f.entryAddr l b.bytes := by
  obtain ⟨hdirty, hclean, hsize, hfirst⟩ := hw
  have hvalid := h.safe.alloc.valid
  refine ⟨h.exact.room, ?_, ?_, fun k hk j c hget => ?_, fun o ho => ?_⟩
  · rw [entryAddr, hsize, h.size, Nat.mod_eq_of_lt h.lt]
  · rw [entryAddr, hfirst, h.ready.located.first]
    rw [h.ready.located.first]
    cases l with
    | nil =>
      have := h.safe.sized.placed.last
      rw [List.headD_nil]
      omega
    | cons x t =>
      have := h.safe.sized.placed.last
      have := (h.safe.mem_l (List.mem_cons_self : x ∈ x :: t)).2
      rw [List.headD_cons]
      omega
  · obtain ⟨hge, hlt⟩ := h.safe.mem_l (List.mem_of_getElem? hget)
    have hcopy : f.fs.entry (fun a => f.fs.drv.bytes (a + k * (512 * f.fs.fsize))) c = f.fs.fat c := by
      rw [← FATFS.entry_drive hvalid hclean hge hlt]
      exact Volume.entry_congr hvalid.placed hlt fun x hge hx => h.mirrored k hk x hge hx fun hw => by
        rw [hclean] at hw
        cases hw
    rw [hcopy]
    exact h.safe.next_clust hget
  · have := h.exact.bytes o ho
    rwa [OpenFile.mem, hdirty] at this

/-- **Every write reaches the drive.** After any calls and a write, the drive holds the whole file. -/
theorem serve_file_stored (calls : List FileCall) (data : List UInt8) (hlt : data.length < 2 ^ 32)
    (h : Holds others f b) (hmode : b.canWrite = true) :
    ∃ rs f' l, serve FileCall.exec (calls ++ [.write data hlt]) f = some (rs, f') ∧
      OnDrive f.fs.toVolume f'.fs.drv.bytes f.entryAddr l (b.after (calls ++ [.write data hlt])).bytes := by
  obtain ⟨f₁, hres₁, ⟨l₁, lost₁, h₁⟩, hframe₁, hmode₁⟩ := serve_run calls h
  obtain ⟨f', l', lost', hres, hh, hframe, hwritten⟩ := h₁.write data hlt
  have hdrive := hh.onDrive (hwritten (hmode₁.trans hmode))
  have hframe' := hframe₁.trans hframe
  rw [hframe'.vol, entryAddr, hframe'.entry.1, hframe'.entry.2] at hdrive
  refine ⟨_, f', l', serve_append hres₁ hres, ?_⟩
  rw [FileSpec.after, answers_append]
  exact hdrive

theorem serve_file_stored_blank : ∃ rs f' l,
    serve FileCall.exec [.write [1, 2, 3] (by decide), .lseek 1 .SEEK_SET, .write [7] (by decide)] blankFile =
      some (rs, f') ∧ OnDrive blankFile.fs.toVolume f'.fs.drv.bytes blankFile.entryAddr l [1, 7, 3] :=
  serve_file_stored [.write [1, 2, 3] (by decide), .lseek 1 .SEEK_SET] [7] (by decide) blankFile_holds rfl

/-! ## The file is opened again -/

/-- The volume was mounted again: it is the same drive, and the sector of the directory entry is in the window. -/
structure Remounted (f : OpenFile) (fs : FATFS) : Prop where
  vol : fs.toVolume = f.fs.toVolume
  valid : fs.Valid
  clean : fs.wflag = false
  bytes : fs.drv.bytes = f.fs.drv.bytes
  faults : fs.drv.faults = []
  window : fs.winsect = f.fp.dirSect

/-- The volume after a mount. -/
def remounted (f : OpenFile) : FATFS :=
  { f.fs with wflag := false, winsect := f.fp.dirSect, win := fun i => f.fs.drv.bytes (512 * f.fp.dirSect + i),
              drv := ⟨f.fs.drv.bytes, []⟩ }

theorem Safe.remounted (h : f.Safe l lost others) : f.Remounted f.remounted where
  vol := rfl
  valid := ⟨⟨h.sized.placed, h.entry.lt, h.entry.plain.1, fun _ _ _ _ => rfl⟩, Drive.Tidy.nil rfl⟩
  clean := rfl
  bytes := rfl
  faults := rfl
  window := rfl

theorem Holding.reopen {fs : FATFS} (h : f.Holding l lost others b) (hw : f.Written) (hm : f.Remounted fs) (fp : FIL)
    (canRead canWrite : Bool) :
    (fOpen fs fp canRead canWrite f.fp.dirPtr).Holding l lost others (b.opened canRead canWrite) := by
  obtain ⟨hvol, hvalid, hclean, hbytes, hfaults, hwin⟩ := hm
  have hdrive := h.onDrive hw
  have hent := h.safe.entry
  have hfat : fs.fat = f.fs.fat := by
    funext c
    by_cases hc : 2 ≤ c ∧ c < f.fs.nFatent
    · rw [← FATFS.entry_drive h.safe.alloc.valid hw.2.clean hc.1 hc.2,
        ← FATFS.entry_drive hvalid hclean hc.1 (by rw [hvol]; exact hc.2), hbytes, hvol]
    · unfold FATFS.fat
      rw [hvol, if_neg hc, if_neg hc]
  have hlinks : fs.links = f.fs.links := FATFS.links_congr hvol hfat
  have hroom := hent.room
  have hbyte : ∀ i < 32, fs.win (f.fp.dirPtr + i) = f.fs.drv.bytes (f.entryAddr + i) := by
    intro i hi
    rw [hvalid.clean hclean (by rw [hwin, hvol]; exact hent.plain) _ (by omega), hwin, hbytes, entryAddr, Nat.add_assoc]
  have hsize : ldDword fs.win (f.fp.dirPtr + 28) = b.bytes.length := by
    rw [← hdrive.size]
    exact ldDword_congr fun i hi => by
      rw [Nat.add_assoc, Nat.add_assoc]
      exact hbyte _ (by omega)
  have hfirst : ldClust fs.toVolume fs.win f.fp.dirPtr = l.headD 0 := by
    rw [← hdrive.first, hvol]
    exact ldClust_congr hbyte
  refine ⟨⟨⟨hvalid, hlinks ▸ h.safe.alloc.chains⟩, ?_, .inr hfaults, ?_, ?_, .inl ⟨rfl, rfl⟩⟩,
    ⟨⟨hfirst, fun hpos => absurd hpos (lt_irrefl 0), fun hne => absurd rfl hne⟩, Nat.zero_le _, ?_⟩, rfl, hfaults, ?_,
    ⟨?_, fun o ho => ?_, fun _ hd => absurd rfl hd⟩, hsize, rfl, ?_, ⟨rfl, rfl⟩⟩
  · dsimp only [fOpen]
    rw [hvol]
    exact h.safe.sized
  · dsimp only [fOpen]
    rw [hvol, hwin]
    exact hent.apart
  · dsimp only [fOpen]
    rw [hvol, hwin]
    exact hent
  · dsimp only [fOpen]
    rw [hsize]
    exact h.lt
  · intro k hk x hge hx _
    dsimp only [fOpen] at hk hge hx ⊢
    rw [hvol] at hk hge hx
    rw [hbytes, hvol]
    exact h.mirrored k hk x hge hx fun hw' => by
      rw [hw.2.clean] at hw'
      cases hw'
  · dsimp only [fOpen]
    rw [hvol]
    exact h.exact.room
  · refine Eq.trans ?_ (hdrive.content o ho)
    change fs.drv.bytes (fs.addr l o) = _
    rw [hvol, hbytes]
  · refine h.cap.trans ?_
    unfold most
    dsimp only [fOpen]
    rw [hvol]

/-- **What was written is there when the file is opened again.** After any calls and a write, the file is the same list
of bytes on every volume that is mounted from the drive. -/
theorem serve_file_reopen (calls : List FileCall) (data : List UInt8) (hlt : data.length < 2 ^ 32)
    (h : Holds others f b) (hmode : b.canWrite = true) :
    ∃ rs f', serve FileCall.exec (calls ++ [.write data hlt]) f = some (rs, f') ∧ f'.Remounted f'.remounted ∧
      ∀ fs fp canRead canWrite, f'.Remounted fs →
        Holds others (fOpen fs fp canRead canWrite f.fp.dirPtr)
          ((b.after (calls ++ [.write data hlt])).opened canRead canWrite) := by
  obtain ⟨f₁, hres₁, ⟨l₁, lost₁, h₁⟩, hframe₁, hmode₁⟩ := serve_run calls h
  obtain ⟨f', l', lost', hres, hh, hframe, hwritten⟩ := h₁.write data hlt
  refine ⟨_, f', serve_append hres₁ hres, hh.safe.remounted, fun fs fp canRead canWrite hm => ⟨l', lost', ?_⟩⟩
  rw [FileSpec.after, answers_append, ← (hframe₁.trans hframe).entry.2]
  exact hh.reopen (hwritten (hmode₁.trans hmode)) hm fp canRead canWrite

theorem serve_file_reopen_blank : ∃ rs f',
    serve FileCall.exec [.write [1, 2, 3] (by decide), .lseek 1 .SEEK_SET, .write [7] (by decide)] blankFile =
      some (rs, f') ∧ f'.Remounted f'.remounted ∧
        Holds [] (fOpen f'.remounted f'.fp true false 0) ⟨⟨[1, 7, 3], 0, Nat.zero_le _⟩, 2048, true, false⟩ := by
  obtain ⟨rs, f', hres, hm, hopen⟩ :=
    serve_file_reopen [.write [1, 2, 3] (by decide), .lseek 1 .SEEK_SET] [7] (by decide) blankFile_holds rfl
  exact ⟨rs, f', hres, hm, hopen _ _ _ _ hm⟩

/-! ## Runs in which transfers fail -/

/-- What every call keeps: the file has its clusters, and can be used unless a transfer failed. -/
def Sound (others : List (List ℕ)) (f : OpenFile) : Prop :=
  ∃ l lost, f.Safe l lost others ∧ (f.fp.err = .FR_OK → f.Ready l)

section Sound

variable {α β ε : Type} {m : Code OpenFile ε α} {k : α → Code OpenFile ε β}

/-- The code returns, and changes no other file. -/
def Harmless (m : Code OpenFile ε α) (f : OpenFile) (others : List (List ℕ)) : Prop :=
  m.Returns f fun _ f' => Sound others f' ∧ f.Frame f' others

theorem Harmless.bind (h : Harmless m f others) (hk : ∀ a f', Sound others f' → Harmless (k a) f' others) :
    Harmless (m >>= k) f others := by
  refine Code.Returns.bind h (fun a f' hp => ?_) fun _ _ => id
  exact (hk a f' hp.1).mono fun _ _ hq => ⟨hq.1, hp.2.trans hq.2⟩

theorem Harmless.pure {a : α} (h : Sound others f) : Harmless (Pure.pure a : Code OpenFile ε α) f others :=
  Code.Returns.pure ⟨h, Frame.refl f others⟩

theorem Harmless.leave {e : ε} (h : Sound others f) : Harmless (Code.leave e : Code OpenFile ε α) f others :=
  Code.Returns.leave ⟨h, Frame.refl f others⟩

theorem Harmless.answering {m : FileCode α} {g : FRESULT → ℤ} (h : Harmless m f others) :
    Harmless (Fat32File.answering g m) f others := by
  obtain ⟨r, f', hres, hp⟩ := h
  refine ⟨r.mapError g, f', ?_, hp⟩
  rw [Fat32File.answering, hres]
  rfl

theorem Meets.harmless {m : FileCode α} {Q : α → OpenFile → List ℕ → List (List ℕ) → Prop}
    (h : Meets True m f lost others Q) (hq : ∀ a f' l lost', f.Frame f' others → Q a f' l lost' →
      f'.fp.err = .FR_OK → f'.Ready l) : Harmless m f others := by
  refine Code.Returns.mono h fun r f' hp => ?_
  cases r with
  | ok a =>
    obtain ⟨l, lost', hs, hframe, -, hq'⟩ := hp
    exact ⟨⟨l, lost', hs, hq a f' l lost' hframe hq'⟩, hframe⟩
  | error e =>
    obtain ⟨-, l, lost', hs, hframe, hr⟩ := hp
    exact ⟨⟨l, lost', hs, hr⟩, hframe⟩

end Sound

theorem Sound.fWrite (h : Sound others f) {data : List UInt8} (hlt : data.length < 2 ^ 32) :
    Harmless (fWrite data) f others := by
  by_cases herr : f.fp.err = .FR_OK
  · by_cases hmode : f.fp.canWrite = true
    · obtain ⟨l, lost, hs, hr⟩ := h
      obtain ⟨hl, hle, hsize⟩ := hr herr
      refine (fWrite_meets (F := True) hs (fun _ => trivial) hl herr hmode (by omega) hlt).harmless
        fun n f' l' lost' _ hq _ => ?_
      obtain ⟨hn, hl', hptr', hsize', -⟩ := hq
      refine ⟨hl', by omega, ?_⟩
      unfold bytesToWrite at hn
      split_ifs at hn <;> omega
    · refine Code.Returns.read_bind ?_
      rw [if_neg (by simp [herr]), if_pos hmode]
      exact Harmless.leave h
  · refine Code.Returns.read_bind ?_
    rw [if_pos herr]
    exact Harmless.leave h

theorem Sound.fSync (h : Sound others f) : Harmless fSync f others := by
  obtain ⟨l, lost, hs, hr⟩ := h
  refine (fSync_meets (F := True) hs (fun _ => trivial) hr).harmless fun _ f' l' lost' _ hq herr => ?_
  obtain ⟨rfl, rfl, hsynced⟩ := hq
  rw [hsynced.fp] at herr
  exact (hr herr).of_same (by rw [hsynced.fp]) hsynced.vol

theorem Sound.fRead (h : Sound others f) (len : ℕ) : Harmless (fRead len) f others := by
  by_cases herr : f.fp.err = .FR_OK
  · by_cases hmode : f.fp.canRead = true
    · obtain ⟨l, lost, hs, hr⟩ := h
      obtain ⟨hl, hle, hsize⟩ := hr herr
      refine (fRead_meets (F := True) len hs (fun _ => trivial) hl herr hmode hle (.inr trivial)).harmless
        fun bytes f' l' lost' _ hq _ => ?_
      obtain ⟨rfl, rfl, hread⟩ := hq
      refine ⟨hread.located, ?_, ?_⟩
      · rw [hread.fp]
        dsimp only
        omega
      · rw [hread.fp]
        exact hsize
    · refine Code.Returns.read_bind ?_
      rw [if_neg (by simp [herr]), if_pos hmode]
      exact Harmless.leave h
  · refine Code.Returns.read_bind ?_
    rw [if_pos herr]
    exact Harmless.leave h

theorem Sound.fLseek (h : Sound others f) {ofs : ℕ} (hofs : ofs ≤ f.fp.fsize) : Harmless (fLseek ofs) f others := by
  by_cases herr : f.fp.err = .FR_OK
  · obtain ⟨l, lost, hs, hr⟩ := h
    obtain ⟨hl, hle, hsize⟩ := hr herr
    refine (fLseek_meets (F := True) hs (fun _ => trivial) hl herr hle hsize hofs (.inr trivial)).harmless
      fun _ f' l' lost' _ hq _ => ?_
    have hfs := hq.fields.1
    have hptr := hq.le
    exact ⟨hq.located, by omega, by omega⟩
  · refine Code.Returns.read_bind ?_
    rw [if_pos herr]
    exact Harmless.leave h

theorem Sound.exec (call : FileCall) (h : Sound others f) : Harmless call.exec f others := by
  cases call with
  | write data hlt =>
    refine Harmless.bind (Harmless.bind (h.fWrite hlt).answering fun n f₁ h₁ => ?_) fun _ f₁ h₁ => Harmless.pure h₁
    exact Harmless.bind h₁.fSync.answering fun _ f₂ h₂ => Harmless.pure h₂
  | read len => exact Harmless.bind (h.fRead len).answering fun _ f₁ h₁ => Harmless.pure h₁
  | lseek pos whence =>
    refine Harmless.bind (Code.Returns.read_bind ?_) fun _ f₁ h₁ => Harmless.pure h₁
    have hseek : ∀ offset : ℤ, Harmless (if offset < 0 ∨ f.fp.fsize < offset then Code.leave (-EOVERFLOW) else do
        Fat32File.answering translateError (OpenFile.fLseek offset.toNat)
        pure offset : Code OpenFile ℤ ℤ) f others := fun offset => by
      refine Code.Returns.ite (fun _ => Harmless.leave h) fun hin => ?_
      exact Harmless.bind (h.fLseek (by omega)).answering fun _ f₁ h₁ => Harmless.pure h₁
    cases whence with
    | SEEK_CUR => exact hseek _
    | SEEK_SET => exact hseek _
    | SEEK_END => exact hseek _
    | other => exact Harmless.leave h
  | sync => exact Harmless.bind h.fSync.answering fun _ f₁ h₁ => Harmless.pure h₁

end OpenFile

end Miosix
