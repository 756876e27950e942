import MiosixKernel.Path.Mount
import Mathlib.Data.List.Forall2

/-!
# Renaming and unmounting

* `renameHelper_iff`: when a rename into a directory of the renamed one is refused;
* `umount_iff`: when `umount` leaves the other filesystems alone.
-/

namespace Miosix

open Lib PathResolution

namespace FilesystemManager

variable {F : Type} {calls : FilesystemCalls F} {fuel : ℕ} {m m' : FilesystemManager F}
  {path : List Char} {r : ℤ}

/-! ## Renaming -/

/-- A path in a filesystem is the other one, or component-wise below it. -/
def Below (path dir : List Char) : Prop := dir.splitOn '/' <+: path.splitOn '/'

instance (path dir : List Char) : Decidable (Below path dir) := by
  unfold Below
  infer_instance

theorem startsWith_iff (path dir : List Char) : startsWith path dir = true ↔
    Below path dir ∨ ∃ x t, path = dir ++ x :: t ∧ x ≠ '/' := by
  rw [startsWith, List.isPrefixOf_iff_prefix, Below, splitOn_isPrefix_iff]
  constructor
  · rintro ⟨t, rfl⟩
    cases t with
    | nil => exact Or.inl ⟨[], rfl, Or.inl rfl⟩
    | cons x t =>
      by_cases hx : x = '/'
      · exact Or.inl ⟨x :: t, rfl, Or.inr (by rw [hx, List.head?_cons])⟩
      · exact Or.inr ⟨x, t, rfl, hx⟩
  · rintro (⟨t, rfl, -⟩ | ⟨x, t, rfl, -⟩)
    · exact ⟨t, rfl⟩
    · exact ⟨x :: t, rfl⟩

/-- A canonical path below a mountpoint, and the path in the filesystem. -/
def IsRelative (path relative : List Char) : Prop :=
  ∃ c k, Canonical c ∧ k < c.length ∧ path = join '/' c ∧ relative = (join '/' (c.drop k)).tail

theorem relativePath_eq (cs : List (List Char)) (k : ℕ) :
    relativePath cs k = (join '/' (cs.drop k)).tail := by
  have hjoin : join '/' cs = join '/' (cs.take k) ++ join '/' (cs.drop k) := by
    rw [← join_append, List.take_append_drop]
  rw [relativePath, hjoin, ← List.drop_drop, List.drop_left, List.drop_one]

/-- A path that resolves, and is not a mountpoint, is a path in a filesystem. -/
theorem isRelative_of_resolvePath {followLastSymlink : Bool} {resolved : ResolvedPath F} {path' : List Char}
    (hfuel : enoughFuel ≤ fuel) (h : m.resolvePath calls fuel path followLastSymlink = .ok (path', resolved))
    (hres : 0 ≤ resolved.result) (hroot : path' ≠ []) (hmount : m.find path' = none) :
    IsRelative path' (path'.drop resolved.off) ∧ ∃ fs, resolved.fs = some fs := by
  obtain ⟨q, hrun, hq⟩ := resolvePath_total (m.env calls) path fuel hfuel followLastSymlink
  obtain rfl : q = (path', resolved) := Except.ok.inj (hrun.symm.trans h)
  obtain ⟨root, -, hneg | ⟨cs, k, hcs, -, hk, hkmount, heq⟩⟩ := hq.resolve_left (not_lt.2 hres)
  · exact absurd hres (not_le.2 hneg)
  have hdrop := drop_resolved (m.env calls) root cs k
  rw [← heq] at hdrop
  have hpath : path' = join '/' cs := (Prod.mk.inj heq).1
  refine ⟨⟨cs, k, hcs, lt_of_le_of_ne hk ?_, hpath, hdrop.trans (relativePath_eq cs k)⟩,
    _, by rw [(Prod.mk.inj heq).2]⟩
  rintro rfl
  obtain h0 | hsome := hkmount
  · rw [hpath, List.eq_nil_of_length_eq_zero h0] at hroot
    exact hroot rfl
  · rw [List.take_length, ← hpath] at hsome
    have : m.find path' ≠ none := Option.isSome_iff_ne_none.1 hsome
    exact this hmount

/-- **Renaming** a path to one that is the same or below it is refused, and nothing else is, unless the new name
goes on after the old one in the same component. -/
theorem renameHelper_iff [DecidableEq F] {oldPath newPath oldPath' newPath' : List Char}
    {oldOpenData newOpenData : ResolvedPath F} (hfuel : enoughFuel ≤ fuel)
    (hold : m.resolvePath calls fuel oldPath true = .ok (oldPath', oldOpenData))
    (hnew : m.resolvePath calls fuel newPath true = .ok (newPath', newOpenData))
    (holdRes : 0 ≤ oldOpenData.result) (hnewRes : 0 ≤ newOpenData.result)
    (hfs : oldOpenData.fs = newOpenData.fs) (holdMount : oldPath' ≠ [] ∧ m.find oldPath' = none)
    (hnewMount : newPath' ≠ [] ∧ m.find newPath' = none) :
    ∃ fs oldSp newSp, oldOpenData.fs = some fs ∧ oldSp = oldPath'.drop oldOpenData.off ∧
      newSp = newPath'.drop newOpenData.off ∧ IsRelative oldPath' oldSp ∧ IsRelative newPath' newSp ∧
      (m.renameHelper calls fuel oldPath newPath =
          .ok (if Below newSp oldSp then .error (-EINVAL) else .ok (fs, oldSp, newSp)) ↔
        ¬ ∃ x t, newSp = oldSp ++ x :: t ∧ x ≠ '/') := by
  obtain ⟨holdRel, fs, holdFs⟩ := isRelative_of_resolvePath hfuel hold holdRes holdMount.1 holdMount.2
  obtain ⟨hnewRel, -⟩ := isRelative_of_resolvePath hfuel hnew hnewRes hnewMount.1 hnewMount.2
  refine ⟨fs, _, _, holdFs, rfl, rfl, holdRel, hnewRel, ?_⟩
  have hrun : m.renameHelper calls fuel oldPath newPath =
      .ok (if startsWith (newPath'.drop newOpenData.off) (oldPath'.drop oldOpenData.off) then .error (-EINVAL)
        else .ok (fs, oldPath'.drop oldOpenData.off, newPath'.drop newOpenData.off)) := by
    simp only [renameHelper, hold, hnew, ok_bind, if_neg (not_lt.2 holdRes), if_neg (not_lt.2 hnewRes), holdFs,
      ← hfs, holdMount.2, hnewMount.2, ne_eq, not_true, if_false, Option.isSome_none, Bool.false_eq_true]
    split_ifs <;> rfl
  rw [hrun, Except.ok.injEq]
  have hstarts := startsWith_iff (newPath'.drop newOpenData.off) (oldPath'.drop oldOpenData.off)
  by_cases hbelow : Below (newPath'.drop newOpenData.off) (oldPath'.drop oldOpenData.off)
  · rw [if_pos (hstarts.2 (Or.inl hbelow)), if_pos hbelow]
    refine ⟨fun _ => ?_, fun _ => rfl⟩
    rintro ⟨x, t, heq, hx⟩
    obtain ⟨u, hu, hsep⟩ := splitOn_isPrefix_iff.1 hbelow
    obtain rfl := List.append_cancel_left (hu.symm.trans heq)
    simp [hx] at hsep
  · rw [if_neg hbelow]
    constructor
    · intro heq hon
      rw [if_pos (hstarts.2 (Or.inr hon))] at heq
      cases heq
    · intro hno
      rw [if_neg fun h => (hstarts.1 h).elim hbelow hno]

/-- On one filesystem, with a directory for every name. -/
theorem renameHelper_below :
    let m : FilesystemManager ℕ := ⟨[("/".toList, 0)], []⟩
    m.renameHelper onlyDirectories enoughFuel "/a".toList "/a/b".toList = .ok (.error (-EINVAL)) := by
  intro m
  have hold : m.resolvePath onlyDirectories enoughFuel "/a".toList true = .ok ("/a".toList, ⟨0, some 0, 1⟩) := by
    rfl
  have hnew : m.resolvePath onlyDirectories enoughFuel "/a/b".toList true =
      .ok ("/a/b".toList, ⟨0, some 0, 1⟩) := by rfl
  obtain ⟨fs, oldSp, newSp, -, rfl, rfl, -, -, hiff⟩ := renameHelper_iff le_rfl hold hnew le_rfl le_rfl rfl
    ⟨by decide, by decide⟩ ⟨by decide, by decide⟩
  refine (hiff.2 ?_).trans ?_
  · rintro ⟨x, t, heq, hx⟩
    exact hx (List.cons.inj (List.cons.inj heq).2).1.symm
  · rfl

/-- The new path `/ab` is not below `/a`. -/
theorem renameHelper_sibling :
    let m : FilesystemManager ℕ := ⟨[("/".toList, 0)], []⟩
    Reachable m.filesystems ∧
      m.renameHelper onlyDirectories enoughFuel "/a".toList "/ab".toList = .ok (.error (-EINVAL)) ∧
      ¬ Below "ab".toList "a".toList :=
  ⟨Reachable.mountAll .empty (by rfl : mountAll [("/".toList, 0)] ⟨[], []⟩ = .ok _), by rfl, by decide⟩

/-! ## Unmounting -/

/-- The key is `path`, or strictly below it: all the keys, for `/`. -/
def MountedBelow (path key : List Char) : Prop := path = ['/'] ∨ key = path ∨ path ++ ['/'] <+: key

instance (path key : List Char) : Decidable (MountedBelow path key) := by
  unfold MountedBelow
  infer_instance

/-- The mountpoints whose names start with `path` are those at and below it. -/
theorem startsWith_imp_iff : (∀ key ∈ m.filesystems.map Prod.fst, startsWith key path = true → MountedBelow path key) ↔
    path = ['/'] ∨ ¬ ∃ x t, (m.find (path ++ x :: t)).isSome = true ∧ x ≠ '/' := by
  constructor
  · intro h
    by_cases hroot : path = ['/']
    · exact Or.inl hroot
    refine Or.inr ?_
    rintro ⟨x, t, hkey, hx⟩
    have hstarts : startsWith (path ++ x :: t) path = true :=
      List.isPrefixOf_iff_prefix.2 (List.prefix_append _ _)
    obtain hr | heq | hpre := h _ (isSome_find.1 hkey) hstarts
    · exact hroot hr
    · simp at heq
    · have hcons := (List.prefix_append_right_inj path).1 hpre
      exact hx (List.cons_prefix_cons.1 hcons).1.symm
  · intro h key hkey hstarts
    obtain hroot | hno := h
    · exact Or.inl hroot
    obtain ⟨t, rfl⟩ := List.isPrefixOf_iff_prefix.1 hstarts
    cases t with
    | nil => exact Or.inr (Or.inl (List.append_nil path))
    | cons x t =>
      have hx : x = '/' := by
        by_contra hx
        exact hno ⟨x, t, isSome_find.2 hkey, hx⟩
      exact Or.inr (Or.inr ⟨t, by simp [hx]⟩)

theorem mem_selected {sel : List Char → Bool} {fs : F} :
    fs ∈ m.selected sel ↔ ∃ e ∈ m.filesystems, sel e.1 = true ∧ e.2 = fs := by
  simp [selected, and_assoc]

section Umount

variable [DecidableEq F] {fss : List F} {force : Bool} {ongoing : ℕ → List (FileBase F)}

/-- The descriptor is of a file of one of the filesystems. -/
def fileIn (fss : List F) : Option (FileBase F) → Bool
  | some ⟨some fs⟩ => fs ∈ fss
  | _ => false

/-- A file of one of the filesystems has a descriptor. -/
def Open (m : FilesystemManager F) (fss : List F) : Prop :=
  ∃ table ∈ m.fileTables, ∃ file ∈ table, fileIn fss file = true

/-- An operation uses a file of one of the filesystems. -/
def Ongoing (fss : List F) (files : List (FileBase F)) : Prop := ∃ file ∈ files, fileIn fss (some file) = true

/-- The filesystems stay in use: if forced, until the last check. -/
def Busy (m : FilesystemManager F) (fss : List F) (force : Bool) (ongoing : ℕ → List (FileBase F)) : Prop :=
  if force then ∀ i < maxRetry, Ongoing fss (ongoing i) else Open m fss ∨ Ongoing fss (ongoing 0)

/-- The descriptor tables without the files of the filesystems. -/
def closeFiles (m : FilesystemManager F) (fss : List F) : FilesystemManager F :=
  { m with fileTables := m.fileTables.map fun table => table.map fun file =>
      if fileIn fss file then none else file }

theorem closeEntry_eq (fss : List F) (force : Bool) (file : Option (FileBase F)) :
    closeEntry fss force file =
      if fileIn fss file then if force then .ok none else .error (-EBUSY) else .ok file := by
  obtain _ | ⟨_ | fs⟩ := file
  · rfl
  · rfl
  · by_cases hfs : fs ∈ fss
    · cases force <;> simp [closeEntry, fileIn, hfs]
    · simp [closeEntry, fileIn, hfs]

theorem scan_force (m : FilesystemManager F) (fss : List F) :
    (m.fileTables.mapM fun table => table.mapM (closeEntry fss true)) = .ok (m.closeFiles fss).fileTables := by
  refine mapM_eq_ok fun table _ => mapM_eq_ok fun file _ => ?_
  rw [closeEntry_eq, if_pos rfl]
  split_ifs <;> rfl

theorem scan_free (h : ¬ Open m fss) :
    (m.fileTables.mapM fun table => table.mapM (closeEntry fss force)) = .ok m.fileTables := by
  have hid : m.fileTables = m.fileTables.map fun table => table.map id := by simp
  conv_rhs => rw [hid]
  refine mapM_eq_ok fun table htable => mapM_eq_ok fun file hfile => ?_
  rw [closeEntry_eq, if_neg fun hin => h ⟨table, htable, file, hfile, hin⟩, id]

theorem scan_busy (h : Open m fss) :
    (m.fileTables.mapM fun table => table.mapM (closeEntry fss false)) = .error (-EBUSY) := by
  have hentry : ∀ file e, closeEntry fss false file = .error e → e = -EBUSY := by
    intro file e he
    rw [closeEntry_eq] at he
    split_ifs at he
    · exact (Except.error.inj he).symm
  obtain ⟨table, htable, file, hfile, hin⟩ := h
  refine mapM_eq_error (fun t _ e he => ?_) ⟨table, htable, ?_⟩
  · by_contra hne
    by_cases hopen : ∃ file ∈ t, fileIn fss file = true
    · obtain ⟨f, hf, hfin⟩ := hopen
      rw [mapM_eq_error (fun g _ e he => hentry g e he) ⟨f, hf, by rw [closeEntry_eq, if_pos hfin]; rfl⟩] at he
      exact hne (Except.error.inj he).symm
    · rw [mapM_eq_ok (g := id) fun g hg => by rw [closeEntry_eq, if_neg fun hin => hopen ⟨g, hg, hin⟩, id]] at he
      cases he
  · exact mapM_eq_error (fun g _ e he => hentry g e he) ⟨file, hfile, by rw [closeEntry_eq, if_pos hin]; rfl⟩

/-- Once the descriptors are closed, only the operations use files. -/
theorem all_areAllFilesClosed {tables : List (FileDescriptorTable F)} {files : List (FileBase F)}
    (h : ∀ table ∈ tables, ∀ file ∈ table, fileIn fss file = false) :
    fss.all (areAllFilesClosed tables files) = true ↔ ¬ Ongoing fss files := by
  have htables : ∀ fs ∈ fss, (tables.all fun table => table.all fun file =>
      file.all fun file => file.parent ≠ some fs) = true := by
    intro fs hfs
    rw [List.all_eq_true]
    intro table htable
    rw [List.all_eq_true]
    intro file hfile
    have hin := h table htable file hfile
    obtain _ | ⟨_ | fs'⟩ := file
    · rfl
    · simp
    · have hne : fs' ≠ fs := by
        rintro rfl
        simp [fileIn, hfs] at hin
      simpa using hne
  constructor
  · rintro hall ⟨file, hfile, hin⟩
    obtain ⟨_ | fs⟩ := file
    · simp [fileIn] at hin
    · have hfs : fs ∈ fss := by simpa [fileIn] using hin
      have hclosed := List.all_eq_true.1 hall fs hfs
      rw [areAllFilesClosed, Bool.and_eq_true, List.all_eq_true] at hclosed
      have := hclosed.1 _ hfile
      simp at this
  · intro hno
    rw [List.all_eq_true]
    intro fs hfs
    rw [areAllFilesClosed, htables fs hfs, Bool.and_true, List.all_eq_true]
    intro file hfile
    rw [decide_eq_true_iff]
    intro hparent
    obtain ⟨_ | fs'⟩ := file
    · cases hparent
    · obtain rfl := Option.some.inj hparent
      exact hno ⟨_, hfile, by simpa [fileIn] using hfs⟩

theorem retry_false {tables : List (FileDescriptorTable F)} :
    retry tables fss false ongoing 0 maxRetry =
      if fss.all (areAllFilesClosed tables (ongoing 0)) then .ok () else .error (-EBUSY) := rfl

theorem retry_true {tables : List (FileDescriptorTable F)} (i left : ℕ) :
    retry tables fss true ongoing i (left + 1) =
      if ∃ j < left + 1, fss.all (areAllFilesClosed tables (ongoing (i + j))) = true then .ok ()
      else .error (-EBUSY) := by
  induction left generalizing i with
  | zero =>
    rw [retry]
    simp
  | succ left ih =>
    rw [retry, ih]
    by_cases hclosed : fss.all (areAllFilesClosed tables (ongoing i)) = true
    · rw [if_pos hclosed, if_pos ⟨0, Nat.succ_pos _, hclosed⟩]
    · have hiff : (∃ j < left + 1, fss.all (areAllFilesClosed tables (ongoing (i + 1 + j))) = true) ↔
          ∃ j < left + 1 + 1, fss.all (areAllFilesClosed tables (ongoing (i + j))) = true := by
        constructor
        · rintro ⟨j, hj, h⟩
          exact ⟨j + 1, by omega, by rwa [← Nat.add_assoc, Nat.add_right_comm]⟩
        · rintro ⟨j, hj, h⟩
          cases j with
          | zero => exact absurd h hclosed
          | succ j => exact ⟨j, by omega, by rwa [Nat.add_right_comm, Nat.add_assoc]⟩
      simp only [if_neg hclosed, hiff, Bool.true_eq_false, if_false, Nat.succ_ne_zero]

theorem fileIn_closeFiles (m : FilesystemManager F) (fss : List F) :
    ∀ table ∈ (m.closeFiles fss).fileTables, ∀ file ∈ table, fileIn fss file = false := by
  intro table htable file hfile
  obtain ⟨t, -, rfl⟩ := List.mem_map.1 htable
  obtain ⟨f, -, rfl⟩ := List.mem_map.1 hfile
  split_ifs with hin
  · rfl
  · exact Bool.eq_false_iff.2 hin

/-- What `umount` does with a mountpoint. -/
theorem umount_of_mounted (force : Bool) (ongoing : ℕ → List (FileBase F)) (hne : path ≠ [])
    (hlen : path.length ≤ PATH_MAX) (hmem : (m.find path).isSome = true)
    (hfss : m.selected (fun key => startsWith key path) = fss) :
    (Busy m fss force ongoing →
      m.umount path force ongoing = (-EBUSY, if force then m.closeFiles fss else m)) ∧
    (¬ Busy m fss force ongoing → m.umount path force ongoing =
      (0, ⟨m.filesystems.filter fun e => !startsWith e.1 path,
        if force then (m.closeFiles fss).fileTables else m.fileTables⟩)) := by
  have hnone : ¬ (m.find path).isNone = true := by
    rw [← Option.not_isSome, hmem]
    decide
  unfold umount
  rw [if_neg hne, if_neg (not_lt.2 hlen), if_neg hnone, hfss]
  dsimp only
  cases force with
  | false =>
    rw [Busy, if_neg Bool.false_ne_true]
    by_cases hopen : Open m fss
    · rw [scan_busy hopen]
      exact ⟨fun _ => rfl, fun hno => absurd (Or.inl hopen) hno⟩
    · have hfree : ∀ table ∈ m.fileTables, ∀ file ∈ table, fileIn fss file = false := fun table ht file hf =>
        Bool.eq_false_iff.2 fun hin => hopen ⟨table, ht, file, hf, hin⟩
      rw [scan_free hopen]
      dsimp only
      rw [retry_false]
      by_cases hon : Ongoing fss (ongoing 0)
      · rw [if_neg fun h => (all_areAllFilesClosed hfree).1 h hon]
        exact ⟨fun _ => rfl, fun hno => absurd (Or.inr hon) hno⟩
      · rw [if_pos ((all_areAllFilesClosed hfree).2 hon)]
        exact ⟨fun hbusy => absurd hbusy (not_or.2 ⟨hopen, hon⟩), fun _ => rfl⟩
  | true =>
    rw [Busy, if_pos rfl, scan_force, maxRetry]
    dsimp only
    rw [retry_true 0 2]
    have hclosed : (∃ j < 2 + 1, fss.all (areAllFilesClosed (m.closeFiles fss).fileTables (ongoing (0 + j))) =
        true) ↔ ¬ ∀ i < 3, Ongoing fss (ongoing i) := by
      simp only [Nat.zero_add, all_areAllFilesClosed (fileIn_closeFiles m fss)]
      push Not
      rfl
    by_cases hon : ∀ i < 3, Ongoing fss (ongoing i)
    · rw [if_neg fun h => hclosed.1 h hon]
      exact ⟨fun _ => rfl, fun h => absurd hon h⟩
    · rw [if_pos (hclosed.2 hon)]
      exact ⟨fun h => absurd h hon, fun _ => rfl⟩

/-- Not a mountpoint. -/
theorem umount_of_not_mounted (force : Bool) (ongoing : ℕ → List (FileBase F)) (hmem : (m.find path).isSome = false) :
    ∃ e, e ≠ 0 ∧ e ≠ -EBUSY ∧ m.umount path force ongoing = (e, m) := by
  have hnone : (m.find path).isNone = true := by rw [← Option.not_isSome, hmem, Bool.not_false]
  unfold umount
  split_ifs
  · exact ⟨_, by decide, by decide, rfl⟩
  · exact ⟨_, by decide, by decide, rfl⟩
  · exact ⟨_, by decide, by decide, rfl⟩

/-- The filesystems at a path and below it. -/
def filesystemsBelow (m : FilesystemManager F) (path : List Char) : List F :=
  m.selected fun key => MountedBelow path key

/-- Unmounting is component-wise and atomic. -/
structure UmountSpec (m : FilesystemManager F) (path : List Char) (force : Bool)
    (ongoing : ℕ → List (FileBase F)) (r : ℤ) (m' : FilesystemManager F) : Prop where
  removed : r = 0 → (m.find path).isSome = true ∧
    m'.filesystems = m.filesystems.filter fun e => ¬ MountedBelow path e.1
  closed : r = 0 → List.Forall₂ (List.Forall₂ fun file file' =>
    file' = file ∨ fileIn (m.filesystemsBelow path) file = true) m.fileTables m'.fileTables
  busy : (m.find path).isSome = true → force = false →
    Open m (m.filesystemsBelow path) ∨ Ongoing (m.filesystemsBelow path) (ongoing 0) → r = -EBUSY
  refused : (m.find path).isSome = true → r ≠ 0 → Busy m (m.filesystemsBelow path) force ongoing
  unchanged : r ≠ 0 → force = false → m' = m

theorem Busy.mono {fss' : List F} (h : Busy m fss force ongoing) (hsub : ∀ fs ∈ fss, fs ∈ fss') :
    Busy m fss' force ongoing := by
  have hfile : ∀ file, fileIn fss file = true → fileIn fss' file = true := by
    rintro (_ | ⟨_ | fs⟩) hin
    · cases hin
    · cases hin
    · simp only [fileIn, decide_eq_true_iff] at hin ⊢
      exact hsub fs hin
  have hon : ∀ {files}, Ongoing fss files → Ongoing fss' files := fun ⟨file, hf, hin⟩ => ⟨file, hf, hfile _ hin⟩
  unfold Busy at h ⊢
  split_ifs at h ⊢
  · exact fun i hi => hon (h i hi)
  · exact h.imp (fun ⟨table, ht, file, hf, hin⟩ => ⟨table, ht, file, hf, hfile _ hin⟩) hon

theorem closeFiles_forall₂ (m : FilesystemManager F) (fss : List F) : List.Forall₂
    (List.Forall₂ fun file file' => file' = file ∨ fileIn fss file = true) m.fileTables
      (m.closeFiles fss).fileTables := by
  refine List.forall₂_map_right_iff.2 (List.forall₂_same.2 fun table _ => ?_)
  refine List.forall₂_map_right_iff.2 (List.forall₂_same.2 fun file _ => ?_)
  split_ifs with hin
  · exact Or.inr hin
  · exact Or.inl rfl

/-- **Unmounting** a mountpoint takes the ones below it, and no other one, unless the last component of the
mountpoint goes on in the name of another one; then it is as it should only if the filesystems stay in use. -/
theorem umount_iff (hreach : Reachable m.filesystems) (path : List Char) (force : Bool)
    (ongoing : ℕ → List (FileBase F)) :
    UmountSpec m path force ongoing (m.umount path force ongoing).1 (m.umount path force ongoing).2 ↔
      (m.find path).isSome = false ∨
      (path = ['/'] ∨ ¬ ∃ x t, (m.find (path ++ x :: t)).isSome = true ∧ x ≠ '/') ∨
      Busy m (m.filesystemsBelow path) force ongoing := by
  have htable := hreach.mountTable
  by_cases hmem : (m.find path).isSome = true
  swap
  · rw [Bool.not_eq_true] at hmem
    obtain ⟨e, he, hbusy, hrun⟩ := umount_of_not_mounted force ongoing hmem
    rw [hrun]
    have hno : ¬ (m.find path).isSome = true := by simp [hmem]
    exact ⟨fun _ => Or.inl hmem, fun _ => ⟨fun h => absurd h he, fun h => absurd h he, fun h => absurd h hno,
      fun h => absurd h hno, fun _ _ => rfl⟩⟩
  have hkey := isSome_find.1 hmem
  have hne : path ≠ [] := by
    rintro rfl
    simpa using htable.slash_prefix hkey
  obtain ⟨hrefuse, hdone⟩ := umount_of_mounted force ongoing hne (htable.short path hkey) hmem rfl
  have hbelow : ∀ key ∈ m.filesystems.map Prod.fst, MountedBelow path key → startsWith key path = true := by
    rintro key hk (rfl | rfl | hpre)
    · exact List.isPrefixOf_iff_prefix.2 (htable.slash_prefix hk)
    · exact List.isPrefixOf_iff_prefix.2 List.prefix_rfl
    · exact List.isPrefixOf_iff_prefix.2 ((List.prefix_append _ _).trans hpre)
  have hsub : ∀ fs ∈ m.filesystemsBelow path, fs ∈ m.selected fun key => startsWith key path := by
    intro fs hfs
    obtain ⟨e, he, hsel, rfl⟩ := mem_selected.1 hfs
    exact mem_selected.2 ⟨e, he, hbelow _ (List.mem_map_of_mem he) (of_decide_eq_true hsel), rfl⟩
  have hEBUSY : -EBUSY ≠ 0 := by decide
  -- a refusal is right if the filesystems at and below the path are in use
  have hspec : Busy m (m.filesystemsBelow path) force ongoing →
      UmountSpec m path force ongoing (m.umount path force ongoing).1 (m.umount path force ongoing).2 := by
    intro hbusy
    rw [hrefuse (hbusy.mono hsub)]
    refine ⟨fun h => absurd h hEBUSY, fun h => absurd h hEBUSY, fun _ _ _ => rfl, fun _ _ => hbusy,
      fun _ hf => ?_⟩
    rw [hf, if_neg Bool.false_ne_true]
  rw [← startsWith_imp_iff]
  constructor
  · intro h
    refine Or.inr ?_
    by_contra hno
    obtain ⟨hagree, hbusy⟩ := not_or.1 hno
    push Not at hagree
    obtain ⟨key, hk, hstarts, hkbelow⟩ := hagree
    by_cases hr : (m.umount path force ongoing).1 = 0
    · have hremoved := (h.removed hr).2
      by_cases hbusyS : Busy m (m.selected fun key => startsWith key path) force ongoing
      · rw [hrefuse hbusyS] at hr
        exact absurd hr hEBUSY
      · rw [hdone hbusyS] at hremoved
        obtain ⟨e, he, rfl⟩ := List.mem_map.1 hk
        have hin : e ∈ m.filesystems.filter fun e => ¬ MountedBelow path e.1 :=
          List.mem_filter.2 ⟨he, decide_eq_true hkbelow⟩
        rw [← hremoved] at hin
        have := (List.mem_filter.1 hin).2
        rw [hstarts] at this
        cases this
    · exact hbusy (h.refused hmem hr)
  · rintro (h | hagree | hbusy)
    · exact absurd (h.symm.trans hmem) Bool.false_ne_true
    · by_cases hbusy : Busy m (m.filesystemsBelow path) force ongoing
      · exact hspec hbusy
      have heq : ∀ key ∈ m.filesystems.map Prod.fst, startsWith key path = decide (MountedBelow path key) :=
        fun key hk => Bool.eq_iff_iff.2 ⟨fun h => decide_eq_true (hagree key hk h), fun h =>
          hbelow key hk (of_decide_eq_true h)⟩
      have hfss : (m.selected fun key => startsWith key path) = m.filesystemsBelow path :=
        congrArg (List.map Prod.snd) (List.filter_congr fun e he => heq e.1 (List.mem_map_of_mem he))
      rw [hfss] at hdone
      rw [hdone hbusy]
      refine ⟨fun _ => ⟨hmem, List.filter_congr fun e he => ?_⟩, fun _ => ?_, fun _ hf hopen => ?_,
        fun _ h => absurd rfl h, fun h => absurd rfl h⟩
      · rw [heq e.1 (List.mem_map_of_mem he)]
        exact (decide_not ..).symm
      · dsimp only
        split_ifs
        · exact closeFiles_forall₂ m _
        · exact List.forall₂_same.2 fun table _ => List.forall₂_same.2 fun file _ => Or.inl rfl
      · rw [Busy, if_neg (by rw [hf]; exact Bool.false_ne_true)] at hbusy
        exact absurd hopen hbusy
    · exact hspec hbusy

/-- Unmounting `/a` does not touch `/b`. -/
theorem umount_other :
    let m : FilesystemManager ℕ := ⟨[("/".toList, 0), ("/a".toList, 1), ("/b".toList, 2)], []⟩
    UmountSpec m "/a".toList false (fun _ => []) (m.umount "/a".toList false fun _ => []).1
      (m.umount "/a".toList false fun _ => []).2 := by
  intro m
  have hreach : Reachable m.filesystems := Reachable.mountAll .empty
    (by rfl : mountAll [("/".toList, 0), ("/a".toList, 1), ("/b".toList, 2)] ⟨[], []⟩ = .ok m)
  refine (umount_iff hreach "/a".toList false fun _ => []).2 (Or.inr (Or.inl (Or.inr ?_)))
  rintro ⟨x, t, hkey, -⟩
  rw [isSome_find] at hkey
  simp [m] at hkey

/-- Unmounting `/a` unmounts `/ab` too. -/
theorem umount_sibling :
    let m : FilesystemManager ℕ := ⟨[("/".toList, 0), ("/a".toList, 1), ("/ab".toList, 2)], []⟩
    Reachable m.filesystems ∧
      m.umount "/a".toList false (fun _ => []) = (0, ⟨[("/".toList, 0)], []⟩) ∧
      ¬ UmountSpec m "/a".toList false (fun _ => []) (m.umount "/a".toList false fun _ => []).1
        (m.umount "/a".toList false fun _ => []).2 := by
  intro m
  refine ⟨Reachable.mountAll .empty
    (by rfl : mountAll [("/".toList, 0), ("/a".toList, 1), ("/ab".toList, 2)] ⟨[], []⟩ = .ok m), by rfl, fun h => ?_⟩
  have hremoved := (h.removed (by rfl)).2
  have hrun : m.umount "/a".toList false (fun _ => []) = (0, ⟨[("/".toList, 0)], []⟩) := by rfl
  rw [hrun] at hremoved
  exact absurd hremoved (by decide)

end Umount

end FilesystemManager

end Miosix
