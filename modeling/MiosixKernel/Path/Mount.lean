import MiosixKernel.Path.Links

/-!
# Mounted filesystems

`FilesystemManager` keeps the mounted filesystems and all the descriptor tables, and is where the operations
on paths go through.

* `kmount`, `umount`: the mount table changes;
* `unlinkHelper`, `renameHelper`, `mkdir`, `rmdir`: the call of a filesystem that an operation ends with;
* `Reachable`, `MountTable`: the mount tables that there can be.
-/

namespace Miosix

open Lib PathResolution

/-- The functions of the filesystems that path resolution calls. -/
structure FilesystemCalls (F : Type) where
  supportsSymlinks : F → Bool
  lstat : F → List Char → ℤ × FileType
  readlink : F → List Char → ℤ × List Char

/-- An open file. Devices are not in a filesystem. -/
structure FileBase (F : Type) where
  parent : Option F

/-- The descriptor table of a process. -/
abbrev FileDescriptorTable (F : Type) := List (Option (FileBase F))

structure FilesystemManager (F : Type) where
  filesystems : List (List Char × F)
  fileTables : List (FileDescriptorTable F)

namespace FilesystemManager

variable {F : Type} (calls : FilesystemCalls F) (fuel : ℕ)

def find (m : FilesystemManager F) (path : List Char) : Option F := m.filesystems.lookup path

/-- What path resolution works on. -/
def env (m : FilesystemManager F) : Filesystems F :=
  ⟨m.find, calls.supportsSymlinks, calls.lstat, calls.readlink⟩

def resolvePath (m : FilesystemManager F) (path : List Char) (followLastSymlink : Bool) :
    Except PathFault (List Char × ResolvedPath F) :=
  (m.env calls).resolvePath fuel path followLastSymlink

/-- The result, and the path in canonical form. -/
def statHelper (m : FilesystemManager F) (path : List Char) (f : Bool) :
    Except PathFault (ℤ × FileType × List Char) := do
  let (path, openData) ← m.resolvePath calls fuel path f
  match openData.fs with
  | some fs =>
    if openData.result < 0 then return (openData.result, .other, path)
    let (result, st) := calls.lstat fs (path.drop openData.off)
    return (result, st, path)
  | none => return (openData.result, .other, path)

/-- A path that is a null pointer is the empty string. -/
def kmount (m : FilesystemManager F) (path : List Char) (fs : Option F) :
    Except PathFault (ℤ × FilesystemManager F) := do
  match path, fs with
  | [], _ => return (-EFAULT, m)
  | _, none => return (-EFAULT, m)
  | path, some fs =>
    if path.length > PATH_MAX then return (-ENAMETOOLONG, m)
    -- skip check when mounting /
    if path = ['/'] ∧ m.filesystems = [] then
      return (0, { m with filesystems := [(path, fs)] })
    let (result, st, temp) ← m.statHelper calls fuel path false
    if result ≠ 0 then return (result, m)
    if st ≠ .directory then return (-ENOTDIR, m)
    let (result, _, _) ← m.statHelper calls fuel (temp ++ ['/', '.', '.']) false
    if result ≠ 0 then return (result, m)
    if (m.find temp).isSome then return (-EBUSY, m)
    return (0, { m with filesystems := m.filesystems ++ [(temp, fs)] })

/-! ## Unmounting -/

/-- `StringPart::startsWith` -/
def startsWith (s rhs : List Char) : Bool := rhs.isPrefixOf s

/-- The filesystems at the keys that `sel` picks. -/
def selected (m : FilesystemManager F) (sel : List Char → Bool) : List F :=
  (m.filesystems.filter fun e => sel e.1).map Prod.snd

section Files

variable [DecidableEq F]

/-- Look into a descriptor for a file of the filesystems to umount, and close it if forced. -/
def closeEntry (fsToUmount : List F) (force : Bool) (file : Option (FileBase F)) :
    Except ℤ (Option (FileBase F)) :=
  match file with
  | none => .ok none
  | some file =>
    match file.parent with
    | none => .ok (some file)
    | some fs =>
      if fs ∉ fsToUmount then .ok (some file)
      else if force = false then .error (-EBUSY)
      else .ok none

/-- `areAllFilesClosed`: files that are in no descriptor table can be in use by an operation. -/
def areAllFilesClosed (tables : List (FileDescriptorTable F)) (ongoing : List (FileBase F)) (fs : F) : Bool :=
  ongoing.all (fun file => file.parent ≠ some fs) &&
    tables.all (fun table => table.all fun file => file.all fun file => file.parent ≠ some fs)

def maxRetry : ℕ := 3

/-- From the `i`-th check on; `ongoing i` are the files in use by operations at that time. -/
def retry (tables : List (FileDescriptorTable F)) (fsToUmount : List F) (force : Bool)
    (ongoing : ℕ → List (FileBase F)) (i : ℕ) : ℕ → Except ℤ Unit
  | 0 => .ok ()
  | left + 1 =>
    if fsToUmount.all (areAllFilesClosed tables (ongoing i)) then .ok ()
    else if force = false then .error (-EBUSY)
    else if left = 0 then .error (-EBUSY)
    else retry tables fsToUmount force ongoing (i + 1) left

/-- A path that is a null pointer is the empty string. -/
def umount (m : FilesystemManager F) (path : List Char) (force : Bool) (ongoing : ℕ → List (FileBase F)) :
    ℤ × FilesystemManager F :=
  if path = [] then (-ENOENT, m)
  else if path.length > PATH_MAX then (-ENAMETOOLONG, m)
  else if (m.find path).isNone then (-EINVAL, m)
  else
    let fsToUmount := m.selected fun key => startsWith key path
    match m.fileTables.mapM fun table => table.mapM (closeEntry fsToUmount force) with
    | .error e => (e, m)
    | .ok fileTables =>
      match retry fileTables fsToUmount force ongoing 0 maxRetry with
      | .error e => (e, { m with fileTables := fileTables })
      | .ok () => (0, ⟨m.filesystems.filter fun e => !startsWith e.1 path, fileTables⟩)

end Files

/-! ## Operations on paths -/

def unlinkHelper (m : FilesystemManager F) (path : List Char) : Except PathFault (Except ℤ (F × List Char)) := do
  let (path, openData) ← m.resolvePath calls fuel path true
  match openData.fs with
  | some fs =>
    if openData.result < 0 then return .error openData.result
    if (m.find path).isSome then return .error (-EBUSY)
    return .ok (fs, path.drop openData.off)
  | none => return .error openData.result

def renameHelper [DecidableEq F] (m : FilesystemManager F) (oldPath newPath : List Char) :
    Except PathFault (Except ℤ (F × List Char × List Char)) := do
  let (oldPath, oldOpenData) ← m.resolvePath calls fuel oldPath true
  if oldOpenData.result < 0 then return .error oldOpenData.result
  let (newPath, newOpenData) ← m.resolvePath calls fuel newPath true
  if newOpenData.result < 0 then return .error newOpenData.result
  match oldOpenData.fs with
  | some fs =>
    if newOpenData.fs ≠ some fs then return .error (-EXDEV)
    if (m.find oldPath).isSome then return .error (-EBUSY)
    if (m.find newPath).isSome then return .error (-EBUSY)
    let oldSp := oldPath.drop oldOpenData.off
    let newSp := newPath.drop newOpenData.off
    if startsWith newSp oldSp then return .error (-EINVAL)
    return .ok (fs, oldSp, newSp)
  | none => return .error oldOpenData.result

/-- `FileDescriptorTable::absolutePath`, which is empty if the path is too long. -/
def absolutePath (cwd path : List Char) : List Char :=
  if path.length > PATH_MAX then []
  else if path[0]? = some '/' then path
  else if path.length + cwd.length > PATH_MAX then []
  else cwd ++ path

/-- `FileDescriptorTable::mkdir` and `rmdir`: the call of the filesystem. -/
def directoryCall (m : FilesystemManager F) (cwd name : List Char) :
    Except PathFault (Except ℤ (F × List Char)) := do
  if name = [] then return .error (-EFAULT)
  let path := absolutePath cwd name
  if path = [] then return .error (-ENAMETOOLONG)
  let (path, openData) ← m.resolvePath calls fuel path true
  match openData.fs with
  | some fs =>
    if openData.result < 0 then return .error openData.result
    return .ok (fs, path.drop openData.off)
  | none => return .error openData.result

def mkdir (m : FilesystemManager F) (cwd name : List Char) := m.directoryCall calls fuel cwd name

def rmdir (m : FilesystemManager F) (cwd name : List Char) := m.directoryCall calls fuel cwd name

def unlink (m : FilesystemManager F) (cwd name : List Char) : Except PathFault (Except ℤ (F × List Char)) := do
  if name = [] then return .error (-EFAULT)
  let path := absolutePath cwd name
  if path = [] then return .error (-ENAMETOOLONG)
  m.unlinkHelper calls fuel path

def rename [DecidableEq F] (m : FilesystemManager F) (cwd oldName newName : List Char) :
    Except PathFault (Except ℤ (F × List Char × List Char)) := do
  if oldName = [] then return .error (-EFAULT)
  if newName = [] then return .error (-EFAULT)
  let oldPath := absolutePath cwd oldName
  let newPath := absolutePath cwd newName
  if oldPath = [] ∨ newPath = [] then return .error (-ENAMETOOLONG)
  m.renameHelper calls fuel oldPath newPath

/-! ## Reachable mount tables -/

/-- From the empty table, by any calls of `kmount` and `umount`, whatever the filesystems answer and whichever
files are open. -/
inductive Reachable [DecidableEq F] : List (List Char × F) → Prop
  | empty : Reachable []
  | kmount {m m' : FilesystemManager F} {calls : FilesystemCalls F} {fuel : ℕ} {path : List Char}
      {fs : Option F} {r : ℤ} : Reachable m.filesystems → enoughFuel ≤ fuel →
      m.kmount calls fuel path fs = .ok (r, m') → Reachable m'.filesystems
  | umount {m m' : FilesystemManager F} {path : List Char} {force : Bool} {ongoing : ℕ → List (FileBase F)}
      {r : ℤ} : Reachable m.filesystems → m.umount path force ongoing = (r, m') → Reachable m'.filesystems

/-- Every key is `/` or a canonical path, and only once, and `/` is the first to be mounted. -/
structure MountTable (table : List (List Char × F)) : Prop where
  nodup : (table.map Prod.fst).Nodup
  root : table ≠ [] → ['/'] ∈ table.map Prod.fst
  key : ∀ key ∈ table.map Prod.fst, key = ['/'] ∨ ∃ cs, cs ≠ [] ∧ Canonical cs ∧ key = join '/' cs
  short : ∀ key ∈ table.map Prod.fst, key.length ≤ PATH_MAX

theorem isSome_find {m : FilesystemManager F} {path : List Char} :
    (m.find path).isSome = true ↔ path ∈ m.filesystems.map Prod.fst := by
  rw [find, List.lookup_isSome_iff]
  simp

variable {calls fuel} {m m' : FilesystemManager F} {path temp : List Char} {r : ℤ} {st : FileType}

/-- `statHelper` succeeds with a canonical path. -/
theorem statHelper_spec {f : Bool} (hfuel : enoughFuel ≤ fuel)
    (h : m.statHelper calls fuel path f = .ok (0, st, temp)) :
    ∃ root cs k, m.find ['/'] = some root ∧ Canonical cs ∧ (join '/' cs).length ≤ PATH_MAX ∧ k ≤ cs.length ∧
      (k = 0 ∨ (m.find (join '/' (cs.take k))).isSome = true) ∧ temp = join '/' cs ∧
      m.resolvePath calls fuel path f = .ok (resolved (m.env calls) root cs k) ∧
      calls.lstat (fsAt (m.env calls) root cs k) (relativePath cs k) = (0, st) := by
  obtain ⟨q, hrun, hq⟩ := resolvePath_total (m.env calls) path fuel hfuel f
  have hrun' : m.resolvePath calls fuel path f = .ok q := hrun
  simp only [statHelper, hrun', ok_bind, pure_eq_ok] at h
  have hres : ¬ q.2.result < 0 := by
    intro hneg
    cases hfs : q.2.fs with
    | some fs =>
      simp only [hfs, if_pos hneg, Except.ok.injEq, Prod.mk.injEq] at h
      omega
    | none =>
      simp only [hfs, Except.ok.injEq, Prod.mk.injEq] at h
      omega
  obtain ⟨root, hroot, hneg | ⟨cs, k, hcs, hlen, hk, hmount, rfl⟩⟩ := hq.resolve_left hres
  · exact absurd hneg hres
  · refine ⟨root, cs, k, hroot, hcs, hlen, hk, hmount, ?_, hrun', ?_⟩
    · simp only [resolved, lt_irrefl, if_false, Except.ok.injEq, Prod.mk.injEq] at h
      exact h.2.2.symm
    · have hdrop := drop_resolved (m.env calls) root cs k
      simp only [resolved, lt_irrefl, if_false, Except.ok.injEq, Prod.mk.injEq] at h hdrop
      rw [hdrop] at h
      exact Prod.ext h.1 h.2.1

/-- The root has no directory above it. -/
theorem resolvePath_root_up (calls : FilesystemCalls F) (f : Bool) (hfuel : enoughFuel ≤ fuel) (hroot : (m.find ['/']).isSome = true) :
    ∃ path, m.resolvePath calls fuel ['/', '.', '.'] f = .ok (path, .error (-ENOENT)) := by
  obtain ⟨root, hroot⟩ := Option.isSome_iff_exists.1 hroot
  have hroot' : (m.env calls).filesystems ['/'] = some root := hroot
  obtain ⟨n, rfl⟩ : ∃ n, fuel = n + 1 := ⟨fuel - 1, by unfold enoughFuel at hfuel; omega⟩
  have hat := at_start (m.env calls) root ['.', '.']
  have hpass : pass (m.env calls) (n + 1) f _ = _ := pass_error hat (component_root hat) (by decide)
  have hshort : ¬ ['/', '.', '.'].length > PATH_MAX := by decide
  refine ⟨['/', '.', '.'], ?_⟩
  rw [resolvePath, Filesystems.resolvePath, if_neg hshort, if_neg (by simp), PathResolution.resolvePath, hroot']
  exact forever_done hpass

/-- What `kmount` does. -/
theorem kmount_cases {fs : Option F} (hfuel : enoughFuel ≤ fuel)
    (h : m.kmount calls fuel path fs = .ok (r, m')) :
    m' = m ∨ (∃ fs, m.filesystems = [] ∧ m' = { m with filesystems := [(['/'], fs)] }) ∨
      ∃ root cs k fs, m.find ['/'] = some root ∧ Canonical cs ∧ cs ≠ [] ∧ (join '/' cs).length ≤ PATH_MAX ∧
        k ≤ cs.length ∧ (k = 0 ∨ (m.find (join '/' (cs.take k))).isSome = true) ∧
        m.resolvePath calls fuel path false = .ok (resolved (m.env calls) root cs k) ∧
        calls.lstat (fsAt (m.env calls) root cs k) (relativePath cs k) = (0, .directory) ∧
        m.find (join '/' cs) = none ∧
        m' = { m with filesystems := m.filesystems ++ [(join '/' cs, fs)] } := by
  cases path with
  | nil => exact Or.inl (Prod.mk.inj (Except.ok.inj h)).2.symm
  | cons c path =>
    cases fs with
    | none => exact Or.inl (Prod.mk.inj (Except.ok.inj h)).2.symm
    | some fs =>
      unfold kmount at h
      dsimp only at h
      split_ifs at h with hlong hroot
      · exact Or.inl (Prod.mk.inj (Except.ok.inj h)).2.symm
      · refine Or.inr (Or.inl ⟨fs, hroot.2, ?_⟩)
        rw [← hroot.1]
        exact (Prod.mk.inj (Except.ok.inj h)).2.symm
      · have hsame : ∀ {r' : ℤ} {m'' : FilesystemManager F}, (pure (r', m'') : Except PathFault _) = .ok (r, m') →
            m' = m'' := fun h => (Prod.mk.inj (Except.ok.inj h)).2.symm
        cases hstat : m.statHelper calls fuel (c :: path) false with
        | error e => simp [hstat, bind, Except.bind] at h
        | ok answer =>
          obtain ⟨result, st, temp⟩ := answer
          rw [hstat, ok_bind] at h
          dsimp only at h
          by_cases hres : result = 0
          swap
          · rw [if_pos hres] at h
            exact Or.inl (hsame h)
          by_cases hdir : st = .directory
          swap
          · rw [if_neg (not_not.2 hres), if_pos hdir] at h
            exact Or.inl (hsame h)
          rw [if_neg (not_not.2 hres), if_neg (not_not.2 hdir)] at h
          subst hres hdir
          obtain ⟨root, cs, k, hroot, hcs, hlen, hk, hmount, rfl, hrun, hlstat⟩ := statHelper_spec hfuel hstat
          cases hparent : m.statHelper calls fuel (join '/' cs ++ ['/', '.', '.']) false with
          | error e => simp [hparent, bind, Except.bind] at h
          | ok answer =>
            obtain ⟨result, st, temp⟩ := answer
            rw [hparent, ok_bind] at h
            dsimp only at h
            split_ifs at h with hres hbusy
            · exact Or.inl (hsame h)
            · exact Or.inl (hsame h)
            · obtain rfl := not_not.1 hres
              refine Or.inr (Or.inr ⟨root, cs, k, fs, hroot, hcs, ?_, hlen, hk, hmount, hrun, hlstat,
                Option.not_isSome_iff_eq_none.1 hbusy, hsame h⟩)
              rintro rfl
              obtain ⟨root', cs', k', -, -, -, -, -, -, hrun', -⟩ := statHelper_spec hfuel hparent
              obtain ⟨path', hup⟩ := resolvePath_root_up calls false hfuel
                (by rw [hroot]; rfl : (m.find ['/']).isSome = true)
              have heq := (Prod.mk.inj (Except.ok.inj (hup.symm.trans hrun'))).2
              simp [ResolvedPath.error] at heq

/-- What `umount` leaves in the mount table. -/
theorem umount_filesystems [DecidableEq F] {force : Bool} {ongoing : ℕ → List (FileBase F)}
    (h : m.umount path force ongoing = (r, m')) : m'.filesystems = m.filesystems ∨
      path ∈ m.filesystems.map Prod.fst ∧ path ≠ [] ∧
        m'.filesystems = m.filesystems.filter fun e => !startsWith e.1 path := by
  unfold umount at h
  split_ifs at h with hempty hlong hnone
  · exact Or.inl (by rw [← (Prod.mk.inj h).2])
  · exact Or.inl (by rw [← (Prod.mk.inj h).2])
  · exact Or.inl (by rw [← (Prod.mk.inj h).2])
  · have hmem : path ∈ m.filesystems.map Prod.fst := by
      rw [← isSome_find, Option.isSome_iff_ne_none]
      simpa using hnone
    dsimp only at h
    split at h
    · exact Or.inl (by rw [← (Prod.mk.inj h).2])
    · split at h
      · exact Or.inl (by rw [← (Prod.mk.inj h).2])
      · exact Or.inr ⟨hmem, hempty, by rw [← (Prod.mk.inj h).2]⟩

namespace MountTable

variable {table : List (List Char × F)} {key : List Char}

theorem nil : MountTable ([] : List (List Char × F)) :=
  ⟨List.nodup_nil, fun h => absurd rfl h, nofun, nofun⟩

theorem singleton (fs : F) : MountTable [(['/'], fs)] :=
  ⟨by simp, fun _ => by simp, fun key h => Or.inl (by simpa using h), fun key h => by
    obtain rfl : key = ['/'] := by simpa using h
    decide⟩

theorem concat {cs : List (List Char)} (h : MountTable table) (hroot : ['/'] ∈ table.map Prod.fst)
    (hcs : Canonical cs) (hne : cs ≠ []) (hlen : (join '/' cs).length ≤ PATH_MAX)
    (hnew : join '/' cs ∉ table.map Prod.fst) (fs : F) : MountTable (table ++ [(join '/' cs, fs)]) := by
  have hkeys : (table ++ [(join '/' cs, fs)]).map Prod.fst = table.map Prod.fst ++ [join '/' cs] := by simp
  refine ⟨?_, fun _ => ?_, fun key hkey => ?_, fun key hkey => ?_⟩
  · rw [hkeys]
    refine List.nodup_append.2 ⟨h.nodup, List.pairwise_singleton _ _, fun a ha b hb heq => hnew ?_⟩
    rw [← List.mem_singleton.1 hb, ← heq]
    exact ha
  · rw [hkeys]
    exact List.mem_append_left _ hroot
  · rw [hkeys] at hkey
    obtain hkey | hkey := List.mem_append.1 hkey
    · exact h.key key hkey
    · exact Or.inr ⟨cs, hne, hcs, List.mem_singleton.1 hkey⟩
  · rw [hkeys] at hkey
    obtain hkey | hkey := List.mem_append.1 hkey
    · exact h.short key hkey
    · exact List.mem_singleton.1 hkey ▸ hlen

/-- Every key starts with `/`. -/
theorem slash_prefix (h : MountTable table) (hkey : key ∈ table.map Prod.fst) : ['/'] <+: key := by
  obtain rfl | ⟨cs, hne, -, rfl⟩ := h.key key hkey
  · exact List.prefix_rfl
  · exact singleton_isPrefix_join hne

theorem filter (h : MountTable table) (hne : path ≠ []) (hpath : path ∈ table.map Prod.fst) :
    MountTable (table.filter fun e => !startsWith e.1 path) := by
  have hsub : ∀ key ∈ (table.filter fun e => !startsWith e.1 path).map Prod.fst, key ∈ table.map Prod.fst :=
    fun key hkey => (List.filter_sublist.map Prod.fst).subset hkey
  refine ⟨h.nodup.sublist (List.filter_sublist.map _), fun hleft => ?_, fun key hkey => h.key key (hsub key hkey),
    fun key hkey => h.short key (hsub key hkey)⟩
  have htable : table ≠ [] := by
    rintro rfl
    exact hleft rfl
  obtain ⟨e, he, heq⟩ := List.mem_map.1 (h.root htable)
  refine List.mem_map.2 ⟨e, List.mem_filter.2 ⟨he, ?_⟩, heq⟩
  rw [heq, Bool.not_eq_true', startsWith, ← Bool.not_eq_true, List.isPrefixOf_iff_prefix]
  intro hprefix
  -- all the filesystems are umounted with /
  obtain rfl : path = ['/'] := by
    obtain ⟨c, path, rfl⟩ := List.exists_cons_of_ne_nil hne
    obtain ⟨rfl, hp⟩ := List.cons_prefix_cons.1 hprefix
    rw [List.prefix_nil.1 hp]
  refine hleft (List.filter_eq_nil_iff.2 fun e he => ?_)
  have := h.slash_prefix (List.mem_map_of_mem he)
  simpa [startsWith, List.isPrefixOf_iff_prefix] using this

end MountTable

/-- **The mount table**, in every state. -/
theorem Reachable.mountTable [DecidableEq F] {table : List (List Char × F)} (h : Reachable table) :
    MountTable table := by
  induction h with
  | empty => exact .nil
  | kmount _ hfuel heq ih =>
    obtain rfl | ⟨fs, -, rfl⟩ | ⟨root, cs, k, fs, hroot, hcs, hne, hlen, -, -, -, -, hnew, rfl⟩ :=
      kmount_cases hfuel heq
    · exact ih
    · exact .singleton fs
    · refine ih.concat (isSome_find.1 (by rw [hroot]; rfl)) hcs hne hlen ?_ fs
      rw [← isSome_find, hnew]
      simp
  | umount _ heq ih =>
    obtain hsame | ⟨hmem, hne, heq⟩ := umount_filesystems heq
    · rwa [hsame]
    · rw [heq]
      exact ih.filter hne hmem

/-- Filesystems where every name is a directory. -/
def onlyDirectories : FilesystemCalls ℕ := ⟨fun _ => false, fun _ _ => (0, .directory), fun _ _ => (0, [])⟩

/-- Mounts one after the other. -/
def mountAll : List (List Char × ℕ) → FilesystemManager ℕ → Except PathFault (FilesystemManager ℕ)
  | [], m => .ok m
  | (path, fs) :: mounts, m => do
    let (_, m) ← m.kmount onlyDirectories enoughFuel path (some fs)
    mountAll mounts m

theorem Reachable.mountAll {mounts : List (List Char × ℕ)} {m m' : FilesystemManager ℕ}
    (hm : Reachable m.filesystems) (h : mountAll mounts m = .ok m') : Reachable m'.filesystems := by
  induction mounts generalizing m with
  | nil => exact Except.ok.inj h ▸ hm
  | cons mount mounts ih =>
    cases hrun : m.kmount onlyDirectories enoughFuel mount.1 (some mount.2) with
    | error e => simp [FilesystemManager.mountAll, hrun, bind, Except.bind] at h
    | ok result =>
      simp only [FilesystemManager.mountAll, hrun, ok_bind] at h
      exact ih (hm.kmount le_rfl hrun) h

/-- With filesystems at `/`, `/a` and `/a/b`, the path `/a/b/..` is looked for in that at `/`. -/
theorem resolvePath_wrong_filesystem : ∃ m : FilesystemManager ℕ, Reachable m.filesystems ∧
    ∃ path resolved, m.resolvePath onlyDirectories enoughFuel "/a/b/..".toList true = .ok (path, resolved) ∧
      canonicalForm [] ("a/b/..".toList.splitOn '/') = some ["a".toList] ∧ resolved.result = 0 ∧
      ¬ Selects (m.env onlyDirectories) ["a".toList] path resolved := by
  have hmounts : mountAll [("/".toList, 0), ("/a".toList, 1), ("/a/b".toList, 2)] ⟨[], []⟩ =
      .ok ⟨[("/".toList, 0), ("/a".toList, 1), ("/a/b".toList, 2)], []⟩ := by rfl
  refine ⟨_, Reachable.mountAll (.empty) hmounts, "/a".toList, ⟨0, some 0, 1⟩, by rfl, by decide, rfl, ?_⟩
  rintro ⟨k, fs, hmount, hfs, -⟩
  obtain rfl : 0 = fs := Option.some.inj hfs
  have hk : k ≤ 1 := hmount.le
  obtain rfl | rfl : k = 0 ∨ k = 1 := by omega
  · exact absurd (hmount.longest 1 one_pos le_rfl) (by decide)
  · exact absurd hmount.mounted (by decide)

end FilesystemManager

end Miosix
