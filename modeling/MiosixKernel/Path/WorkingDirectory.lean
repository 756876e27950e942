import MiosixKernel.Path.Mount
import Mathlib.Data.List.GetD
import Mathlib.Data.List.TakeWhile

/-!
# The working directory

A descriptor table keeps the working directory as a canonical path with a `/` after it, so that a relative
path can be appended.

* `getcwd`, `chdir`: the calls, with the characters that `getcwd` stores;
* `IsCwd`, `shown`: what a working directory can be, and the string that stands for it;
* `chdir_spec`, `getcwd_spec`, `chdir_shown`: one call;
* **`run_workingDirectory`**: every sequence of calls.
-/

namespace Miosix

open Lib PathResolution

def nul : Char := '\x00'

/-- A string of the caller. -/
structure CString where
  chars : List Char
  noNul : nul ∉ chars

/-- The characters that are stored, in order, each with its address. -/
abbrev Stores := List (ℕ × Char)

/-- `strncpy` pads the string with NUL characters. -/
def strncpy (dest : ℕ) (src : List Char) (len : ℕ) : Stores :=
  (List.range len).map fun i => (dest + i, (src.takeWhile (· ≠ nul)).getD i nul)

/-- The memory after the characters are stored. -/
def Stores.apply (ws : Stores) (mem : ℕ → Char) : ℕ → Char :=
  ws.foldl (fun mem w => Function.update mem w.1 w.2) mem

namespace FilesystemManager

variable {F : Type} (calls : FilesystemCalls F) (fuel : ℕ)

/-- `FileDescriptorTable::statImpl` -/
def statImpl (m : FilesystemManager F) (cwd name : List Char) (f : Bool) :
    Except PathFault (ℤ × FileType × List Char) :=
  if name = [] then .ok (-EFAULT, .other, name)
  else if absolutePath cwd name = [] then .ok (-ENAMETOOLONG, .other, name)
  else m.statHelper calls fuel (absolutePath cwd name) f

/-- `FileDescriptorTable::getcwd`, where `buf` can be a null pointer. -/
def getcwd (m : FilesystemManager F) (cwd : List Char) (buf : Option ℕ) (len : ℕ) :
    Except PathFault (ℤ × Stores) :=
  match buf with
  | none => .ok (-EINVAL, [])
  | some buf => do
    if len < 2 then return (-EINVAL, [])
    let (result, st, _) ← m.statImpl calls fuel cwd ['.'] true
    if result ≠ 0 ∨ st ≠ .directory then return (-ENOENT, [])
    if cwd.length > len then return (-ERANGE, [])
    -- erase the last /
    let last := if cwd.length > 1 then [(buf + (cwd.length - 1), nul)] else []
    return (0, strncpy buf cwd len ++ last)

/-- The length that `chdir` reserves, with room for a `/` at the end. -/
def reservedLength (cwd name : List Char) : ℕ :=
  let len := if name.getLast? = some '/' then name.length else name.length + 1
  if name[0]? = some '/' then len else len + cwd.length

/-- The path that `chdir` resolves. -/
def newCwd (cwd name : List Char) : List Char := if name[0]? = some '/' then name else cwd ++ name

/-- `FileDescriptorTable::chdir`: the result, and the working directory. The `StringPart` of the new one that
is still alive when the `/` is appended is not used any more. -/
def chdir (m : FilesystemManager F) (cwd name : List Char) : Except PathFault (ℤ × List Char) := do
  if name = [] then return (-EFAULT, cwd)
  if reservedLength cwd name > PATH_MAX then return (-ENAMETOOLONG, cwd)
  let (newCwd, openData) ← m.resolvePath calls fuel (newCwd cwd name) true
  match openData.fs with
  | none => return (openData.result, cwd)
  | some fs =>
    if openData.result < 0 then return (openData.result, cwd)
    let answer := calls.lstat fs (newCwd.drop openData.off)
    if answer.1 ≠ 0 then return (answer.1, cwd)
    if answer.2 ≠ .directory then return (-ENOTDIR, cwd)
    return (0, newCwd ++ ['/'])

end FilesystemManager

open FilesystemManager

/-! ## The specification -/

/-- The root, or a canonical path followed by a `/`. -/
structure IsCwd (cwd : List Char) : Prop where
  canonical : cwd = ['/'] ∨ ∃ cs, cs ≠ [] ∧ Canonical cs ∧ cwd = join '/' cs ++ ['/']
  short : cwd.length ≤ PATH_MAX
  noNul : nul ∉ cwd

/-- The working directory, as the caller of `getcwd` sees it. -/
def shown (cwd : List Char) : List Char := if cwd = ['/'] then cwd else cwd.dropLast

/-- The filesystems during a call. -/
structure MountEnv (F : Type) [DecidableEq F] where
  manager : FilesystemManager F
  calls : FilesystemCalls F
  reachable : Reachable manager.filesystems
  noSymlinks : NoSymlinks (manager.env calls)

variable {F : Type} [DecidableEq F]

namespace MountEnv

variable (env : MountEnv F)

abbrev filesystems : Filesystems F := env.manager.env env.calls

def getcwd (fuel : ℕ) (cwd : List Char) (buf : Option ℕ) (len : ℕ) : Except PathFault (ℤ × Stores) :=
  env.manager.getcwd env.calls fuel cwd buf len

def chdir (fuel : ℕ) (cwd name : List Char) : Except PathFault (ℤ × List Char) :=
  env.manager.chdir env.calls fuel cwd name

/-- The filesystem that the directory is in knows it. -/
def DirectoryExists (cwd : List Char) : Prop :=
  ∃ cs k fs, Canonical cs ∧ cwd = join '/' cs ++ ['/'] ∧ MountedAt env.filesystems cs k fs ∧
    env.calls.lstat fs (relativePath cs k) = (0, .directory)

end MountEnv

/-- A call, and the filesystems during it. -/
inductive CwdCall (F : Type) [DecidableEq F] where
  | chdir (env : MountEnv F) (name : CString)
  | getcwd (env : MountEnv F) (buf : Option ℕ) (len : ℕ)

def CwdCall.run (fuel : ℕ) (cwd : List Char) : CwdCall F → Except PathFault (List Char)
  | chdir env name => do
    let (_, cwd) ← env.chdir fuel cwd name.chars
    return cwd
  | getcwd env buf len => do
    let _ ← env.getcwd fuel cwd buf len
    return cwd

/-- A sequence of calls. -/
def runCalls (fuel : ℕ) (cwd : List Char) : List (CwdCall F) → Except PathFault (List Char)
  | [] => .ok cwd
  | c :: cs => do
    let cwd ← c.run fuel cwd
    runCalls fuel cwd cs

/-- What the next call does, whatever it is. -/
structure CwdRight (F : Type) [DecidableEq F] (fuel : ℕ) (cwd : List Char) : Prop where
  isCwd : IsCwd cwd
  /-- A `chdir` that fails leaves the working directory unchanged. -/
  fails : ∀ (env : MountEnv F) (name : CString) r cwd', env.chdir fuel cwd name.chars = .ok (r, cwd') → r ≠ 0 →
    cwd' = cwd
  /-- Nothing is stored outside of the buffer. -/
  inside : ∀ (env : MountEnv F) buf len r ws, env.getcwd fuel cwd buf len = .ok (r, ws) →
    ∀ w ∈ ws, ∃ b, buf = some b ∧ b ≤ w.1 ∧ w.1 < b + len
  /-- The buffer holds the string, and a NUL character after it. -/
  holds : ∀ (env : MountEnv F) buf len ws, env.getcwd fuel cwd buf len = .ok (0, ws) →
    ∃ b, buf = some b ∧ ∀ mem, shown cwd ++ [nul] <+: (List.range len).map fun i => ws.apply mem (b + i)
  found : ∀ (env : MountEnv F) buf len ws, env.getcwd fuel cwd buf len = .ok (0, ws) → env.DirectoryExists cwd
  /-- Going to the string that `getcwd` returns. -/
  again : ∀ env : MountEnv F, env.DirectoryExists cwd → env.chdir fuel cwd (shown cwd) = .ok (0, cwd)

/-! ## Strings -/

section Strings

variable {cs ds pre rest : List (List Char)} {cwd name t : List Char}

theorem IsCwd.components (h : IsCwd cwd) : ∃ cs, Canonical cs ∧ cwd = join '/' cs ++ ['/'] := by
  obtain rfl | ⟨cs, -, hcs, rfl⟩ := h.canonical
  · exact ⟨[], .nil, rfl⟩
  · exact ⟨cs, hcs, rfl⟩

theorem isCwd_of_components (hcs : Canonical cs) (hlen : (join '/' cs ++ ['/']).length ≤ PATH_MAX)
    (hnul : nul ∉ join '/' cs) : IsCwd (join '/' cs ++ ['/']) where
  canonical := by
    by_cases hne : cs = []
    · subst hne
      exact .inl rfl
    · exact .inr ⟨cs, hne, hcs, rfl⟩
  short := hlen
  noNul := by
    simp only [List.mem_append, List.mem_singleton, not_or]
    exact ⟨hnul, by decide⟩

/-- The components of a working directory are those of what is shown, or one that is empty. -/
theorem shown_eq (hcs : Canonical cs) : shown (join '/' cs ++ ['/']) = join '/' (orLast cs) := by
  unfold shown orLast
  by_cases hne : cs = []
  · subst hne
    rfl
  · have hjoin : join '/' cs ≠ [] := mt join_eq_nil_iff.1 hne
    rw [if_neg hne, if_neg (by simpa using hjoin), List.dropLast_concat]

theorem getLast?_join (hcs : Canonical cs) : (join '/' cs).getLast? ≠ some '/' := by
  obtain rfl | ⟨init, x, rfl⟩ := List.eq_nil_or_concat' cs
  · nofun
  · obtain ⟨hx, -, -, hfree⟩ := hcs x (by simp)
    rw [join_append, join_cons, join_nil, List.append_nil, List.getLast?_append, List.getLast?_cons,
      List.getLast?_eq_some_getLast hx]
    intro hlast
    exact hfree (Option.some.inj hlast ▸ List.getLast_mem hx)

/-- What is shown is not longer, and `chdir` reserves room for the working directory. -/
theorem reservedLength_shown (cwd : List Char) (hcs : Canonical cs) : (join '/' (orLast cs)).length ≤ (join '/' cs ++ ['/']).length ∧
    reservedLength cwd (join '/' (orLast cs)) = (join '/' cs ++ ['/']).length := by
  by_cases hne : cs = []
  · subst hne
    exact ⟨le_rfl, rfl⟩
  · obtain ⟨c, ds, rfl⟩ := List.exists_cons_of_ne_nil hne
    have hfirst : (join '/' (c :: ds))[0]? = some '/' := by
      rw [join_cons]
      rfl
    rw [orLast_of_ne hne, reservedLength, if_neg (getLast?_join hcs), if_pos hfirst, List.length_append]
    exact ⟨Nat.le_add_right _ _, rfl⟩

/-- A path with some components. -/
theorem splitOn_of_join (hds : ds ≠ []) (hfree : ∀ d ∈ ds, '/' ∉ d) :
    ∃ t, join '/' ds = '/' :: t ∧ t.splitOn '/' = ds := by
  obtain ⟨d, ds, rfl⟩ := List.exists_cons_of_ne_nil hds
  exact ⟨d ++ join '/' ds, join_cons, splitOn_append_join hfree⟩

theorem canonicalForm_concat_nil : canonicalForm cs (pre ++ [[]]) = canonicalForm cs pre := by
  induction pre generalizing cs with
  | nil => simp [canonicalForm]
  | cons c pre ih => simp only [List.cons_append, canonicalForm, ih]

/-- The room for a `/` after the canonical path. -/
theorem length_canonicalForm_succ (h : canonicalForm [] (t.splitOn '/') = some cs) :
    (join '/' cs).length + 1 ≤ if ('/' :: t).getLast? = some '/' then ('/' :: t).length else ('/' :: t).length + 1 := by
  have hjoin : join '/' (t.splitOn '/') = '/' :: t := join_splitOn _ _
  split_ifs with hlast
  · -- the last component is empty
    obtain ⟨init, x, hsplit⟩ := (List.eq_nil_or_concat' (t.splitOn '/')).resolve_left (List.splitOn_ne_nil _ _)
    have hx : x = [] := by
      by_contra hx
      have hfree : '/' ∉ x := notMem_of_mem_splitOn (s := t) (by rw [hsplit]; simp)
      rw [← hjoin, hsplit, join_append, join_cons, join_nil, List.append_nil, List.getLast?_append,
        List.getLast?_cons, List.getLast?_eq_some_getLast hx] at hlast
      exact hfree (Option.some.inj hlast ▸ List.getLast_mem hx)
    rw [hsplit, hx, canonicalForm_concat_nil] at h
    have hle := length_canonicalForm h
    rw [← hjoin, hsplit, hx, join_append, List.length_append]
    simp only [join_nil, join_cons, List.length_nil, List.length_cons, List.append_nil] at *
    omega
  · have hle := length_canonicalForm h
    rw [hjoin, join_nil, List.length_nil] at hle
    omega

theorem mem_canonicalForm (h : canonicalForm cs rest = some ds) : ∀ d ∈ ds, d ∈ cs ∨ d ∈ rest := by
  induction rest generalizing cs with
  | nil =>
    obtain rfl := Option.some.inj h
    exact fun d hd => .inl hd
  | cons c rest ih =>
    intro d hd
    rw [canonicalForm] at h
    split_ifs at h with h1 h2 h3
    · exact (ih h d hd).imp_right (List.mem_cons_of_mem _)
    · exact (ih h d hd).imp (fun hd => List.dropLast_subset _ hd) (List.mem_cons_of_mem _)
    · obtain hd | hd := ih h d hd
      · refine (List.mem_append.1 hd).imp_right fun hd => ?_
        rw [List.mem_singleton.1 hd]
        exact List.mem_cons_self
      · exact .inr (List.mem_cons_of_mem _ hd)

/-- The canonical path has no characters that the path did not have. -/
theorem nul_notMem_canonicalForm (h : canonicalForm [] (t.splitOn '/') = some cs) (ht : nul ∉ '/' :: t) :
    nul ∉ join '/' cs := by
  have hjoin : join '/' (t.splitOn '/') = '/' :: t := join_splitOn _ _
  intro hmem
  obtain ⟨c, hc, hx⟩ := List.mem_flatMap.1 hmem
  have hc' := (mem_canonicalForm h c hc).resolve_left List.not_mem_nil
  exact ht (hjoin ▸ List.mem_flatMap.2 ⟨c, hc', hx⟩)

omit [DecidableEq F] in
/-- Canonical components are taken as they are. -/
theorem walk_append {e : Filesystems F} (hds : Canonical ds) : walk e cs (ds ++ rest) = walk e (cs ++ ds) rest := by
  induction ds generalizing cs with
  | nil => rw [List.nil_append, List.append_nil]
  | cons d ds ih =>
    obtain ⟨h1, h2, h3, -⟩ := hds d List.mem_cons_self
    rw [List.cons_append, walk, if_neg (not_or.2 ⟨h1, h2⟩), if_neg h3,
      ih fun c hc => hds c (List.mem_cons_of_mem _ hc), List.append_assoc, List.singleton_append]

omit [DecidableEq F] in
/-- The filesystem of a directory is the one that resolution finds. -/
theorem mountedAt_eq {e : Filesystems F} {root fs : F} {k : ℕ} (hroot : e.filesystems ['/'] = some root)
    (h : MountedAt e cs k fs) : k = mountDepth e cs ∧ fs = fsAt e root cs k := by
  have hmounted : k ≠ 0 → (e.filesystems (join '/' (cs.take k))).isSome = true := fun h0 => by
    have hfs := h.mounted
    rw [if_neg h0] at hfs
    rw [hfs, Option.isSome_some]
  constructor
  · refine le_antisymm ?_ ?_
    · by_contra hlt
      rw [not_le] at hlt
      exact Nat.findGreatest_is_greatest hlt h.le (hmounted (by omega))
    · by_contra hlt
      rw [not_le] at hlt
      have hmax : mountDepth e cs = 0 ∨ _ := mountDepth_mounted cs
      obtain h0 | hsome := hmax
      · omega
      · rw [h.longest _ hlt (mountDepth_le cs)] at hsome
        cases hsome
  · have hfs := h.mounted
    rw [fsAt]
    split_ifs at hfs ⊢ with h0
    · exact Option.some.inj (hfs.symm.trans hroot)
    · rw [hfs, Option.getD_some]

/-- The path that `chdir` resolves is absolute, and the length that is reserved is that of the path with a `/` at
the end. -/
theorem newCwd_eq (hcwd : IsCwd cwd) (hname : name ≠ []) :
    ∃ t, newCwd cwd name = '/' :: t ∧ (∀ x ∈ '/' :: t, x ∈ cwd ∨ x ∈ name) ∧ reservedLength cwd name =
      if ('/' :: t).getLast? = some '/' then ('/' :: t).length else ('/' :: t).length + 1 := by
  unfold newCwd reservedLength
  dsimp only
  by_cases habs : name[0]? = some '/'
  · obtain ⟨t, rfl⟩ : ∃ t, name = '/' :: t := by
      obtain ⟨c, t, rfl⟩ := List.exists_cons_of_ne_nil hname
      obtain rfl : c = '/' := by simpa using habs
      exact ⟨t, rfl⟩
    rw [if_pos habs, if_pos habs]
    exact ⟨t, rfl, fun x hx => .inr hx, rfl⟩
  · obtain ⟨t, rfl⟩ : ∃ t, cwd = '/' :: t := by
      obtain ⟨cs, -, rfl⟩ := hcwd.components
      cases cs with
      | nil => exact ⟨[], rfl⟩
      | cons c cs => exact ⟨_, by rw [join_cons]; rfl⟩
    rw [if_neg habs, if_neg habs]
    refine ⟨t ++ name, rfl, fun x hx => List.mem_append.1 hx, ?_⟩
    have hlast : ('/' :: (t ++ name)).getLast? = name.getLast? := by
      rw [← List.cons_append, List.getLast?_append, List.getLast?_eq_some_getLast hname]
      rfl
    rw [hlast, ← List.cons_append, List.length_append]
    split_ifs <;> omega

end Strings

/-! ## Resolution -/

section Resolution

variable (env : MountEnv F) {fuel k : ℕ} {cs ds : List (List Char)} {cwd name : List Char} {root : F}

/-- Without symbolic links, resolution fails or does what the walk says. -/
theorem MountEnv.resolvePath_join (hfuel : enoughFuel ≤ fuel) (hds : ds ≠ []) (hfree : ∀ d ∈ ds, '/' ∉ d)
    (hlen : (join '/' ds).length ≤ PATH_MAX) :
    (∃ path, (env.filesystems.filesystems ['/'] = none ∨ walk env.filesystems [] ds = none) ∧
        env.manager.resolvePath env.calls fuel (join '/' ds) true = .ok (path, .error (-ENOENT))) ∨
      ∃ root cs k, env.filesystems.filesystems ['/'] = some root ∧
        walk env.filesystems [] ds = some (cs, k) ∧ canonicalForm [] ds = some cs ∧
        env.manager.resolvePath env.calls fuel (join '/' ds) true = .ok (resolved env.filesystems root cs k) := by
  obtain ⟨t, htext, rfl⟩ := splitOn_of_join hds hfree
  rw [htext] at hlen ⊢
  cases hroot : env.filesystems.filesystems ['/'] with
  | none =>
    refine .inl ⟨'/' :: t, .inl rfl, ?_⟩
    show env.filesystems.resolvePath fuel ('/' :: t) true = _
    rw [Filesystems.resolvePath, if_neg (not_lt.2 hlen), if_neg (by simp), PathResolution.resolvePath, hroot]
  | some root =>
    obtain ⟨⟨path, resolvedPath⟩, hrun, hq⟩ := resolvePath_walk fuel true env.noSymlinks hroot hlen
      (by unfold enoughFuel at hfuel; omega)
    cases hwalk : walk env.filesystems [] (t.splitOn '/') with
    | none =>
      rw [hwalk] at hq
      obtain rfl : resolvedPath = .error (-ENOENT) := hq
      exact .inl ⟨path, .inr rfl, hrun⟩
    | some found =>
      obtain ⟨cs, k⟩ := found
      rw [hwalk] at hq
      obtain hq : (path, resolvedPath) = resolved env.filesystems root cs k := hq
      have hform : canonicalForm [] (t.splitOn '/') = some cs := by
        rw [walk_eq] at hwalk
        obtain ⟨c, hc, heq⟩ := Option.map_eq_some_iff.1 hwalk
        rw [hc, (Prod.mk.inj heq).1]
      exact .inr ⟨root, cs, k, rfl, rfl, hform, hq ▸ hrun⟩

/-- A directory is found through its components, also with a `.` or nothing after them. -/
theorem MountEnv.resolvePath_self (hfuel : enoughFuel ≤ fuel) (hcs : Canonical cs)
    (hds : ds = orLast cs ∨ ds = cs ++ [['.']]) (hlen : (join '/' ds).length ≤ PATH_MAX) :
    (∃ path, env.filesystems.filesystems ['/'] = none ∧
        env.manager.resolvePath env.calls fuel (join '/' ds) true = .ok (path, .error (-ENOENT))) ∨
      ∃ root, env.filesystems.filesystems ['/'] = some root ∧
        env.manager.resolvePath env.calls fuel (join '/' ds) true =
          .ok (resolved env.filesystems root cs (mountDepth env.filesystems cs)) := by
  have hwalk : walk env.filesystems [] ds = some (cs, mountDepth env.filesystems cs) := by
    obtain rfl | rfl := hds
    · unfold orLast
      split_ifs with hnil
      · subst hnil
        exact walk_last (.inr rfl)
      · have happend : walk env.filesystems [] (cs ++ []) = _ := walk_append hcs
        rw [List.append_nil, List.nil_append] at happend
        exact happend
    · rw [walk_append hcs, List.nil_append]
      simp [walk]
  have hne : ds ≠ [] := by
    obtain rfl | rfl := hds
    · exact orLast_ne_nil cs
    · simp
  have hfree : ∀ d ∈ ds, '/' ∉ d := by
    obtain rfl | rfl := hds
    · exact free_orLast hcs.free
    · intro d hd
      obtain hd | hd := List.mem_append.1 hd
      · exact hcs.free d hd
      · rw [List.mem_singleton.1 hd]
        decide
  obtain ⟨path, hnone, hrun⟩ | ⟨root, cs', k, hroot, hwalk', -, hrun⟩ :=
    env.resolvePath_join hfuel hne hfree hlen
  · exact .inl ⟨path, hnone.resolve_right (by simp [hwalk]), hrun⟩
  · obtain ⟨rfl, rfl⟩ := Prod.mk.inj (Option.some.inj (hwalk.symm.trans hwalk'))
    exact .inr ⟨root, hroot, hrun⟩

/-! ## One call -/

/-- **`chdir`** keeps a working directory, and the old one if it fails. -/
theorem MountEnv.chdir_spec (hfuel : enoughFuel ≤ fuel) (hcwd : IsCwd cwd) (name : CString) :
    ∃ r cwd', env.chdir fuel cwd name.chars = .ok (r, cwd') ∧ (r ≠ 0 → cwd' = cwd) ∧ IsCwd cwd' := by
  obtain ⟨name, hname⟩ := name
  have hkeep (r : ℤ) : ∃ r' cwd', (Except.ok (r, cwd) : Except PathFault (ℤ × List Char)) = .ok (r', cwd') ∧
      (r' ≠ 0 → cwd' = cwd) ∧ IsCwd cwd' := ⟨r, cwd, rfl, fun _ => rfl, hcwd⟩
  unfold MountEnv.chdir FilesystemManager.chdir
  dsimp only
  by_cases hempty : name = []
  · rw [if_pos hempty]
    exact hkeep _
  by_cases hlong : reservedLength cwd name > PATH_MAX
  · rw [if_neg hempty, if_pos hlong]
    exact hkeep _
  obtain ⟨t, ht, hchars, hlen⟩ := newCwd_eq hcwd hempty
  rw [hlen, not_lt] at hlong
  rw [if_neg hempty, hlen, if_neg (not_lt.2 hlong)]
  have hjoin : join '/' (t.splitOn '/') = '/' :: t := join_splitOn _ _
  rw [ht, ← hjoin]
  obtain ⟨path, -, hrun⟩ | ⟨root, cs, k, hroot, -, hform, hrun⟩ := env.resolvePath_join hfuel
    (List.splitOn_ne_nil _ _) (fun d hd => notMem_of_mem_splitOn hd) (by rw [hjoin]; split_ifs at hlong <;> omega)
  · simp only [hrun, ok_bind, ResolvedPath.error, pure_eq_ok]
    exact hkeep _
  · simp only [hrun, ok_bind, resolved, pure_eq_ok, lt_irrefl, if_false]
    split_ifs with hres hdir
    · exact hkeep _
    · exact hkeep _
    · refine ⟨0, _, rfl, fun h => absurd rfl h, isCwd_of_components ?_ ?_ ?_⟩
      · exact canonicalForm_canonical .nil (fun d hd => notMem_of_mem_splitOn hd) hform
      · rw [List.length_append, List.length_singleton]
        exact (length_canonicalForm_succ hform).trans hlong
      · exact nul_notMem_canonicalForm hform fun hmem => (hchars nul hmem).elim hcwd.noNul hname

/-- A mount table that is reachable and not empty has a filesystem at the root. -/
theorem MountEnv.exists_root (env : MountEnv F) {path : List Char} {fs : F}
    (h : env.filesystems.filesystems path = some fs) :
    ∃ root, env.filesystems.filesystems ['/'] = some root := by
  have hmem : path ∈ env.manager.filesystems.map Prod.fst := by
    refine isSome_find.1 ?_
    rw [show env.manager.find path = some fs from h, Option.isSome_some]
  have hne : env.manager.filesystems ≠ [] := by
    intro hnil
    rw [hnil] at hmem
    exact absurd hmem List.not_mem_nil
  exact Option.isSome_iff_exists.1 (isSome_find.2 (env.reachable.mountTable.root hne))

/-- **The directory that is shown** is one to go to, as long as it exists. -/
theorem MountEnv.chdir_shown (hfuel : enoughFuel ≤ fuel) (hcwd : IsCwd cwd) (h : env.DirectoryExists cwd) :
    env.chdir fuel cwd (shown cwd) = .ok (0, cwd) := by
  obtain ⟨cs, k, fs, hcs, rfl, hmount, hdir⟩ := h
  obtain ⟨root, hroot⟩ := env.exists_root hmount.mounted
  obtain ⟨rfl, rfl⟩ := mountedAt_eq hroot hmount
  rw [shown_eq hcs]
  obtain ⟨t, ht, hsplit⟩ := splitOn_of_join (orLast_ne_nil cs) (free_orLast hcs.free)
  obtain ⟨hle, hreserved⟩ := reservedLength_shown (join '/' cs ++ ['/']) hcs
  have hnew : newCwd (join '/' cs ++ ['/']) (join '/' (orLast cs)) = join '/' (orLast cs) := by
    rw [newCwd, ht, if_pos List.getElem?_cons_zero]
  obtain ⟨path, hnone, -⟩ | ⟨root', hroot', hrun⟩ := env.resolvePath_self hfuel hcs (.inl rfl)
    (hle.trans hcwd.short)
  · rw [hroot] at hnone
    cases hnone
  · obtain rfl := Option.some.inj (hroot.symm.trans hroot')
    have hdrop := drop_resolved env.filesystems root cs (mountDepth env.filesystems cs)
    rw [MountEnv.chdir, FilesystemManager.chdir, hreserved, hnew, if_neg (by simp [ht]),
      if_neg (not_lt.2 hcwd.short), hrun]
    simp only [ok_bind, resolved, pure_eq_ok, lt_irrefl, if_false] at hdrop ⊢
    rw [hdrop, hdir, if_neg (not_not.2 rfl), if_neg (not_not.2 rfl)]

theorem MountEnv.statHelper_total (hfuel : enoughFuel ≤ fuel) (path : List Char) (f : Bool) :
    ∃ answer, env.manager.statHelper env.calls fuel path f = .ok answer := by
  obtain ⟨q, hrun, -⟩ := resolvePath_total env.filesystems path fuel hfuel f
  have hrun' : env.manager.resolvePath env.calls fuel path f = .ok q := hrun
  simp only [statHelper, hrun', ok_bind, pure_eq_ok]
  cases q.2.fs with
  | none => exact ⟨_, rfl⟩
  | some fs =>
    dsimp only
    split_ifs <;> exact ⟨_, rfl⟩

theorem MountEnv.statImpl_total (hfuel : enoughFuel ≤ fuel) (cwd name : List Char) (f : Bool) :
    ∃ answer, env.manager.statImpl env.calls fuel cwd name f = .ok answer := by
  unfold statImpl
  split_ifs
  · exact ⟨_, rfl⟩
  · exact ⟨_, rfl⟩
  · exact env.statHelper_total hfuel _ f

/-- What `getcwd` stores. -/
inductive GetcwdStores (env : MountEnv F) (fuel : ℕ) (cwd : List Char) (buf : Option ℕ) (len : ℕ) :
    ℤ → Stores → Prop
  | failed {r : ℤ} (h : r ≠ 0) : GetcwdStores env fuel cwd buf len r []
  | stored {b : ℕ} {temp : List Char} (hbuf : buf = some b) (hshort : 2 ≤ len) (hlen : cwd.length ≤ len)
      (hstat : env.manager.statImpl env.calls fuel cwd ['.'] true = .ok (0, .directory, temp)) :
      GetcwdStores env fuel cwd buf len 0
        (strncpy b cwd len ++ if cwd.length > 1 then [(b + (cwd.length - 1), nul)] else [])

/-- **`getcwd`** stores the working directory if it is found and fits, or else nothing. -/
theorem MountEnv.getcwd_spec (hfuel : enoughFuel ≤ fuel) (cwd : List Char) (buf : Option ℕ) (len : ℕ) :
    ∃ r ws, env.getcwd fuel cwd buf len = .ok (r, ws) ∧ GetcwdStores env fuel cwd buf len r ws := by
  cases buf with
  | none => exact ⟨-EINVAL, [], rfl, .failed (by decide)⟩
  | some b =>
    unfold MountEnv.getcwd FilesystemManager.getcwd
    dsimp only
    obtain ⟨⟨result, st, temp⟩, hstat⟩ := env.statImpl_total hfuel cwd ['.'] true
    by_cases hshort : len < 2
    · rw [if_pos hshort]
      exact ⟨-EINVAL, [], rfl, .failed (by decide)⟩
    rw [if_neg hshort, hstat]
    simp only [ok_bind, pure_eq_ok]
    by_cases hdir : result ≠ 0 ∨ st ≠ .directory
    · rw [if_pos hdir]
      exact ⟨-ENOENT, [], rfl, .failed (by decide)⟩
    by_cases hlong : cwd.length > len
    · rw [if_neg hdir, if_pos hlong]
      exact ⟨-ERANGE, [], rfl, .failed (by decide)⟩
    rw [if_neg hdir, if_neg hlong]
    rw [not_or, not_not, not_not] at hdir
    obtain ⟨rfl, rfl⟩ := hdir
    exact ⟨0, _, rfl, .stored rfl (not_lt.1 hshort) (not_lt.1 hlong) hstat⟩

/-- A working directory that `stat` finds exists. -/
theorem MountEnv.directoryExists_of_stat (hfuel : enoughFuel ≤ fuel) (hcwd : IsCwd cwd) {temp : List Char}
    (h : env.manager.statImpl env.calls fuel cwd ['.'] true = .ok (0, .directory, temp)) :
    env.DirectoryExists cwd := by
  obtain ⟨cs, hcs, rfl⟩ := hcwd.components
  have hpath : absolutePath (join '/' cs ++ ['/']) ['.'] =
      if 1 + (join '/' cs ++ ['/']).length > PATH_MAX then [] else join '/' (cs ++ [['.']]) := by
    rw [absolutePath, if_neg (by decide), if_neg (by decide)]
    simp
  rw [statImpl, if_neg (by simp), hpath] at h
  by_cases hlong : 1 + (join '/' cs ++ ['/']).length > PATH_MAX
  · rw [if_pos hlong, if_pos rfl] at h
    cases h
  have hne : join '/' (cs ++ [['.']]) ≠ [] := mt join_eq_nil_iff.1 (by simp)
  have hlen : (join '/' (cs ++ [['.']])).length ≤ PATH_MAX := by
    simp only [join_append, join_cons, join_nil, List.length_append, List.length_cons, List.length_nil] at *
    omega
  rw [if_neg hlong, if_neg hne, statHelper] at h
  obtain ⟨path, -, hrun⟩ | ⟨root, hroot, hrun⟩ := env.resolvePath_self hfuel hcs (.inr rfl) hlen
  · rw [hrun] at h
    cases h
  · have hdrop := drop_resolved env.filesystems root cs (mountDepth env.filesystems cs)
    simp only [hrun, ok_bind, resolved, pure_eq_ok, lt_irrefl, if_false] at hdrop h
    rw [hdrop, Except.ok.injEq, Prod.mk.injEq, Prod.mk.injEq] at h
    exact ⟨cs, _, _, hcs, rfl, mountedAt_mountDepth hroot cs, Prod.ext h.1 h.2.1⟩

end Resolution

/-! ## The buffer -/

section Buffer

variable {cwd s : List Char} {b len : ℕ}

theorem apply_append (ws ws' : Stores) (mem : ℕ → Char) : Stores.apply (ws ++ ws') mem = ws'.apply (ws.apply mem) :=
  List.foldl_append

/-- Memory that is filled character by character. -/
theorem apply_map_range (f : ℕ → Char) (mem : ℕ → Char) (n i : ℕ) :
    Stores.apply ((List.range n).map fun i => (b + i, f i)) mem (b + i) = if i < n then f i else mem (b + i) := by
  induction n with
  | zero => rfl
  | succ n ih =>
    rw [List.range_succ, List.map_append, apply_append]
    rw [Stores.apply, List.map_singleton, List.foldl_cons, List.foldl_nil, Function.update_apply, ih]
    by_cases heq : i = n
    · subst heq
      rw [if_pos rfl, if_pos (Nat.lt_succ_self i)]
    · rw [if_neg (by omega)]
      exact if_congr (by omega) rfl rfl

/-- What is shown is stored, with NUL characters after it. -/
theorem apply_getcwd (hcwd : IsCwd cwd) (hlen : cwd.length ≤ len) (hshort : 2 ≤ len) (mem : ℕ → Char) :
    (shown cwd).length < len ∧ ∀ i < len,
      Stores.apply (strncpy b cwd len ++ if cwd.length > 1 then [(b + (cwd.length - 1), nul)] else []) mem (b + i) =
        (shown cwd).getD i nul := by
  have hall : cwd.takeWhile (· ≠ nul) = cwd := by
    rw [List.takeWhile_eq_self_iff]
    intro c hc
    have hne : c ≠ nul := fun h => hcwd.noNul (h ▸ hc)
    simpa using hne
  have hcopy (i : ℕ) : Stores.apply (strncpy b cwd len) mem (b + i) = if i < len then cwd.getD i nul else mem (b + i) := by
    rw [strncpy, hall]
    exact apply_map_range _ _ _ _
  obtain hroot | ⟨cs, hne, hcs, rfl⟩ := hcwd.canonical
  · subst hroot
    refine ⟨hshort, fun i hi => ?_⟩
    rw [if_neg (by decide), List.append_nil, hcopy, if_pos hi]
    rfl
  · have hjoin : join '/' cs ≠ [] := mt join_eq_nil_iff.1 hne
    have hshown : shown (join '/' cs ++ ['/']) = join '/' cs := by
      rw [shown_eq hcs, orLast_of_ne hne]
    have hpos := List.length_pos_of_ne_nil hjoin
    rw [List.length_append, List.length_singleton] at hlen
    rw [hshown, List.length_append, List.length_singleton, Nat.add_sub_cancel, if_pos (by omega)]
    refine ⟨hlen, fun i hi => ?_⟩
    rw [apply_append, Stores.apply, List.foldl_cons, List.foldl_nil, Function.update_apply, hcopy, if_pos hi]
    -- the last character is replaced
    obtain hlt | rfl | hgt := lt_trichotomy i (join '/' cs).length
    · rw [if_neg (by omega), List.getD_append _ _ _ _ hlt]
    · rw [if_pos rfl, List.getD_eq_default _ _ le_rfl]
    · rw [if_neg (by omega), List.getD_eq_default _ _ hgt.le, List.getD_eq_default _ _ (by simpa using Nat.succ_le_of_lt hgt)]

/-- The buffer holds a string that is shorter. -/
theorem prefix_of_getD (hlen : s.length < len) {mem : ℕ → Char} (h : ∀ i < len, mem (b + i) = s.getD i nul) :
    s ++ [nul] <+: (List.range len).map fun i => mem (b + i) := by
  rw [List.prefix_iff_eq_take]
  refine List.ext_getElem ?_ fun i h1 h2 => ?_
  · simp
    omega
  · have hlt : i < len := by
      simp only [List.length_append, List.length_singleton] at h1
      omega
    rw [List.getElem_take, List.getElem_map, List.getElem_range, h i hlt]
    by_cases hi : i < s.length
    · rw [List.getElem_append_left hi, List.getD_eq_getElem _ _ hi]
    · rw [List.getElem_append_right (not_lt.1 hi), List.getElem_singleton, List.getD_eq_default _ _ (not_lt.1 hi)]

theorem mem_strncpy {src : List Char} {w : ℕ × Char} (h : w ∈ strncpy b src len) : b ≤ w.1 ∧ w.1 < b + len := by
  obtain ⟨i, hi, rfl⟩ := List.mem_map.1 h
  have := List.mem_range.1 hi
  exact ⟨Nat.le_add_right _ _, by omega⟩

end Buffer

/-! ## Every sequence of calls -/

section Run

variable {fuel : ℕ} {cwd : List Char}

/-- What holds in every state holds of the next call. -/
theorem IsCwd.cwdRight (hfuel : enoughFuel ≤ fuel) (hcwd : IsCwd cwd) : CwdRight F fuel cwd where
  isCwd := hcwd
  fails env name r cwd' hrun := by
    obtain ⟨r', cwd'', hrun', hfail, -⟩ := env.chdir_spec hfuel hcwd name
    cases hrun.symm.trans hrun'
    exact hfail
  inside env buf len r ws hrun := by
    obtain ⟨r', ws', hrun', hstores⟩ := env.getcwd_spec hfuel cwd buf len
    cases hrun.symm.trans hrun'
    cases hstores with
    | failed => exact fun w hw => absurd hw List.not_mem_nil
    | @stored b _ hbuf hshort hlen hstat =>
      intro w hw
      refine ⟨b, hbuf, ?_⟩
      obtain hw | hw := List.mem_append.1 hw
      · exact mem_strncpy hw
      · split_ifs at hw with hlong
        · rw [List.mem_singleton.1 hw]
          exact ⟨Nat.le_add_right _ _, by omega⟩
        · exact absurd hw List.not_mem_nil
  holds env buf len ws hrun := by
    obtain ⟨r', ws', hrun', hstores⟩ := env.getcwd_spec hfuel cwd buf len
    cases hrun.symm.trans hrun'
    cases hstores with
    | failed h => exact absurd rfl h
    | @stored b _ hbuf hshort hlen hstat =>
      refine ⟨b, hbuf, fun mem => ?_⟩
      obtain ⟨hlt, hget⟩ := apply_getcwd (b := b) hcwd hlen hshort mem
      exact prefix_of_getD hlt hget
  found env buf len ws hrun := by
    obtain ⟨r', ws', hrun', hstores⟩ := env.getcwd_spec hfuel cwd buf len
    cases hrun.symm.trans hrun'
    cases hstores with
    | failed h => exact absurd rfl h
    | stored hbuf hshort hlen hstat => exact env.directoryExists_of_stat hfuel hcwd hstat
  again env h := env.chdir_shown hfuel hcwd h

/-- **One call** keeps a working directory. -/
theorem CwdCall.run_spec (hfuel : enoughFuel ≤ fuel) (hcwd : IsCwd cwd) (c : CwdCall F) :
    ∃ cwd', c.run fuel cwd = .ok cwd' ∧ IsCwd cwd' := by
  cases c with
  | chdir env name =>
    obtain ⟨r, cwd', hrun, -, hcwd'⟩ := env.chdir_spec hfuel hcwd name
    exact ⟨cwd', by rw [CwdCall.run, hrun]; rfl, hcwd'⟩
  | getcwd env buf len =>
    obtain ⟨r, ws, hrun, -⟩ := env.getcwd_spec hfuel cwd buf len
    exact ⟨cwd, by rw [CwdCall.run, hrun]; rfl, hcwd⟩

theorem runCalls_spec (hfuel : enoughFuel ≤ fuel) (hcwd : IsCwd cwd) (calls : List (CwdCall F)) :
    ∃ cwd', runCalls fuel cwd calls = .ok cwd' ∧ IsCwd cwd' := by
  induction calls generalizing cwd with
  | nil => exact ⟨cwd, rfl, hcwd⟩
  | cons c calls ih =>
    obtain ⟨cwd₁, hrun, hcwd₁⟩ := c.run_spec hfuel hcwd
    obtain ⟨cwd', hrest, hcwd'⟩ := ih hcwd₁
    exact ⟨cwd', by rw [runCalls, hrun, ok_bind, hrest], hcwd'⟩

theorem isCwd_root : IsCwd ['/'] := ⟨.inl rfl, by decide, by decide⟩

/-- **The working directory**, after every sequence of calls on any filesystems without symbolic links. -/
theorem run_workingDirectory (hfuel : enoughFuel ≤ fuel) (calls : List (CwdCall F)) :
    ∃ cwd, runCalls fuel ['/'] calls = .ok cwd ∧ CwdRight F fuel cwd := by
  obtain ⟨cwd, hrun, hcwd⟩ := runCalls_spec hfuel isCwd_root calls
  exact ⟨cwd, hrun, hcwd.cwdRight hfuel⟩

/-- One filesystem, with a directory for every name. -/
def directoryEnv : MountEnv ℕ where
  manager := ⟨[("/".toList, 0)], []⟩
  calls := onlyDirectories
  reachable := Reachable.mountAll .empty (by rfl : mountAll [("/".toList, 0)] ⟨[], []⟩ = .ok _)
  noSymlinks _ _ _ := rfl

theorem run_workingDirectory_two :
    CwdRight ℕ enoughFuel "/a/c/".toList := by
  obtain ⟨cwd, hrun, hright⟩ := run_workingDirectory (F := ℕ) le_rfl
    [.chdir directoryEnv ⟨"/a//b/".toList, by decide⟩, .getcwd directoryEnv (some 100) 6,
      .chdir directoryEnv ⟨"../c".toList, by decide⟩]
  obtain rfl : "/a/c/".toList = cwd := Except.ok.inj ((by rfl : runCalls enoughFuel ['/'] _ = _).symm.trans hrun)
  exact hright

end Run

end Miosix
