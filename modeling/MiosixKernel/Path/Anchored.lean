import MiosixKernel.Lib.DirTree
import MiosixKernel.Path.Operations

/-!
# Mountpoints are directories

The mount table has paths, and the directories that they name are in other filesystems.

* `MountedTrees`: the mount table, and the trees of the filesystems;
* `step`: the operations on paths, which end in a call of a filesystem;
* `Anchored`: every mountpoint is a directory of the filesystem that it is mounted on;
* `Harmless`, `run_anchored`: the operations that keep it so.
-/

namespace Miosix

open Lib PathResolution FilesystemManager

/-- Filesystems that behave as directory trees, without symbolic links. -/
structure MountedTrees (F : Type) where
  manager : FilesystemManager F
  tree : F → DirTree (List Char)

namespace MountedTrees

variable {F : Type}

/-- The components of a path in a filesystem. -/
def components (relative : List Char) : List (List Char) :=
  if relative = [] then [] else relative.splitOn '/'

def calls (s : MountedTrees F) : FilesystemCalls F where
  supportsSymlinks _ := false
  lstat fs path :=
    if components path ∈ (s.tree fs).dirs then (0, .directory)
    else if components path ∈ (s.tree fs).files then (0, .other)
    else (-ENOENT, .other)
  readlink _ _ := (-EINVAL, [])

/-- The operations. A filesystem can always refuse to change, for reasons of its own. -/
inductive Op (F : Type) where
  | kmount (path : List Char) (fs : Option F)
  | umount (path : List Char) (force : Bool) (ongoing : ℕ → List (FileBase F))
  | mkdir (refuses : Bool) (cwd name : List Char)
  | rmdir (refuses : Bool) (cwd name : List Char)
  | unlink (refuses : Bool) (cwd name : List Char)
  | rename (refuses : Bool) (cwd oldName newName : List Char)

section Step

variable [DecidableEq F]

/-- The filesystem makes the change, if it can be made and it does not refuse. -/
def change (s : MountedTrees F) (fs : F) (refuses : Bool) (f : DirTree (List Char) → Option (DirTree (List Char))) :
    MountedTrees F :=
  match f (s.tree fs) with
  | some t => if refuses then s else { s with tree := Function.update s.tree fs t }
  | none => s

def step (fuel : ℕ) (s : MountedTrees F) : Op F → Except PathFault (MountedTrees F)
  | .kmount path fs => do
    let (_, manager) ← s.manager.kmount s.calls fuel path fs
    return { s with manager := manager }
  | .umount path force ongoing => return { s with manager := (s.manager.umount path force ongoing).2 }
  | .mkdir refuses cwd name => do
    match ← s.manager.mkdir s.calls fuel cwd name with
    | .ok (fs, sp) => return s.change fs refuses (·.mkdir (components sp))
    | .error _ => return s
  | .rmdir refuses cwd name => do
    match ← s.manager.rmdir s.calls fuel cwd name with
    | .ok (fs, sp) => return s.change fs refuses (·.rmdir (components sp))
    | .error _ => return s
  | .unlink refuses cwd name => do
    match ← s.manager.unlink s.calls fuel cwd name with
    | .ok (fs, sp) => return s.change fs refuses (·.remove (components sp))
    | .error _ => return s
  | .rename refuses cwd oldName newName => do
    match ← s.manager.rename s.calls fuel cwd oldName newName with
    | .ok (fs, oldSp, newSp) => return s.change fs refuses (·.rename (components oldSp) (components newSp))
    | .error _ => return s

def run (fuel : ℕ) (s : MountedTrees F) : List (Op F) → Except PathFault (MountedTrees F)
  | [] => .ok s
  | op :: ops => do run fuel (← s.step fuel op) ops

end Step

/-- Nothing is mounted. -/
def init (tree : F → DirTree (List Char)) : MountedTrees F := ⟨⟨[], []⟩, tree⟩

/-- The path of the directory that a path is in. -/
def parentPath (cs : List (List Char)) : List Char := if cs = [] then ['/'] else join '/' cs

/-- Every mountpoint but `/` names a directory, in the filesystem that its parent path resolves to. -/
def Anchored (fuel : ℕ) (s : MountedTrees F) : Prop :=
  ∀ cs c, Canonical (cs ++ [c]) → (s.manager.find (join '/' (cs ++ [c]))).isSome = true →
    ∃ path resolved fs, s.manager.resolvePath s.calls fuel (parentPath cs) true = .ok (path, resolved) ∧
      resolved.result = 0 ∧ resolved.fs = some fs ∧
      components (path.drop resolved.off) ++ [c] ∈ (s.tree fs).dirs

/-- The canonical form of an absolute path. -/
def canonicalPath : List Char → Option (List (List Char))
  | '/' :: path => canonicalForm [] (path.splitOn '/')
  | _ => none

/-- The filesystem of a path is mounted at one place only. -/
def MountedOnce (m : FilesystemManager F) (env : Filesystems F) (c : List (List Char)) : Prop :=
  ∀ k fs, MountedAt env c k fs → ∀ key key', m.find key = some fs → m.find key' = some fs → key = key'

/-- No filesystem is mounted below a path. -/
def NothingBelow (m : FilesystemManager F) (c : List (List Char)) : Prop :=
  ∀ key, (m.find key).isSome = true → ¬ join '/' c ++ ['/'] <+: key

/-- What an operation must not do. -/
def Harmless (s : MountedTrees F) : Op F → Prop
  | .kmount path _ => ∀ c, canonicalPath path = some c → c ≠ [] → s.manager.find (join '/' c) = none →
      NothingBelow s.manager c
  | .umount .. => True
  | .mkdir .. => True
  | .rmdir _ cwd name => ∀ c, canonicalPath (absolutePath cwd name) = some c →
      MountedOnce s.manager (s.manager.env s.calls) c ∧
        ¬ (LeavesLast (s.manager.env s.calls) [] ((absolutePath cwd name).tail.splitOn '/') c ∧ c ≠ [] ∧
          (s.manager.find (join '/' c)).isSome = true)
  | .unlink _ cwd name => ∀ c, canonicalPath (absolutePath cwd name) = some c →
      MountedOnce s.manager (s.manager.env s.calls) c
  | .rename _ cwd oldName _ => ∀ c, canonicalPath (absolutePath cwd oldName) = some c →
      MountedOnce s.manager (s.manager.env s.calls) c ∧ (c ≠ [] → NothingBelow s.manager c)

/-- The operations of a run are harmless. -/
def HarmlessRun [DecidableEq F] (fuel : ℕ) (s : MountedTrees F) : List (Op F) → Prop
  | [] => True
  | op :: ops => s.Harmless op ∧ ∀ s', s.step fuel op = .ok s' → HarmlessRun fuel s' ops

/-! ## Paths without symbolic links -/

section Resolve

variable {s : MountedTrees F} {env : Filesystems F} {root : F} {c cs : List (List Char)} {k fuel : ℕ}

theorem noSymlinks (s : MountedTrees F) : NoSymlinks (s.manager.env s.calls) := fun _ _ _ => rfl

theorem components_relativePath (hc : Canonical c) (k : ℕ) : components (relativePath c k) = c.drop k := by
  rw [relativePath_eq]
  have hcan := hc.drop k
  cases hdrop : c.drop k with
  | nil => rfl
  | cons d ds =>
    rw [hdrop] at hcan
    have hne : d ++ join '/' ds ≠ [] := List.append_ne_nil_of_left_ne_nil (hcan d List.mem_cons_self).1 _
    rw [join_cons, List.tail_cons, components, if_neg hne, splitOn_append_join hcan.free]

theorem mountDepth_of_mounted (hne : c ≠ []) (h : (env.filesystems (join '/' c)).isSome = true) :
    mountDepth env c = c.length := by
  obtain ⟨init, y, rfl⟩ := (List.eq_nil_or_concat' c).resolve_left hne
  rw [mountDepth_concat, if_pos h, List.length_append, List.length_singleton]

/-- What a path resolves to. -/
theorem resolvePath_cases (s : MountedTrees F) (hfuel : enoughFuel ≤ fuel) (path : List Char) (f : Bool) :
    ∃ q, s.manager.resolvePath s.calls fuel path f = .ok q ∧ (q.2.result < 0 ∨
      ∃ root c k, s.manager.find ['/'] = some root ∧ canonicalPath path = some c ∧ Canonical c ∧
        (join '/' c).length ≤ PATH_MAX ∧ q = resolved (s.manager.env s.calls) root c k ∧
        (k = mountDepth (s.manager.env s.calls) c ∨
          LeavesLast (s.manager.env s.calls) [] (path.tail.splitOn '/') c ∧ c ≠ [] ∧
            (s.manager.find (join '/' c)).isSome = true)) := by
  obtain ⟨q, hrun, hq⟩ := resolvePath_total (s.manager.env s.calls) path fuel hfuel f
  refine ⟨q, hrun, ?_⟩
  obtain hneg | ⟨root, hroot, -⟩ := hq
  · exact Or.inl hneg
  by_cases hlong : path.length > PATH_MAX
  · rw [Filesystems.resolvePath, if_pos hlong] at hrun
    rw [← Except.ok.inj hrun]
    exact Or.inl (by simp [ResolvedPath.error, ENAMETOOLONG])
  by_cases habs : path.isEmpty ∨ path[0]? ≠ some '/'
  · rw [Filesystems.resolvePath, if_neg hlong, if_pos habs] at hrun
    rw [← Except.ok.inj hrun]
    exact Or.inl (by simp [ResolvedPath.error, ENOENT])
  obtain ⟨t, rfl⟩ : ∃ t, path = '/' :: t := by
    cases path with
    | nil => simp at habs
    | cons a t =>
      obtain rfl : a = '/' := by simpa using habs
      exact ⟨t, rfl⟩
  have hlt : ('/' :: t).length < fuel := by
    unfold enoughFuel at hfuel
    omega
  obtain ⟨q', hrun', hq'⟩ := resolvePath_walk fuel f s.noSymlinks hroot (not_lt.1 hlong) hlt
  obtain rfl : q = q' := Except.ok.inj (hrun.symm.trans hrun')
  rw [walk_eq] at hq'
  cases hc : canonicalForm [] (t.splitOn '/') with
  | none =>
    rw [hc] at hq'
    have hres : q.2 = .error (-ENOENT) := hq'
    rw [hres]
    exact Or.inl (by simp [ResolvedPath.error, ENOENT])
  | some c =>
    rw [hc] at hq'
    have hlen := length_canonicalForm hc
    rw [join_nil, List.length_nil, Nat.zero_add, join_splitOn] at hlen
    refine Or.inr ⟨root, c, _, hroot, hc, canonicalForm_canonical .nil (fun d hd => notMem_of_mem_splitOn hd) hc,
      hlen.trans (not_lt.1 hlong), hq', ?_⟩
    unfold foundDepth
    split_ifs with hleaves
    · by_cases hfs : c ≠ [] ∧ (s.manager.find (join '/' c)).isSome = true
      · exact Or.inr ⟨hleaves, hfs⟩
      · refine Or.inl ?_
        obtain rfl | ⟨init, y, rfl⟩ := List.eq_nil_or_concat' c
        · rfl
        · have hno : ¬ ((s.manager.env s.calls).filesystems (join '/' (init ++ [y]))).isSome = true :=
            fun h => hfs ⟨by simp, h⟩
          rw [List.dropLast_concat, mountDepth_concat, if_neg hno]
    · exact Or.inl rfl

/-- The parent path of a canonical path. -/
theorem resolvePath_parentPath (s : MountedTrees F) (hfuel : enoughFuel ≤ fuel)
    (hroot : s.manager.find ['/'] = some root) (hcs : Canonical cs) (hlen : (join '/' cs).length ≤ PATH_MAX)
    (f : Bool) : s.manager.resolvePath s.calls fuel (parentPath cs) f =
      .ok (resolved (s.manager.env s.calls) root cs (mountDepth (s.manager.env s.calls) cs)) := by
  unfold enoughFuel at hfuel
  cases cs with
  | nil =>
    obtain ⟨q, hrun, hq⟩ := resolvePath_walk (t := []) fuel f s.noSymlinks hroot (by decide)
      (lt_of_lt_of_le (by decide) hfuel)
    have hwalk : walk (s.manager.env s.calls) [] (([] : List Char).splitOn '/') = some ([], 0) := by
      simp [walk]
    rw [hwalk] at hq
    exact hrun.trans (congrArg Except.ok hq)
  | cons d ds =>
    rw [parentPath, if_neg (List.cons_ne_nil _ _)]
    rw [join_cons] at hlen ⊢
    obtain ⟨q, hrun, hq⟩ := resolvePath_walk fuel f s.noSymlinks hroot hlen (by omega)
    have hwalk : walk (s.manager.env s.calls) [] (d :: ds) =
        some (d :: ds, mountDepth (s.manager.env s.calls) (d :: ds)) := by
      have happend : walk (s.manager.env s.calls) [] (d :: ds ++ []) = walk _ ([] ++ (d :: ds)) [] :=
        walk_append hcs
      rwa [List.append_nil, List.nil_append] at happend
    rw [splitOn_append_join hcs.free, hwalk] at hq
    exact hrun.trans (congrArg Except.ok hq)

end Resolve

/-! ## Anchors -/

section Anchor

variable {env : Filesystems F} {root fs : F} {c cs : List (List Char)} {a : List (List Char)} {k fuel : ℕ}
  {key : List Char}

/-- A filesystem is mounted on the directory `a` of `fs`. -/
def IsAnchor (env : Filesystems F) (fs : F) (a : List (List Char)) : Prop :=
  ∃ root cs c, env.filesystems ['/'] = some root ∧ Canonical (cs ++ [c]) ∧
    (env.filesystems (join '/' (cs ++ [c]))).isSome = true ∧ fs = fsAt env root cs (mountDepth env cs) ∧
    a = cs.drop (mountDepth env cs) ++ [c]

/-- The key where the filesystem at the first `k` components is mounted. -/
def keyAt (cs : List (List Char)) (k : ℕ) : List Char := if k = 0 then ['/'] else join '/' (cs.take k)

theorem find_keyAt (hroot : env.filesystems ['/'] = some root) (cs : List (List Char)) :
    env.filesystems (keyAt cs (mountDepth env cs)) = some (fsAt env root cs (mountDepth env cs)) :=
  (mountedAt_mountDepth hroot cs).mounted

theorem join_ne_slash (hcs : Canonical cs) : join '/' cs ≠ ['/'] := by
  intro h
  cases cs with
  | nil => cases h
  | cons d ds =>
    rw [join_cons] at h
    exact (hcs d List.mem_cons_self).1 (List.append_eq_nil_iff.1 (List.cons.inj h).2).1

theorem keyAt_injective {cs' : List (List Char)} {k' : ℕ} (hcs : Canonical cs) (hcs' : Canonical cs')
    (h : keyAt cs k = keyAt cs' k') : cs.take k = cs'.take k' := by
  unfold keyAt at h
  split_ifs at h with h0 h0' h0'
  · rw [h0, h0', List.take_zero, List.take_zero]
  · exact absurd h.symm (join_ne_slash (hcs'.take k'))
  · exact absurd h (join_ne_slash (hcs.take k))
  · exact join_injective (hcs.take k).free (hcs'.take k').free h

/-- If the filesystem is mounted at one place only, its anchors are mountpoints below that place. -/
theorem IsAnchor.mounted (h : IsAnchor env fs a) (hroot : env.filesystems ['/'] = some root) (hc : Canonical c)
    (hfs : fs = fsAt env root c (mountDepth env c))
    (honce : ∀ key key', env.filesystems key = some fs → env.filesystems key' = some fs → key = key') :
    (env.filesystems (join '/' (c.take (mountDepth env c) ++ a))).isSome = true := by
  obtain ⟨root', cs, x, hroot', hcan, hmount, hfs', rfl⟩ := h
  obtain rfl : root = root' := Option.some.inj (hroot.symm.trans hroot')
  have hkey : keyAt c (mountDepth env c) = keyAt cs (mountDepth env cs) := by
    refine honce _ _ ?_ ?_
    · rw [find_keyAt hroot, hfs]
    · rw [find_keyAt hroot, hfs']
  rwa [keyAt_injective hc hcan.prefix_of hkey, ← List.append_assoc, List.take_append_drop]

/-- The invariant. -/
structure Inv (s : MountedTrees F) : Prop where
  table : MountTable s.manager.filesystems
  anchored : ∀ fs a, IsAnchor (s.manager.env s.calls) fs a → a ∈ (s.tree fs).dirs

theorem Inv.toAnchored {s : MountedTrees F} (h : s.Inv) (hfuel : enoughFuel ≤ fuel) : s.Anchored fuel := by
  intro cs c hcan hmount
  have hkey := isSome_find.1 hmount
  have htable : s.manager.filesystems ≠ [] := by
    intro hnil
    rw [hnil] at hkey
    cases hkey
  obtain ⟨root, hroot⟩ := Option.isSome_iff_exists.1 (isSome_find.2 (h.table.root htable))
  have hlen : (join '/' cs).length ≤ PATH_MAX := by
    have := h.table.short _ hkey
    rw [join_append, List.length_append] at this
    omega
  have hcs : Canonical cs := hcan.prefix_of
  have hdir := h.anchored _ _ ⟨root, cs, c, hroot, hcan, hmount, rfl, rfl⟩
  rw [← components_relativePath hcs, ← drop_resolved (s.manager.env s.calls) root cs] at hdir
  exact ⟨_, _, _, resolvePath_parentPath s hfuel hroot hcs hlen true, rfl, rfl, hdir⟩

theorem init_inv (tree : F → DirTree (List Char)) : (init tree).Inv :=
  ⟨.nil, fun fs a ⟨_, _, _, hroot, _⟩ => by cases hroot⟩

/-- The mount table stays, and the filesystem keeps its anchors. -/
theorem Inv.change [DecidableEq F] {s : MountedTrees F} (h : s.Inv) {refuses : Bool}
    {f : DirTree (List Char) → Option (DirTree (List Char))}
    (hf : ∀ t a, f (s.tree fs) = some t → IsAnchor (s.manager.env s.calls) fs a → a ∈ (s.tree fs).dirs →
      a ∈ t.dirs) : (s.change fs refuses f).Inv := by
  unfold MountedTrees.change
  split
  · rename_i t ht
    split_ifs
    · exact h
    · refine ⟨h.table, fun fs' a ha => ?_⟩
      replace ha : IsAnchor (s.manager.env s.calls) fs' a := ha
      have hdir := h.anchored fs' a ha
      change a ∈ (Function.update s.tree fs t fs').dirs
      rw [Function.update_apply]
      split_ifs with heq
      · subst heq
        exact hf t a ht ha hdir
      · exact hdir
  · exact h

end Anchor

/-! ## Steps -/

section Steps

variable {s s' : MountedTrees F} {fuel : ℕ} {m m' : FilesystemManager F}

/-- The part of a path in the mount table does not change with keys that are not above it. -/
theorem mountDepth_congr {env env' : Filesystems F} {cs : List (List Char)}
    (h : ∀ k ≤ cs.length, env'.filesystems (join '/' (cs.take k)) = env.filesystems (join '/' (cs.take k))) :
    mountDepth env' cs = mountDepth env cs := by
  induction cs using List.reverseRecOn with
  | nil => rfl
  | append_singleton cs c ih =>
    have hself := h _ le_rfl
    rw [List.take_length] at hself
    rw [mountDepth_concat, mountDepth_concat, hself, ih fun k hk => ?_]
    have := h k (hk.trans (by simp))
    rwa [List.take_append_of_le_length hk] at this

theorem fsAt_congr {env env' : Filesystems F} {cs : List (List Char)} {k : ℕ} (root : F) (hk : k ≤ cs.length)
    (h : ∀ k ≤ cs.length, env'.filesystems (join '/' (cs.take k)) = env.filesystems (join '/' (cs.take k))) :
    fsAt env' root cs k = fsAt env root cs k := by
  rw [fsAt, fsAt, h k hk]

/-- Another mount table: each of its mountpoints is a directory, or is one that there was, with the same ones
above it. -/
theorem Inv.of_find (h : s.Inv) (htable : MountTable m'.filesystems)
    (hmount : ∀ root cs c, m'.find ['/'] = some root → Canonical (cs ++ [c]) →
      (m'.find (join '/' (cs ++ [c]))).isSome = true →
        (∀ k ≤ cs.length, m'.find (join '/' (cs.take k)) = s.manager.find (join '/' (cs.take k))) ∧
        s.manager.find ['/'] = some root ∧
        ((s.manager.find (join '/' (cs ++ [c]))).isSome = true ∨
          cs.drop (mountDepth (s.manager.env s.calls) cs) ++ [c] ∈
            (s.tree (fsAt (s.manager.env s.calls) root cs (mountDepth (s.manager.env s.calls) cs))).dirs)) :
    Inv { s with manager := m' } := by
  refine ⟨htable, ?_⟩
  rintro _ _ ⟨root, cs, c, hroot, hcan, hsome, rfl, rfl⟩
  obtain ⟨hsame, hroot', hold⟩ := hmount root cs c hroot hcan hsome
  have hsame' : ∀ k ≤ cs.length, (m'.env (calls ⟨m', s.tree⟩)).filesystems (join '/' (cs.take k)) =
      (s.manager.env s.calls).filesystems (join '/' (cs.take k)) := hsame
  rw [mountDepth_congr hsame', fsAt_congr root (mountDepth_le cs) hsame']
  obtain hold | hdir := hold
  · exact h.anchored _ _ ⟨root, cs, c, hroot', hcan, hold, rfl, rfl⟩
  · exact hdir

theorem lookup_filter {K V : Type} [BEq K] [LawfulBEq K] (p : K → Bool) (l : List (K × V)) (key : K) :
    (l.filter fun e => p e.1).lookup key = if p key then l.lookup key else none := by
  induction l with
  | nil => simp
  | cons e l ih =>
    obtain ⟨k, v⟩ := e
    by_cases hk : key = k
    · subst hk
      by_cases hp : p key = true <;> simp [hp, ih]
    · have hne : (key == k) = false := by simpa using hk
      by_cases hp : p k = true <;> simp [hp, ih, List.lookup_cons, hne]

theorem umount_inv [DecidableEq F] (h : s.Inv) (path : List Char) (force : Bool) (ongoing : ℕ → List (FileBase F)) :
    Inv { s with manager := (s.manager.umount path force ongoing).2 } := by
  have hrun : s.manager.umount path force ongoing = (_, (s.manager.umount path force ongoing).2) := rfl
  obtain hsame | ⟨hmem, hne, hfilter⟩ := umount_filesystems hrun
  · have hfind : ∀ key, (s.manager.umount path force ongoing).2.find key = s.manager.find key := fun key => by
      rw [find, find, hsame]
    refine h.of_find (hsame ▸ h.table) fun root cs c hroot _ hsome => ?_
    rw [hfind] at hroot hsome
    exact ⟨fun k _ => hfind _, hroot, Or.inl hsome⟩
  · have hfind : ∀ key, (s.manager.umount path force ongoing).2.find key =
        if startsWith key path then none else s.manager.find key := fun key => by
      rw [find, hfilter, lookup_filter (fun key => !startsWith key path)]
      cases startsWith key path <;> simp [find]
    refine h.of_find (hfilter ▸ h.table.filter hne hmem) fun root cs c hroot _ hsome => ?_
    rw [hfind] at hroot hsome
    have hkey : ¬ startsWith (join '/' (cs ++ [c])) path = true := fun hs => by
      rw [if_pos hs] at hsome
      cases hsome
    refine ⟨fun k _ => ?_, ?_, Or.inl (by rwa [if_neg hkey] at hsome)⟩
    · -- what is above a mountpoint that is left is left too
      have hpre : join '/' (cs.take k) <+: join '/' (cs ++ [c]) := by
        conv_rhs => rw [← List.take_append_drop k cs, List.append_assoc, join_append]
        exact List.prefix_append _ _
      rw [hfind, if_neg fun hs => hkey ?_]
      exact List.isPrefixOf_iff_prefix.2 ((List.isPrefixOf_iff_prefix.1 hs).trans hpre)
    · split_ifs at hroot
      exact hroot

theorem find_concat (m : FilesystemManager F) (path : List Char) (fs : F) (key : List Char) :
    List.lookup key (m.filesystems ++ [(path, fs)]) = (m.find key).or (if key = path then some fs else none) := by
  rw [List.lookup_append, find, List.lookup_cons, List.lookup_nil]
  by_cases hk : key = path
  · rw [if_pos hk, beq_iff_eq.2 hk]
  · rw [if_neg hk, beq_eq_false_iff_ne.2 hk]

theorem NothingBelow.not_mounted {c cs : List (List Char)} (h : NothingBelow m c) (hne : cs ≠ []) :
    ¬ (m.find (join '/' (c ++ cs))).isSome = true := fun hm => by
  refine h _ hm ?_
  rw [join_append]
  exact (List.prefix_append_right_inj _).2 (singleton_isPrefix_join hne)

/-- What `lstat` tells about a directory. -/
theorem mem_dirs_of_lstat {fs : F} {path : List Char} (h : s.calls.lstat fs path = (0, .directory)) :
    components path ∈ (s.tree fs).dirs := by
  by_contra hno
  simp only [calls, if_neg hno] at h
  split_ifs at h <;> simp at h

theorem kmount_inv (h : s.Inv) (hfuel : enoughFuel ≤ fuel) {path : List Char} {fs : Option F} {r : ℤ}
    (hharmless : s.Harmless (.kmount path fs)) (hrun : s.manager.kmount s.calls fuel path fs = .ok (r, m')) :
    Inv { s with manager := m' } := by
  obtain rfl | ⟨fs, hnil, rfl⟩ | ⟨root, d, k, fs, hroot, hd, hdne, hlen, -, -, hresolve, hlstat, hnew, rfl⟩ :=
    kmount_cases hfuel hrun
  · exact h
  · refine h.of_find (.singleton fs) fun root cs c _ hcan hsome => ?_
    have hkey : join '/' (cs ++ [c]) = ['/'] := by simpa [find, isSome_find] using isSome_find.1 hsome
    exact absurd hkey (join_ne_slash hcan)
  · obtain ⟨q, hresolve', hneg | ⟨root', c', k', hroot', hpath, hc', -, rfl, hk'⟩⟩ :=
      resolvePath_cases s hfuel path false
    · obtain rfl := Except.ok.inj (hresolve.symm.trans hresolve')
      exact absurd hneg (by simp [resolved])
    have heq := Except.ok.inj (hresolve.symm.trans hresolve')
    obtain rfl : d = c' := join_injective hd.free hc'.free (Prod.mk.inj heq).1
    have hdepth : k' = mountDepth (s.manager.env s.calls) d := by
      obtain hk' | ⟨-, -, hmounted⟩ := hk'
      · exact hk'
      · rw [hnew] at hmounted
        cases hmounted
    -- the directory that is mounted on, by its canonical path
    have hdir : d.drop k' ∈ (s.tree (fsAt (s.manager.env s.calls) root' d k')).dirs := by
      have hfs : fsAt (s.manager.env s.calls) root d k = fsAt (s.manager.env s.calls) root' d k' :=
        Option.some.inj (congrArg (fun q => q.2.fs) heq)
      have hrel : relativePath d k = relativePath d k' := by
        rw [← drop_resolved (s.manager.env s.calls) root d k, heq, drop_resolved]
      rw [hfs, hrel] at hlstat
      rw [← components_relativePath hd]
      exact mem_dirs_of_lstat hlstat
    have hfind : ∀ key, List.lookup key (s.manager.filesystems ++ [(join '/' d, fs)]) =
        (s.manager.find key).or (if key = join '/' d then some fs else none) := find_concat _ _ _
    have hbelow := hharmless d hpath hdne hnew
    have htable : MountTable (s.manager.filesystems ++ [(join '/' d, fs)]) := by
      refine h.table.concat (isSome_find.1 (by rw [hroot]; rfl)) hd hdne hlen ?_ fs
      rw [← isSome_find, hnew]
      exact Bool.false_ne_true
    refine h.of_find htable fun root'' cs c hroot'' hcan hsome => ?_
    rw [find, hfind, if_neg (join_ne_slash hd).symm, Option.or_none] at hroot''
    rw [find, hfind] at hsome
    have hsame : (∀ k ≤ cs.length, cs.take k ≠ d) → ∀ k ≤ cs.length,
        List.lookup (join '/' (cs.take k)) (s.manager.filesystems ++ [(join '/' d, fs)]) =
          s.manager.find (join '/' (cs.take k)) := by
      intro hne k hk
      have hkey : join '/' (cs.take k) ≠ join '/' d := fun heq =>
        hne k hk (join_injective (hcan.prefix_of.take k).free hd.free heq)
      rw [hfind, if_neg hkey, Option.or_none]
    by_cases hnewkey : cs ++ [c] = d
    · -- the new mountpoint
      have hshort : ∀ k ≤ cs.length, cs.take k ≠ d := fun k hk heq => by
        have := congrArg List.length (heq.trans hnewkey.symm)
        simp at this
        omega
      have hd' : mountDepth (s.manager.env s.calls) d = mountDepth (s.manager.env s.calls) cs := by
        rw [← hnewkey, mountDepth_concat, if_neg]
        rw [hnewkey]
        exact fun hm => by
          have : (s.manager.find (join '/' d)).isSome = true := hm
          rw [hnew] at this
          cases this
      refine ⟨hsame hshort, hroot'', Or.inr ?_⟩
      have hle : k' ≤ cs.length := hdepth ▸ hd' ▸ mountDepth_le cs
      obtain rfl : root' = root'' := Option.some.inj (hroot'.symm.trans hroot'')
      rw [← hd', ← hdepth]
      rwa [← hnewkey, fsAt_concat hle, List.drop_append_of_le_length hle] at hdir
    · have hold : (s.manager.find (join '/' (cs ++ [c]))).isSome = true := by
        have hkey : join '/' (cs ++ [c]) ≠ join '/' d := fun heq =>
          hnewkey (join_injective hcan.free hd.free heq)
        rwa [if_neg hkey, Option.or_none] at hsome
      refine ⟨hsame fun k hk heq => ?_, hroot'', Or.inl hold⟩
      rw [← List.take_append_drop k cs, heq, List.append_assoc] at hold
      exact hbelow.not_mounted (by simp) hold

/-! ### Calls of a filesystem -/

/-- The path in `fs` of a call on the canonical path `c`. -/
structure CallAt (s : MountedTrees F) (path : List Char) (fs : F) (sp : List Char) (c : List (List Char)) (k : ℕ) :
    Prop where
  canonicalPath : canonicalPath path = some c
  canonical : Canonical c
  fs : ∃ root, s.manager.find ['/'] = some root ∧ fs = fsAt (s.manager.env s.calls) root c k
  components : components sp = c.drop k
  depth : k = mountDepth (s.manager.env s.calls) c ∨
    LeavesLast (s.manager.env s.calls) [] (path.tail.splitOn '/') c ∧ c ≠ [] ∧
      (s.manager.find (join '/' c)).isSome = true

theorem callAt_of_resolvePath {path path' : List Char} {openData : ResolvedPath F} {fs : F}
    (hfuel : enoughFuel ≤ fuel) (h : s.manager.resolvePath s.calls fuel path true = .ok (path', openData))
    (hres : ¬ openData.result < 0) (hfs : openData.fs = some fs) :
    ∃ c k, path' = join '/' c ∧ CallAt s path fs (path'.drop openData.off) c k := by
  obtain ⟨q, hrun, hq⟩ := resolvePath_cases s hfuel path true
  obtain rfl : (path', openData) = q := Except.ok.inj (h.symm.trans hrun)
  obtain ⟨root, c, k, hroot, hpath, hc, -, heq, hk⟩ := hq.resolve_left hres
  have hdrop := drop_resolved (s.manager.env s.calls) root c k
  rw [← heq] at hdrop
  refine ⟨c, k, (Prod.mk.inj heq).1, hpath, hc, ⟨root, hroot, ?_⟩, ?_, hk⟩
  · rw [(Prod.mk.inj heq).2] at hfs
    exact (Option.some.inj hfs).symm
  · exact (congrArg MountedTrees.components hdrop).trans (components_relativePath hc k)

theorem directoryCall_spec {cwd name sp : List Char} {fs : F} (hfuel : enoughFuel ≤ fuel)
    (h : s.manager.directoryCall s.calls fuel cwd name = .ok (.ok (fs, sp))) :
    ∃ c k, CallAt s (absolutePath cwd name) fs sp c k := by
  unfold directoryCall at h
  dsimp only at h
  split_ifs at h
  · cases h
  · cases h
  obtain ⟨⟨path', openData⟩, hrun, h⟩ := bind_eq_ok h
  dsimp only at h
  split at h
  · rename_i fs' hfs
    split_ifs at h with hres
    · cases h
    obtain ⟨rfl, rfl⟩ := Prod.mk.inj (Except.ok.inj (Except.ok.inj h))
    obtain ⟨c, k, -, hcall⟩ := callAt_of_resolvePath hfuel hrun hres hfs
    exact ⟨c, k, hcall⟩
  · cases h

theorem unlink_spec {cwd name sp : List Char} {fs : F} (hfuel : enoughFuel ≤ fuel)
    (h : s.manager.unlink s.calls fuel cwd name = .ok (.ok (fs, sp))) :
    ∃ c k, CallAt s (absolutePath cwd name) fs sp c k ∧ s.manager.find (join '/' c) = none := by
  unfold FilesystemManager.unlink at h
  dsimp only at h
  split_ifs at h
  · cases h
  · cases h
  unfold unlinkHelper at h
  obtain ⟨⟨path', openData⟩, hrun, h⟩ := bind_eq_ok h
  dsimp only at h
  split at h
  · rename_i fs' hfs
    split_ifs at h with hres hbusy
    · cases h
    · cases h
    obtain ⟨rfl, rfl⟩ := Prod.mk.inj (Except.ok.inj (Except.ok.inj h))
    obtain ⟨c, k, rfl, hcall⟩ := callAt_of_resolvePath hfuel hrun hres hfs
    exact ⟨c, k, hcall, Option.not_isSome_iff_eq_none.1 hbusy⟩
  · cases h

theorem rename_spec [DecidableEq F] {cwd oldName newName oldSp newSp : List Char} {fs : F} (hfuel : enoughFuel ≤ fuel)
    (h : s.manager.rename s.calls fuel cwd oldName newName = .ok (.ok (fs, oldSp, newSp))) :
    ∃ c k c' k', CallAt s (absolutePath cwd oldName) fs oldSp c k ∧ s.manager.find (join '/' c) = none ∧
      CallAt s (absolutePath cwd newName) fs newSp c' k' ∧ s.manager.find (join '/' c') = none := by
  unfold FilesystemManager.rename at h
  dsimp only at h
  split_ifs at h
  · cases h
  · cases h
  · cases h
  unfold renameHelper at h
  obtain ⟨⟨oldPath', oldOpenData⟩, hold, h⟩ := bind_eq_ok h
  dsimp only at h
  by_cases holdRes : oldOpenData.result < 0
  · rw [if_pos holdRes] at h
    cases h
  rw [if_neg holdRes] at h
  obtain ⟨⟨newPath', newOpenData⟩, hnew, h⟩ := bind_eq_ok h
  dsimp only at h
  by_cases hnewRes : newOpenData.result < 0
  · rw [if_pos hnewRes] at h
    cases h
  rw [if_neg hnewRes] at h
  split at h
  · rename_i fs' hfs
    split_ifs at h with hxdev hbusy hbusy' hinval
    · cases h
    · cases h
    · cases h
    · cases h
    obtain ⟨rfl, heq⟩ := Prod.mk.inj (Except.ok.inj (Except.ok.inj h))
    obtain ⟨rfl, rfl⟩ := Prod.mk.inj heq
    obtain ⟨c, k, rfl, hcall⟩ := callAt_of_resolvePath hfuel hold holdRes hfs
    obtain ⟨c', k', rfl, hcall'⟩ := callAt_of_resolvePath hfuel hnew hnewRes (not_not.1 hxdev)
    exact ⟨c, k, c', k', hcall, Option.not_isSome_iff_eq_none.1 hbusy, hcall',
      Option.not_isSome_iff_eq_none.1 hbusy'⟩
  · cases h

/-- Unless it left a filesystem to a mountpoint, the call is in the filesystem of its path. -/
theorem CallAt.depth_eq {path sp : List Char} {fs : F} {c : List (List Char)} {k : ℕ}
    (h : CallAt s path fs sp c k)
    (hno : ¬ (LeavesLast (s.manager.env s.calls) [] (path.tail.splitOn '/') c ∧ c ≠ [] ∧
      (s.manager.find (join '/' c)).isSome = true)) : k = mountDepth (s.manager.env s.calls) c :=
  h.depth.resolve_right hno

theorem CallAt.once {path sp : List Char} {fs : F} {c : List (List Char)}
    (h : CallAt s path fs sp c (mountDepth (s.manager.env s.calls) c))
    (honce : MountedOnce s.manager (s.manager.env s.calls) c) (key key' : List Char)
    (hkey : s.manager.find key = some fs) (hkey' : s.manager.find key' = some fs) : key = key' := by
  obtain ⟨root, hroot, rfl⟩ := h.fs
  exact honce _ _ (mountedAt_mountDepth hroot c) key key' hkey hkey'

/-- An anchor in the filesystem of a call is below the place where it is mounted. -/
theorem CallAt.mounted {path sp : List Char} {fs : F} {c a : List (List Char)}
    (h : CallAt s path fs sp c (mountDepth (s.manager.env s.calls) c))
    (honce : ∀ key key', s.manager.find key = some fs → s.manager.find key' = some fs → key = key')
    (ha : IsAnchor (s.manager.env s.calls) fs a) :
    (s.manager.find (join '/' (c.take (mountDepth (s.manager.env s.calls) c) ++ a))).isSome = true := by
  obtain ⟨root, hroot, hfs⟩ := h.fs
  exact ha.mounted hroot h.canonical hfs honce

theorem rmdir_inv [DecidableEq F] (h : s.Inv) {cwd name sp : List Char} {fs : F} {refuses : Bool} (hfuel : enoughFuel ≤ fuel)
    (hharmless : s.Harmless (.rmdir refuses cwd name))
    (hrun : s.manager.rmdir s.calls fuel cwd name = .ok (.ok (fs, sp))) :
    (s.change fs refuses (·.rmdir (components sp))).Inv := by
  obtain ⟨c, k, hcall⟩ := directoryCall_spec hfuel hrun
  obtain ⟨honce, hleaves⟩ := hharmless c hcall.canonicalPath
  obtain rfl := hcall.depth_eq hleaves
  refine h.change fun t a ht ha hdir => ?_
  have hmounted := hcall.mounted (hcall.once honce) ha
  rw [hcall.components] at ht
  dsimp only [DirTree.rmdir] at ht
  split_ifs at ht
  refine DirTree.mem_dirs_remove ht hdir ?_
  rintro rfl
  -- the directory would be the root of a filesystem
  rw [List.take_append_drop] at hmounted
  obtain ⟨root, cs, x, -, -, -, -, heq⟩ := ha
  have hne : c ≠ [] := by
    rintro rfl
    simp at heq
  rw [mountDepth_of_mounted hne hmounted, List.drop_length] at heq
  simp at heq

theorem unlink_inv [DecidableEq F] (h : s.Inv) {cwd name sp : List Char} {fs : F} {refuses : Bool} (hfuel : enoughFuel ≤ fuel)
    (hharmless : s.Harmless (.unlink refuses cwd name))
    (hrun : s.manager.unlink s.calls fuel cwd name = .ok (.ok (fs, sp))) :
    (s.change fs refuses (·.remove (components sp))).Inv := by
  obtain ⟨c, k, hcall, hnot⟩ := unlink_spec hfuel hrun
  have hno : ¬ (s.manager.find (join '/' c)).isSome = true := by
    rw [hnot]
    exact Bool.false_ne_true
  obtain rfl := hcall.depth_eq fun hleaves => hno hleaves.2.2
  refine h.change fun t a ht ha hdir => ?_
  rw [hcall.components] at ht
  refine DirTree.mem_dirs_remove ht hdir ?_
  rintro rfl
  have hmounted := hcall.mounted (hcall.once (hharmless c hcall.canonicalPath)) ha
  rw [List.take_append_drop] at hmounted
  exact hno hmounted

theorem rename_inv [DecidableEq F] (h : s.Inv) {cwd oldName newName oldSp newSp : List Char} {fs : F} {refuses : Bool}
    (hfuel : enoughFuel ≤ fuel) (hharmless : s.Harmless (.rename refuses cwd oldName newName))
    (hrun : s.manager.rename s.calls fuel cwd oldName newName = .ok (.ok (fs, oldSp, newSp))) :
    (s.change fs refuses (·.rename (components oldSp) (components newSp))).Inv := by
  obtain ⟨c, k, c', k', hcall, hnot, hcall', hnot'⟩ := rename_spec hfuel hrun
  have hno : ∀ {c}, s.manager.find (join '/' c) = none → ¬ (s.manager.find (join '/' c)).isSome = true := by
    intro c hc
    rw [hc]
    exact Bool.false_ne_true
  obtain rfl := hcall.depth_eq fun hleaves => hno hnot hleaves.2.2
  obtain rfl := hcall'.depth_eq fun hleaves => hno hnot' hleaves.2.2
  obtain ⟨honce, hbelow⟩ := hharmless c hcall.canonicalPath
  refine h.change fun t a ht ha hdir => ?_
  rw [hcall.components, hcall'.components] at ht
  refine DirTree.mem_dirs_rename ht hdir ?_ ?_
  · rintro ⟨u, rfl⟩
    have hmounted := hcall.mounted (hcall.once honce) ha
    rw [← List.append_assoc, List.take_append_drop] at hmounted
    have hu : u ≠ [] := by
      rintro rfl
      rw [List.append_nil] at hmounted
      exact hno hnot hmounted
    have hc : c ≠ [] := by
      rintro rfl
      unfold DirTree.rename at ht
      split_ifs at ht with hm
      exact hm.ne_nil rfl
    exact (hbelow hc).not_mounted hu hmounted
  · rintro rfl
    have hmounted := hcall'.mounted (hcall.once honce) ha
    rw [List.take_append_drop] at hmounted
    exact hno hnot' hmounted

theorem mkdir_inv [DecidableEq F] (h : s.Inv) (fs : F) (refuses : Bool) (sp : List Char) :
    (s.change fs refuses (·.mkdir (components sp))).Inv :=
  h.change fun _ _ ht _ hdir => DirTree.mem_dirs_mkdir ht hdir

/-! ### Every operation ends -/

theorem resolvePath_ends (s : MountedTrees F) (hfuel : enoughFuel ≤ fuel) (path : List Char) (f : Bool) :
    ∃ q, s.manager.resolvePath s.calls fuel path f = .ok q :=
  (resolvePath_cases s hfuel path f).imp fun _ h => h.1

theorem ends_bind {α β : Type} {x : Except PathFault α} {f : α → Except PathFault β} (hx : ∃ a, x = .ok a)
    (hf : ∀ a, ∃ b, f a = .ok b) : ∃ b, x >>= f = .ok b := by
  obtain ⟨a, rfl⟩ := hx
  exact hf a

theorem statHelper_ends (s : MountedTrees F) (hfuel : enoughFuel ≤ fuel) (path : List Char) (f : Bool) :
    ∃ q, s.manager.statHelper s.calls fuel path f = .ok q := by
  refine ends_bind (resolvePath_ends s hfuel path f) fun q => ?_
  dsimp only
  split
  · split_ifs <;> exact ⟨_, rfl⟩
  · exact ⟨_, rfl⟩

theorem kmount_ends (s : MountedTrees F) (hfuel : enoughFuel ≤ fuel) (path : List Char) (fs : Option F) :
    ∃ q, s.manager.kmount s.calls fuel path fs = .ok q := by
  unfold kmount
  split
  · exact ⟨_, rfl⟩
  · exact ⟨_, rfl⟩
  · by_cases hlong : path.length > PATH_MAX
    · exact ⟨_, if_pos hlong⟩
    rw [if_neg hlong]
    by_cases hroot : path = ['/'] ∧ s.manager.filesystems = []
    · exact ⟨_, if_pos hroot⟩
    rw [if_neg hroot]
    refine ends_bind (statHelper_ends s hfuel _ _) fun q => ?_
    dsimp only
    by_cases hres : q.1 = 0
    swap
    · exact ⟨_, if_pos hres⟩
    rw [if_neg (not_not.2 hres)]
    by_cases hdir : q.2.1 = .directory
    swap
    · exact ⟨_, if_pos hdir⟩
    rw [if_neg (not_not.2 hdir)]
    refine ends_bind (statHelper_ends s hfuel _ _) fun q' => ?_
    split_ifs <;> exact ⟨_, rfl⟩

theorem directoryCall_ends (s : MountedTrees F) (hfuel : enoughFuel ≤ fuel) (cwd name : List Char) :
    ∃ q, s.manager.directoryCall s.calls fuel cwd name = .ok q := by
  unfold directoryCall
  dsimp only
  split_ifs
  · exact ⟨_, rfl⟩
  · exact ⟨_, rfl⟩
  · refine ends_bind (resolvePath_ends s hfuel _ true) fun q => ?_
    split
    · split_ifs <;> exact ⟨_, rfl⟩
    · exact ⟨_, rfl⟩

theorem unlink_ends (s : MountedTrees F) (hfuel : enoughFuel ≤ fuel) (cwd name : List Char) :
    ∃ q, s.manager.unlink s.calls fuel cwd name = .ok q := by
  unfold FilesystemManager.unlink
  dsimp only
  split_ifs
  · exact ⟨_, rfl⟩
  · exact ⟨_, rfl⟩
  · refine ends_bind (resolvePath_ends s hfuel _ true) fun q => ?_
    dsimp only
    split
    · split_ifs <;> exact ⟨_, rfl⟩
    · exact ⟨_, rfl⟩

theorem rename_ends [DecidableEq F] (s : MountedTrees F) (hfuel : enoughFuel ≤ fuel) (cwd oldName newName : List Char) :
    ∃ q, s.manager.rename s.calls fuel cwd oldName newName = .ok q := by
  unfold FilesystemManager.rename
  dsimp only
  split_ifs
  · exact ⟨_, rfl⟩
  · exact ⟨_, rfl⟩
  · exact ⟨_, rfl⟩
  · refine ends_bind (resolvePath_ends s hfuel _ true) fun q => ?_
    dsimp only
    by_cases hres : q.2.result < 0
    · exact ⟨_, if_pos hres⟩
    rw [if_neg hres]
    refine ends_bind (resolvePath_ends s hfuel _ true) fun q' => ?_
    by_cases hres' : q'.2.result < 0
    · exact ⟨_, if_pos hres'⟩
    rw [if_neg hres']
    split
    · split_ifs <;> exact ⟨_, rfl⟩
    · exact ⟨_, rfl⟩

/-- **One operation.** -/
theorem step_inv [DecidableEq F] (h : s.Inv) (hfuel : enoughFuel ≤ fuel) (op : Op F) (hharmless : s.Harmless op) :
    ∃ s', s.step fuel op = .ok s' ∧ s'.Inv := by
  cases op with
  | kmount path fs =>
    obtain ⟨⟨r, m'⟩, hrun⟩ := kmount_ends s hfuel path fs
    exact ⟨_, by rw [step, hrun]; rfl, kmount_inv h hfuel hharmless hrun⟩
  | umount path force ongoing => exact ⟨_, rfl, umount_inv h path force ongoing⟩
  | mkdir refuses cwd name =>
    obtain ⟨result | ⟨fs, sp⟩, hrun⟩ := directoryCall_ends s hfuel cwd name
    · exact ⟨s, by rw [step, FilesystemManager.mkdir, hrun]; rfl, h⟩
    · exact ⟨_, by rw [step, FilesystemManager.mkdir, hrun]; rfl, mkdir_inv h fs refuses sp⟩
  | rmdir refuses cwd name =>
    obtain ⟨result | ⟨fs, sp⟩, hrun⟩ := directoryCall_ends s hfuel cwd name
    · exact ⟨s, by rw [step, FilesystemManager.rmdir, hrun]; rfl, h⟩
    · exact ⟨_, by rw [step, FilesystemManager.rmdir, hrun]; rfl, rmdir_inv h hfuel hharmless hrun⟩
  | unlink refuses cwd name =>
    obtain ⟨result | ⟨fs, sp⟩, hrun⟩ := unlink_ends s hfuel cwd name
    · exact ⟨s, by rw [step, hrun]; rfl, h⟩
    · exact ⟨_, by rw [step, hrun]; rfl, unlink_inv h hfuel hharmless hrun⟩
  | rename refuses cwd oldName newName =>
    obtain ⟨result | ⟨fs, oldSp, newSp⟩, hrun⟩ := rename_ends s hfuel cwd oldName newName
    · exact ⟨s, by rw [step, hrun]; rfl, h⟩
    · exact ⟨_, by rw [step, hrun]; rfl, rename_inv h hfuel hharmless hrun⟩

theorem run_inv [DecidableEq F] (h : s.Inv) (hfuel : enoughFuel ≤ fuel) (ops : List (Op F)) (hops : HarmlessRun fuel s ops) :
    ∃ s', s.run fuel ops = .ok s' ∧ s'.Inv := by
  induction ops generalizing s with
  | nil => exact ⟨s, rfl, h⟩
  | cons op ops ih =>
    obtain ⟨s', hstep, h'⟩ := step_inv h hfuel op hops.1
    obtain ⟨s'', hrun, h''⟩ := ih h' (hops.2 s' hstep)
    exact ⟨s'', by rw [run, hstep, ok_bind, hrun], h''⟩

/-- **Every mountpoint is a directory**, in every state that harmless operations lead to. -/
theorem run_anchored [DecidableEq F] (tree : F → DirTree (List Char)) (hfuel : enoughFuel ≤ fuel) (ops : List (Op F))
    (hops : HarmlessRun fuel (init tree) ops) :
    ∃ s, (init tree).run fuel ops = .ok s ∧ s.Anchored fuel := by
  obtain ⟨s, hrun, h⟩ := run_inv (init_inv tree) hfuel ops hops
  exact ⟨s, hrun, h.toAnchored hfuel⟩

/-- A filesystem with a directory, and another one mounted on it. -/
theorem run_anchored_mount : ∃ s : MountedTrees ℕ, (init fun _ => .empty).run enoughFuel
      [.kmount "/".toList (some 0), .mkdir false "/".toList "a".toList, .kmount "/a/".toList (some 1)] = .ok s ∧
    s.Anchored enoughFuel := by
  refine run_anchored _ le_rfl _ ⟨?_, fun s' h => ⟨trivial, fun s'' h' => ⟨?_, fun _ _ => trivial⟩⟩⟩
  · intro c hc hne
    have hroot : canonicalPath "/".toList = some [] := by decide
    exact absurd (Option.some.inj (hc.symm.trans hroot)) hne
  · have hstep : (init fun _ : ℕ => .empty).step enoughFuel (.kmount "/".toList (some 0)) =
        .ok ⟨⟨[("/".toList, 0)], []⟩, fun _ => .empty⟩ := by rfl
    obtain rfl := Except.ok.inj (h.symm.trans hstep)
    have htable : s''.manager.filesystems = [("/".toList, 0)] := by
      cases h'
      rfl
    intro c hc _ _ key hkey hpre
    rw [isSome_find, htable] at hkey
    obtain rfl : key = ['/'] := by simpa using hkey
    have hcanon : canonicalPath "/a/".toList = some ["a".toList] := by decide
    obtain rfl := Option.some.inj (hc.symm.trans hcanon)
    exact absurd hpre (by decide)

/-- `/a` is renamed, and `/a/b` is a mountpoint. -/
theorem rename_mountpoint : ∃ s : MountedTrees ℕ, (init fun _ => .empty).run enoughFuel
      [.kmount "/".toList (some 0), .mkdir false "/".toList "a".toList, .mkdir false "/".toList "a/b".toList,
        .kmount "/a/b".toList (some 1), .rename false "/".toList "a".toList "c".toList] = .ok s ∧
    (s.manager.find "/a/b".toList).isSome = true ∧ ¬ s.Anchored enoughFuel := by
  refine ⟨_, by rfl, by rfl, fun h => ?_⟩
  obtain ⟨path, resolved, fs, hrun, -, hfs, hdir⟩ := h ["a".toList] "b".toList (by decide) (by rfl)
  have hparent : (Except.ok (path, resolved) : Except PathFault _) = .ok ("/a".toList, ⟨0, some 0, 1⟩) :=
    hrun.symm.trans (by rfl)
  obtain ⟨rfl, rfl⟩ := Prod.mk.inj (Except.ok.inj hparent)
  obtain rfl := Option.some.inj hfs
  exact absurd hdir (by decide)

end Steps

end MountedTrees

end Miosix
