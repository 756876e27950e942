import MiosixKernel.Path.Resolution
import Mathlib.Data.Nat.Find
import Mathlib.Tactic.Ring

/-!
# Canonical paths

* `Canonical`, `canonicalForm`: components without empty ones, `.` and `..`, and what is left of the
  components of a path;
* `mountDepth`, `fsAt`: the longest part of a canonical path that is a mountpoint, and its filesystem;
* `At`: the state of a path resolution that has handled some components;
* `component_empty`, `component_up`, `component_normal`: what it does to the next one.
-/

namespace Miosix

namespace PathResolution

open Lib

/-! ## Canonical paths -/

def Canonical (cs : List (List Char)) : Prop :=
  ∀ c ∈ cs, c ≠ [] ∧ c ≠ ['.'] ∧ c ≠ ['.', '.'] ∧ '/' ∉ c

instance (cs : List (List Char)) : Decidable (Canonical cs) := by
  unfold Canonical
  infer_instance

/-- Go on from the components `cs`: a `..` cancels the component before it. -/
def canonicalForm (cs : List (List Char)) : List (List Char) → Option (List (List Char))
  | [] => some cs
  | c :: rest =>
    if c = [] ∨ c = ['.'] then canonicalForm cs rest
    else if c = ['.', '.'] then
      if cs = [] then none else canonicalForm cs.dropLast rest
    else canonicalForm (cs ++ [c]) rest

section Canonical

variable {cs rest : List (List Char)} {c x : List Char}

theorem Canonical.free (h : Canonical cs) : ∀ c ∈ cs, '/' ∉ c := fun c hc => (h c hc).2.2.2

theorem Canonical.nil : Canonical [] := fun _ h => absurd h List.not_mem_nil

theorem Canonical.prefix_of (h : Canonical (cs ++ rest)) : Canonical cs := fun c hc =>
  h c (List.mem_append_left _ hc)

theorem Canonical.take (h : Canonical cs) (k : ℕ) : Canonical (cs.take k) := fun d hd =>
  h d (List.mem_of_mem_take hd)

theorem Canonical.drop (h : Canonical cs) (k : ℕ) : Canonical (cs.drop k) := fun d hd =>
  h d (List.mem_of_mem_drop hd)

theorem Canonical.concat (h : Canonical cs) (hc : c ≠ []) (hdot : c ≠ ['.']) (hup : c ≠ ['.', '.'])
    (hfree : '/' ∉ c) : Canonical (cs ++ [c]) := fun d hd => by
  obtain hd | hd := List.mem_append.1 hd
  · exact h d hd
  · rw [List.mem_singleton.1 hd]
    exact ⟨hc, hdot, hup, hfree⟩

end Canonical

/-! ## Mountpoints -/

variable {F : Type} {env : Filesystems F} {root : F} {cs rest : List (List Char)} {c x : List Char}

/-- How many components of a path lead to the filesystem that it is in. -/
def mountDepth (env : Filesystems F) (cs : List (List Char)) : ℕ :=
  Nat.findGreatest (fun k => (env.filesystems (join '/' (cs.take k))).isSome = true) cs.length

/-- The filesystem at the first `k` components of a path. -/
def fsAt (env : Filesystems F) (root : F) (cs : List (List Char)) (k : ℕ) : F :=
  if k = 0 then root else (env.filesystems (join '/' (cs.take k))).getD root

theorem mountDepth_le (cs : List (List Char)) : mountDepth env cs ≤ cs.length :=
  Nat.findGreatest_le _

@[simp] theorem mountDepth_nil : mountDepth env [] = 0 := rfl

theorem mountDepth_mounted (cs : List (List Char)) : mountDepth env cs = 0 ∨
    (env.filesystems (join '/' (cs.take (mountDepth env cs)))).isSome = true :=
  (Nat.eq_zero_or_pos _).imp_right fun h => (Nat.findGreatest_eq_iff.1 rfl).2.1 h.ne'

theorem mountDepth_concat : mountDepth env (cs ++ [c]) =
    if (env.filesystems (join '/' (cs ++ [c]))).isSome then cs.length + 1 else mountDepth env cs := by
  have hcongr : ∀ n ≤ cs.length,
      Nat.findGreatest (fun k => (env.filesystems (join '/' ((cs ++ [c]).take k))).isSome = true) n =
        Nat.findGreatest (fun k => (env.filesystems (join '/' (cs.take k))).isSome = true) n := by
    intro n hn
    induction n with
    | zero => rfl
    | succ n ih =>
      rw [Nat.findGreatest_succ, Nat.findGreatest_succ, ih (Nat.le_of_succ_le hn),
        List.take_append_of_le_length hn]
  rw [mountDepth, List.length_append, List.length_singleton, Nat.findGreatest_succ,
    hcongr _ le_rfl, List.take_of_length_le (by simp), mountDepth]

theorem fsAt_concat {k : ℕ} (hk : k ≤ cs.length) : fsAt env root (cs ++ [c]) k = fsAt env root cs k := by
  rw [fsAt, fsAt, List.take_append_of_le_length hk]

theorem fsAt_concat_self {fs : F} (h : env.filesystems (join '/' (cs ++ [c])) = some fs) :
    fsAt env root (cs ++ [c]) (cs.length + 1) = fs := by
  rw [fsAt, if_neg (Nat.succ_ne_zero _), List.take_of_length_le (by simp), h, Option.getD_some]

/-! ## The state of a path resolution -/

/-- The components `cs` were handled, `rest` comes next, and the filesystem is that of the first `k`
components. A `/` at the end stands before an empty component. -/
structure At (env : Filesystems F) (root : F) (p : PathResolution F) (cs rest : List (List Char)) (k : ℕ) :
    Prop where
  canonical : Canonical cs
  free : ∀ c ∈ rest, '/' ∉ c
  path : p.path = join '/' (cs ++ rest)
  index : p.index = (join '/' cs).length + 1
  root_eq : p.root = root
  le : k ≤ cs.length
  mounted : k = 0 ∨ (env.filesystems (join '/' (cs.take k))).isSome = true
  fs : p.fs = fsAt env root cs k
  syms : p.syms = env.supportsSymlinks p.fs
  off : p.indexIntoFs = min ((join '/' (cs.take k)).length + 1) p.path.length
  depth : rest ≠ [] → k = mountDepth env cs ∧ p.depthIntoFs = 1 + cs.length - k

variable {p : PathResolution F} {k : ℕ}

theorem At.path_eq (h : At env root p cs (c :: rest) k) :
    p.path = join '/' cs ++ ['/'] ++ c ++ join '/' rest := by
  rw [h.path, join_append, join_cons]
  simp

theorem At.slash_eq (h : At env root p cs (c :: rest) k) :
    (findFirstOf p.path '/' p.index).getD p.path.length = p.index + c.length := by
  have hc : '/' ∉ c := h.free c List.mem_cons_self
  have hi : p.index = (join '/' cs ++ ['/']).length := by simp [h.index]
  rw [h.path_eq]
  obtain hr | ⟨t, hr⟩ := join_cases '/' rest
  · rw [hr, List.append_nil, hi, findFirstOf_eq_none hc, Option.getD_none, List.length_append]
  · rw [hr, hi, findFirstOf_append hc, Option.getD_some]

theorem At.getElem? (h : At env root p cs (c :: rest) k) (i : ℕ) :
    p.path[p.index + i]? = (c ++ join '/' rest)[i]? := by
  have hi : p.index = (join '/' cs ++ ['/']).length := by simp [h.index]
  rw [h.path_eq, List.append_assoc, hi, List.getElem?_append_right (Nat.le_add_right _ _),
    Nat.add_sub_cancel_left]

theorem length_join_take_le (cs : List (List Char)) (k : ℕ) :
    (join '/' (cs.take k)).length ≤ (join '/' cs).length := by
  conv_rhs => rw [← List.take_append_drop k cs, join_append, List.length_append]
  exact Nat.le_add_right _ _

theorem length_join_cons (c : List Char) (cs : List (List Char)) :
    (join '/' (c :: cs)).length = c.length + 1 + (join '/' cs).length := by
  rw [join_cons, List.length_cons, List.length_append]
  omega

theorem At.length_eq (h : At env root p cs rest k) :
    p.path.length = (join '/' cs).length + (join '/' rest).length := by
  rw [h.path, join_append, List.length_append]

/-- Before the last component, the offset is in the string. -/
theorem At.off_eq (h : At env root p cs rest k) (hr : rest ≠ []) :
    p.indexIntoFs = (join '/' (cs.take k)).length + 1 := by
  obtain ⟨c, rest, rfl⟩ := List.exists_cons_of_ne_nil hr
  rw [h.off, h.length_eq, length_join_cons]
  have := length_join_take_le cs k
  omega

/-- What comes next: a string that ends with `/` ends with an empty component. -/
def orLast (rest : List (List Char)) : List (List Char) := if rest = [] then [[]] else rest

@[simp] theorem orLast_nil : orLast [] = [[]] := rfl

theorem orLast_of_ne (h : rest ≠ []) : orLast rest = rest := if_neg h

theorem orLast_ne_nil (rest : List (List Char)) : orLast rest ≠ [] := by
  unfold orLast
  split_ifs with h
  · simp
  · exact h

theorem free_orLast (h : ∀ c ∈ rest, '/' ∉ c) : ∀ c ∈ orLast rest, '/' ∉ c := by
  unfold orLast
  split_ifs with hr
  · simp
  · exact h

/-! ## One component -/

/-- Empty components and `.` are removed. -/
theorem At.erase (h : At env root p cs (c :: rest) k) :
    erasePath p.path p.index (c.length + 1) = .ok (join '/' (cs ++ orLast rest)) := by
  have hi : p.index = (join '/' cs ++ ['/']).length := by simp [h.index]
  have hp := h.path_eq
  unfold erasePath
  cases rest with
  | nil =>
    rw [hp, join_nil, List.append_nil, hi, erase_append_end _ _ (Nat.le_succ _)]
    simp
  | cons d rest =>
    have hp' : p.path = join '/' cs ++ ['/'] ++ (c ++ ['/']) ++ (d ++ join '/' rest) := by
      rw [hp, join_cons]
      simp
    rw [hp', hi, show c.length + 1 = (c ++ ['/']).length by simp, erase_append]
    simp [orLast]

theorem At.skip (h : At env root p cs (c :: rest) k) :
    At env root { p with path := join '/' (cs ++ orLast rest) } cs (orLast rest) k where
  canonical := h.canonical
  free := free_orLast fun d hd => h.free d (List.mem_cons_of_mem _ hd)
  path := rfl
  index := h.index
  root_eq := h.root_eq
  le := h.le
  mounted := h.mounted
  fs := h.fs
  syms := h.syms
  off := by
    obtain ⟨d, ds, hd⟩ := List.exists_cons_of_ne_nil (orLast_ne_nil rest)
    have := length_join_take_le cs k
    have := length_join_cons d ds
    rw [h.off_eq (List.cons_ne_nil _ _), hd, join_append, List.length_append]
    omega
  depth _ := h.depth (List.cons_ne_nil _ _)

variable (fuel : ℕ) (followLastSymlink : Bool)

theorem component_skip (h : At env root p cs (c :: rest) k) (hc : c = [] ∨ c = ['.']) :
    ∃ p', component env fuel followLastSymlink p (p.index + c.length) = .ok (0, p') ∧
      At env root p' cs (orLast rest) k ∧ p'.linksFollowed = p.linksFollowed := by
  refine ⟨_, ?_, h.skip, rfl⟩
  have herase := h.erase
  obtain rfl | rfl := hc
  · rw [component, if_pos (by simp), show (1 : ℕ) = ([] : List Char).length + 1 from rfl, herase]
    rfl
  · have hdot : p.path[p.index]? = some '.' := by simpa using h.getElem? 0
    rw [component, if_neg (by simp), if_pos ⟨by simp, hdot⟩,
      show (2 : ℕ) = ['.'].length + 1 from rfl, herase]
    rfl

/-- The search of `recursiveFindFs` goes back to the filesystem of the first `j` components. -/
theorem findFs_spec (env : Filesystems F) (hcs : Canonical cs) : ∀ (j backIndex fuel : ℕ) (p : PathResolution F), j ≤ cs.length →
    join '/' cs <+: p.path → p.root = root →
    findLastOf p.path '/' (backIndex - 1) = some (join '/' (cs.take j)).length → j < fuel →
    forever .stuck (findFsStep env) fuel (p, backIndex) = .ok (0, { p with
      fs := fsAt env root cs (mountDepth env (cs.take j))
      indexIntoFs := (join '/' (cs.take (mountDepth env (cs.take j)))).length + 1
      depthIntoFs := p.depthIntoFs + j - mountDepth env (cs.take j) })
  | 0, backIndex, fuel + 1, p, _, _, hroot, hlast, _ => by
    refine forever_done ?_
    simp [findFsStep, hlast, fsAt, hroot]
  | j + 1, backIndex, fuel + 1, p, hj, hpre, hroot, hlast, hfuel => by
    obtain ⟨t, ht⟩ := hpre
    have hjlt : j < cs.length := hj
    have htake : cs.take (j + 1) = cs.take j ++ [cs[j]] := (List.take_concat_get' cs j hjlt).symm
    have hpath : p.path = join '/' (cs.take (j + 1)) ++ (join '/' (cs.drop (j + 1)) ++ t) := by
      rw [← ht, ← List.append_assoc, ← join_append, List.take_append_drop]
    have hpart : stringPart p.path (join '/' (cs.take (j + 1))).length 0 = join '/' (cs.take (j + 1)) := by
      rw [stringPart, hpath, List.take_left, List.drop_zero]
    have hne : (join '/' (cs.take (j + 1))).length ≠ 0 := by
      rw [htake, join_append, List.length_append, length_join_cons]
      omega
    have hdepth : mountDepth env (cs.take (j + 1)) =
        if (env.filesystems (join '/' (cs.take (j + 1)))).isSome then j + 1
        else mountDepth env (cs.take j) := by
      rw [htake, mountDepth_concat, List.length_take, min_eq_left hjlt.le]
    cases hfs : env.filesystems (join '/' (cs.take (j + 1))) with
    | some fs =>
      rw [hfs, Option.isSome_some, if_pos rfl] at hdepth
      refine forever_done ?_
      have hat : fsAt env root cs (j + 1) = fs := by
        rw [fsAt, if_neg (Nat.succ_ne_zero j), hfs, Option.getD_some]
      simp only [findFsStep, hlast, if_neg hne, hpart, hfs, hdepth, hat]
      simp
    | none =>
      rw [hfs, Option.isSome_none, if_neg (by simp)] at hdepth
      have hback : findFsStep env (p, backIndex) = .ok (.next ({ p with depthIntoFs := p.depthIntoFs + 1 },
          (join '/' (cs.take (j + 1))).length)) := by
        simp only [findFsStep, hlast, if_neg hne, hpart, hfs]
      rw [forever_next hback]
      have hlast' : findLastOf p.path '/' ((join '/' (cs.take (j + 1))).length - 1) =
          some (join '/' (cs.take j)).length := by
        refine findLastOf_of_take (hcs.free _ (List.getElem_mem hjlt)) ?_
        rw [Nat.sub_add_cancel (Nat.pos_of_ne_zero hne), hpath, List.take_left, htake, join_append, join_cons,
          join_nil, List.append_nil]
      refine (findFs_spec env hcs j _ fuel { p with depthIntoFs := p.depthIntoFs + 1 } hjlt.le ⟨t, ht⟩ hroot
        hlast' (by omega)).trans ?_
      rw [hdepth]
      simp only [Nat.cast_add, Nat.cast_one, add_right_comm p.depthIntoFs, add_assoc]

/-- Where the search of `recursiveFindFs` starts: a last component is not looked up. -/
def searchFrom (cs rest : List (List Char)) : List (List Char) := if rest = [] then cs.dropLast else cs

theorem length_join_take_lt {k : ℕ} (hk : k < cs.length) :
    (join '/' (cs.take k)).length + 1 ≤ (join '/' cs).length := by
  conv_rhs => rw [← List.take_append_drop k cs, List.drop_eq_getElem_cons hk, join_append,
    List.length_append, length_join_cons]
  omega

/-- Leaving a filesystem through `..`. -/
theorem recursiveFindFs_spec (env : Filesystems F) (hcs : Canonical cs) (hfree : ∀ c ∈ rest, '/' ∉ c) (hne : cs ++ rest ≠ [])
    (hpath : p.path = join '/' (cs ++ rest)) (hindex : p.index = (join '/' cs).length + 1)
    (hroot : p.root = root) (hfuel : cs.length < fuel) :
    ∃ p', recursiveFindFs env fuel p = .ok (0, p') ∧ p'.linksFollowed = p.linksFollowed ∧
      At env root p' cs rest (mountDepth env (searchFrom cs rest)) := by
  -- the search starts from the first `j` components
  have hstart : ∃ j ≤ cs.length, searchFrom cs rest = cs.take j ∧ (rest ≠ [] → j = cs.length) ∧
      (rest = [] → j < cs.length) ∧
      findLastOf p.path '/' (p.index - 1) = some (join '/' (cs.take j)).length := by
    cases rest with
    | nil =>
      rw [List.append_nil] at hne hpath
      obtain ⟨init, x, rfl⟩ := List.eq_nil_or_concat cs |>.resolve_left hne
      rw [List.concat_eq_append] at *
      refine ⟨init.length, by simp, by simp [searchFrom], fun h => absurd rfl h, fun _ => by simp, ?_⟩
      have hx : '/' ∉ x := hcs.free x (by simp)
      rw [List.take_left]
      refine findLastOf_of_take hx ?_
      rw [hindex, Nat.add_sub_cancel, hpath, List.take_of_length_le (Nat.le_succ _)]
      simp
    | cons c rest =>
      refine ⟨cs.length, le_rfl, by simp [searchFrom], fun _ => rfl, nofun, ?_⟩
      rw [List.take_length]
      refine findLastOf_of_take (c := []) List.not_mem_nil ?_
      rw [hindex, Nat.add_sub_cancel, hpath, join_append, join_cons, List.take_append]
      simp
  obtain ⟨j, hj, hsearch, hjrest, hjlt, hlast⟩ := hstart
  have hrun := findFs_spec env hcs j p.index fuel { p with depthIntoFs := 1 } hj
    ⟨join '/' rest, by rw [hpath, join_append]⟩ hroot hlast (by omega)
  rw [← hsearch] at hrun
  have hrec : recursiveFindFs env fuel p = .ok (0, { p with
      fs := fsAt env root cs (mountDepth env (searchFrom cs rest))
      syms := env.supportsSymlinks (fsAt env root cs (mountDepth env (searchFrom cs rest)))
      indexIntoFs := (join '/' (cs.take (mountDepth env (searchFrom cs rest)))).length + 1
      depthIntoFs := 1 + j - mountDepth env (searchFrom cs rest) }) := by
    simp only [recursiveFindFs, hrun, ok_bind, lt_irrefl, if_false, pure_eq_ok]
  refine ⟨_, hrec, rfl, ?_⟩
  have hle : mountDepth env (searchFrom cs rest) ≤ j := by
    rw [hsearch]
    exact (mountDepth_le _).trans (by simp)
  have hmounted : mountDepth env (searchFrom cs rest) = 0 ∨
      (env.filesystems (join '/' (cs.take (mountDepth env (searchFrom cs rest))))).isSome = true := by
    have h : mountDepth env (searchFrom cs rest) = 0 ∨ _ := mountDepth_mounted (searchFrom cs rest)
    rwa [hsearch, List.take_take, ← hsearch, min_eq_left hle] at h
  refine ⟨hcs, hfree, hpath, hindex, hroot, hle.trans hj, hmounted, rfl, rfl, ?_, fun hr => ?_⟩
  · dsimp only
    rw [hpath, join_append, List.length_append, eq_comm, min_eq_left]
    by_cases hr : rest = []
    · have := length_join_take_lt (hle.trans_lt (hjlt hr))
      omega
    · obtain ⟨c, rest, rfl⟩ := List.exists_cons_of_ne_nil hr
      have := length_join_take_le cs (mountDepth env (searchFrom cs (c :: rest)))
      have := length_join_cons c rest
      omega
  · dsimp only
    rw [hjrest hr]
    exact ⟨by rw [hsearch, hjrest hr, List.take_length], rfl⟩

/-- `..` cancels the component before it. In the end a `/` stays for the root. -/
theorem component_up {init : List (List Char)} (h : At env root p (init ++ [x]) (['.', '.'] :: rest) k)
    (hfuel : init.length < fuel) :
    ∃ p', component env fuel followLastSymlink p (p.index + 2) = .ok (0, p') ∧
      p'.linksFollowed = p.linksFollowed ∧
      At env root p' init (if init = [] then orLast rest else rest)
        (if rest = [] ∧ mountDepth env (init ++ [x]) = init.length + 1 then mountDepth env init.dropLast
          else mountDepth env init) := by
  obtain ⟨hk, hdepth⟩ := h.depth (List.cons_ne_nil _ _)
  have hcs : Canonical init := h.canonical.prefix_of
  have hx : '/' ∉ x := h.canonical.free x (by simp)
  have hrfree : ∀ c ∈ rest, '/' ∉ c := fun c hc => h.free c (List.mem_cons_of_mem _ hc)
  set rest' := if init = [] then orLast rest else rest with hrest'
  have hpath : p.path = join '/' init ++ ('/' :: (x ++ ['/', '.', '.'])) ++ join '/' rest := by
    rw [h.path]
    simp
  have hindex : p.index = (join '/' init).length + x.length + 2 := by
    rw [h.index, join_append, List.length_append, length_join_cons]
    simp
    omega
  have hlast : findLastOf p.path '/' (p.index - 2) = some (join '/' init).length := by
    refine findLastOf_of_take hx ?_
    have hlen : p.index - 2 + 1 = (join '/' init ++ '/' :: x).length := by
      rw [hindex, List.length_append, List.length_cons]
      omega
    have hsplit : p.path = (join '/' init ++ '/' :: x) ++ (['/', '.', '.'] ++ join '/' rest) := by
      rw [hpath]
      simp
    rw [hlen, hsplit, List.take_left]
  have herase : erasePath p.path (join '/' init).length (p.index + 2 - (join '/' init).length) =
      .ok (join '/' (init ++ rest)) := by
    have hlen : p.index + 2 - (join '/' init).length = ('/' :: (x ++ ['/', '.', '.'])).length := by
      rw [hindex]
      simp
      omega
    rw [erasePath, hlen, hpath, erase_append, join_append]
  have hnonempty : (if (join '/' (init ++ rest)).isEmpty then ['/'] else join '/' (init ++ rest)) =
      join '/' (init ++ rest') := by
    by_cases hi : init = []
    · subst hi
      by_cases hr : rest = []
      · subst hr; simp [hrest']
      · rw [hrest', if_pos rfl, orLast_of_ne hr, if_neg]
        simpa [join_eq_nil_iff] using hr
    · rw [hrest', if_neg hi, if_neg]
      simp [join_eq_nil_iff, hi]
  have hfree' : ∀ c ∈ rest', '/' ∉ c := by
    rw [hrest']
    split_ifs
    · exact free_orLast hrfree
    · exact hrfree
  have hne' : init ++ rest' ≠ [] := by
    by_cases hi : init = []
    · rw [hrest', if_pos hi]
      exact fun hn => orLast_ne_nil rest (List.append_eq_nil_iff.1 hn).2
    · exact fun hn => hi (List.append_eq_nil_iff.1 hn).1
  have hoff := h.off_eq (List.cons_ne_nil _ _)
  set p₁ : PathResolution F := { p with
    path := join '/' (init ++ rest')
    index := (join '/' init).length + 1
    indexIntoFs := if p.indexIntoFs > (join '/' (init ++ rest')).length then
      (join '/' (init ++ rest')).length else p.indexIntoFs
    depthIntoFs := p.depthIntoFs - 1 } with hp₁
  have hrun : component env fuel followLastSymlink p (p.index + 2) =
      if p₁.depthIntoFs > 0 then .ok (0, p₁) else recursiveFindFs env fuel p₁ := by
    have hdot₀ : p.path[p.index]? = some '.' := by simpa using h.getElem? 0
    have hdot₁ : p.path[p.index + 1]? = some '.' := by simpa using h.getElem? 1
    rw [component, if_neg (by omega), if_neg (by omega), if_pos ⟨by omega, hdot₀, hdot₁⟩,
      upPathComponent, if_neg (by omega)]
    simp only [hlast, herase, ok_bind, hnonempty]
    rfl
  have hconcat : mountDepth env (init ++ [x]) =
      if (env.filesystems (join '/' (init ++ [x]))).isSome then init.length + 1 else mountDepth env init :=
    mountDepth_concat
  have hle : mountDepth env init ≤ init.length := mountDepth_le init
  rw [List.length_append, List.length_singleton] at hdepth
  rw [hrun]
  by_cases hm : (env.filesystems (join '/' (init ++ [x]))).isSome
  · -- the component was the root of a filesystem
    rw [if_pos hm] at hconcat
    rw [if_neg (by simp only [hp₁]; omega)]
    obtain ⟨p', hrun', hlinks, hat⟩ := recursiveFindFs_spec fuel (p := p₁) env hcs hfree' hne' rfl rfl h.root_eq
      hfuel
    refine ⟨p', hrun', hlinks, ?_⟩
    have hsearch : mountDepth env (searchFrom init rest') =
        if rest = [] ∧ mountDepth env (init ++ [x]) = init.length + 1 then mountDepth env init.dropLast
        else mountDepth env init := by
      by_cases hr : rest = []
      · rw [if_pos ⟨hr, hconcat⟩, hrest', searchFrom, hr]
        by_cases hi : init = []
        · simp [hi]
        · simp [hi]
      · have hr' : rest' ≠ [] := by
          rw [hrest']
          split_ifs
          · exact orLast_ne_nil rest
          · exact hr
        rw [if_neg fun hc => hr hc.1, searchFrom, if_neg hr']
    rwa [← hsearch]
  · rw [if_neg hm] at hconcat
    rw [if_pos (by simp only [hp₁]; omega)]
    refine ⟨p₁, rfl, rfl, ?_⟩
    rw [if_neg (by omega), ← hconcat, ← hk]
    have hki : k ≤ init.length := by omega
    refine ⟨hcs, hfree', rfl, rfl, h.root_eq, hki, ?_, ?_, h.syms, ?_, fun _ => ⟨hk.trans hconcat, ?_⟩⟩
    · rw [← List.take_append_of_le_length hki]
      exact h.mounted
    · exact h.fs.trans (fsAt_concat hki)
    · simp only [hp₁, hoff, List.take_append_of_le_length hki]
      split_ifs <;> omega
    · simp only [hp₁, hdepth]
      push_cast
      ring

/-- The path in the filesystem at the first `k` components. -/
def relativePath (cs : List (List Char)) (k : ℕ) : List Char :=
  (join '/' cs).drop ((join '/' (cs.take k)).length + 1)

/-- Neither empty nor `.` nor `..` -/
def IsNormal (c : List Char) : Prop := c ≠ [] ∧ c ≠ ['.'] ∧ c ≠ ['.', '.']

theorem length_eq_one_and {t : List Char} :
    c.length = 1 ∧ (c ++ t)[0]? = some '.' ↔ c = ['.'] := by
  cases c with
  | nil => simp
  | cons a c => cases c <;> simp

theorem length_eq_two_and {t : List Char} :
    c.length = 2 ∧ (c ++ t)[0]? = some '.' ∧ (c ++ t)[1]? = some '.' ↔ c = ['.', '.'] := by
  match c with
  | [] => simp
  | [a] => simp
  | a :: b :: [] => simp
  | a :: b :: d :: c => simp

theorem At.component_eq (h : At env root p cs (c :: rest) k) (hc : IsNormal c) :
    component env fuel followLastSymlink p (p.index + c.length) =
      normalPathComponent env { p with index := p.index + c.length + 1 }
        (if rest = [] then followLastSymlink else true) := by
  have h0 := h.getElem? 0
  have h1 := h.getElem? 1
  rw [Nat.add_zero] at h0
  have hlen : p.index + c.length + 1 > p.path.length ↔ rest = [] := by
    rw [h.length_eq, length_join_cons, h.index]
    cases rest with
    | nil => simp; omega
    | cons d rest =>
      rw [length_join_cons]
      simp
      omega
  have hdot := mt (length_eq_one_and (t := join '/' rest)).1 hc.2.1
  have hup := mt (length_eq_two_and (t := join '/' rest)).1 hc.2.2
  rw [← h0] at hdot hup
  rw [← h1] at hup
  rw [component, if_neg (by simpa using hc.1), Nat.add_sub_cancel_left, if_neg hdot, if_neg hup]
  simp only [hlen]

theorem At.stringPart_eq (h : At env root p cs (c :: rest) k) (off : ℕ) :
    stringPart p.path (p.index + c.length) off = (join '/' (cs ++ [c])).drop off := by
  have hlen : p.index + c.length = (join '/' (cs ++ [c])).length := by
    rw [h.index, join_append, List.length_append, length_join_cons]
    simp
    omega
  have hpath : p.path = join '/' (cs ++ [c]) ++ join '/' rest := by
    rw [h.path, ← join_append]
    simp
  rw [stringPart, hlen, hpath, List.take_left]

/-- The component is the root of a filesystem. -/
theorem component_mount {fs : F} (h : At env root p cs (c :: rest) k) (hc : IsNormal c)
    (hfs : env.filesystems (join '/' (cs ++ [c])) = some fs) :
    ∃ p', component env fuel followLastSymlink p (p.index + c.length) = .ok (0, p') ∧
      p'.linksFollowed = p.linksFollowed ∧ At env root p' (cs ++ [c]) rest (cs.length + 1) := by
  have hpart := h.stringPart_eq 0
  rw [List.drop_zero] at hpart
  have hrun : component env fuel followLastSymlink p (p.index + c.length) = .ok (0, { p with
      index := p.index + c.length + 1
      fs := fs
      syms := env.supportsSymlinks fs
      indexIntoFs := if p.index + c.length + 1 > p.path.length then p.index + c.length
        else p.index + c.length + 1
      depthIntoFs := 1 }) := by
    rw [h.component_eq fuel followLastSymlink hc]
    simp only [normalPathComponent, Nat.add_sub_cancel, hpart, hfs]
    rfl
  have hindex : p.index + c.length + 1 = (join '/' (cs ++ [c])).length + 1 := by
    rw [h.index, join_append, List.length_append, length_join_cons]
    simp
    omega
  have hpath : p.path = join '/' (cs ++ [c] ++ rest) := by
    rw [h.path]
    simp
  refine ⟨_, hrun, rfl, h.canonical.concat hc.1 hc.2.1 hc.2.2 (h.free c List.mem_cons_self),
    fun d hd => h.free d (List.mem_cons_of_mem _ hd), hpath, hindex, h.root_eq, by simp,
    Or.inr (by rw [List.take_of_length_le (by simp), hfs]; rfl), (fsAt_concat_self hfs).symm, rfl, ?_, fun _ => ⟨?_, by simp⟩⟩
  · have hlen : p.index + c.length ≤ p.path.length := by
      rw [h.length_eq, length_join_cons, h.index]
      omega
    dsimp only
    rw [List.take_of_length_le (by simp), ← hindex]
    by_cases hgt : p.index + c.length + 1 > p.path.length
    · rw [if_pos hgt]
      omega
    · rw [if_neg hgt]
      omega
  · rw [mountDepth_concat, hfs, Option.isSome_some, if_pos rfl]

/-- Only the last component can be left as a link. -/
def mustFollow (followLastSymlink : Bool) (rest : List (List Char)) : Bool :=
  if rest = [] then followLastSymlink else true

/-- The component is in the current filesystem, which is asked about it if it can have links. -/
theorem component_normal (h : At env root p cs (c :: rest) k) (hc : IsNormal c)
    (hfs : env.filesystems (join '/' (cs ++ [c])) = none) :
    ∃ p', At env root p' (cs ++ [c]) rest k ∧ p'.linksFollowed = p.linksFollowed ∧
      p'.depthIntoFs = cs.length + 2 - k ∧
      component env fuel followLastSymlink p (p.index + c.length) =
        if env.supportsSymlinks (fsAt env root cs k) && mustFollow followLastSymlink rest then
          if (env.lstat (fsAt env root cs k) (relativePath (cs ++ [c]) k)).1 < 0 then .ok (1, p')
          else if (env.lstat (fsAt env root cs k) (relativePath (cs ++ [c]) k)).2 = .link then
            followSymlink env p'
          else if rest ≠ [] ∧ (env.lstat (fsAt env root cs k) (relativePath (cs ++ [c]) k)).2 ≠ .directory then
            .ok (-ENOTDIR, p')
          else .ok (0, p')
        else .ok (0, p') := by
  obtain ⟨hk, hdepth⟩ := h.depth (List.cons_ne_nil _ _)
  have hle : k ≤ cs.length := h.le
  have hpart := h.stringPart_eq 0
  rw [List.drop_zero] at hpart
  have hrel : stringPart p.path (p.index + c.length) p.indexIntoFs = relativePath (cs ++ [c]) k := by
    rw [h.stringPart_eq, h.off_eq (List.cons_ne_nil _ _), relativePath, List.take_append_of_le_length hle]
  have hindex : p.index + c.length + 1 = (join '/' (cs ++ [c])).length + 1 := by
    rw [h.index, join_append, List.length_append, length_join_cons]
    simp
    omega
  have hlen : p.index + c.length + 1 ≤ p.path.length ↔ rest ≠ [] := by
    rw [h.length_eq, length_join_cons, h.index]
    cases rest with
    | nil => simp; omega
    | cons d rest =>
      rw [length_join_cons]
      simp
      omega
  have hpath : p.path = join '/' (cs ++ [c] ++ rest) := by
    rw [h.path]
    simp
  refine ⟨{ p with index := p.index + c.length + 1, depthIntoFs := p.depthIntoFs + 1 },
    ⟨h.canonical.concat hc.1 hc.2.1 hc.2.2 (h.free c List.mem_cons_self),
      fun d hd => h.free d (List.mem_cons_of_mem _ hd), hpath, hindex, h.root_eq, by simp; omega,
      by rw [List.take_append_of_le_length hle]; exact h.mounted, h.fs.trans (fsAt_concat hle).symm, h.syms, ?_, fun _ => ⟨?_, ?_⟩⟩, rfl, ?_, ?_⟩
  · rw [List.take_append_of_le_length hle]
    exact h.off
  · rw [mountDepth_concat, hfs, Option.isSome_none, if_neg (by simp), hk]
  · rw [hdepth]
    push_cast [List.length_append, List.length_singleton]
    ring
  · rw [hdepth]
    ring
  · rw [h.component_eq fuel followLastSymlink hc]
    simp only [normalPathComponent, Nat.add_sub_cancel, hpart, hfs, hrel, h.fs, h.syms, hlen]
    rfl

/-- The components when a link in the directory `cs` is replaced by its target: those that were handled, and
those that come next. -/
def expand (cs rest : List (List Char)) (target : List Char) : List (List Char) × List (List Char) :=
  match target with
  | '/' :: t => ([], t.splitOn '/' ++ rest)
  | target => (cs, target.splitOn '/' ++ rest)

theorem expand_snd_ne_nil (cs rest : List (List Char)) (target : List Char) :
    (expand cs rest target).2 ≠ [] := by
  unfold expand
  split <;> exact List.append_ne_nil_of_left_ne_nil (List.splitOn_ne_nil _ _) _

theorem expand_absolute (cs rest : List (List Char)) (t : List Char) :
    expand cs rest ('/' :: t) = ([], t.splitOn '/' ++ rest) := rfl

theorem expand_relative {c : Char} {t : List Char} (hc : c ≠ '/') :
    expand cs rest (c :: t) = (cs, (c :: t).splitOn '/' ++ rest) := by
  unfold expand
  split
  · rename_i heq
    exact absurd (List.cons.inj heq).1 hc
  · rfl

theorem free_append_splitOn (hr : ∀ c ∈ rest, '/' ∉ c) (t : List Char) :
    ∀ c ∈ t.splitOn '/' ++ rest, '/' ∉ c := fun c hc => by
  obtain hc | hc := List.mem_append.1 hc
  · exact notMem_of_mem_splitOn hc
  · exact hr c hc

/-- What `followSymlink` makes of the answer of `readlink`; `p₂` is the state with the link replaced. -/
def followed (p p₂ : PathResolution F) (answer : ℤ × List Char) (length : ℕ) : ℤ × PathResolution F :=
  let p₁ := { p with linksFollowed := p.linksFollowed + 1 }
  if p₁.linksFollowed ≥ maxLinkToFollow then (-ELOOP, p₁)
  else if answer.1 < 0 then (1, p₁)
  else if answer.2 = [] then (-ENOENT, p₁)
  else if length > PATH_MAX then (-ENAMETOOLONG, p₁)
  else (0, p₂)

theorem At.drop_eq (h : At env root p (cs ++ [c]) rest k) :
    (if p.index ≤ p.path.length then p.path.drop (p.index - 1) else []) = join '/' rest := by
  have hpath : p.path = join '/' (cs ++ [c]) ++ join '/' rest := h.path.trans join_append
  have hdrop : p.path.drop (p.index - 1) = join '/' rest := by
    rw [h.index, hpath, Nat.add_sub_cancel, List.drop_left]
  rw [hdrop, ite_eq_left_iff]
  intro hlt
  rw [h.index, h.length_eq] at hlt
  exact (List.eq_nil_of_length_eq_zero (by omega)).symm

/-- A link is replaced by its target. -/
theorem followSymlink_spec (h : At env root p (cs ++ [c]) rest k) (hk : k = mountDepth env cs)
    (hdepth : p.depthIntoFs = cs.length + 2 - k) {answer : ℤ × List Char}
    (hanswer : env.readlink (fsAt env root cs k) (relativePath (cs ++ [c]) k) = answer)
    {next : List (List Char) × List (List Char)} (hnext : next = expand cs rest answer.2) :
    ∃ p₂ k₂, followSymlink env p =
        .ok (followed p p₂ answer (join '/' (next.1 ++ next.2)).length) ∧
      (answer.2 ≠ [] → At env root p₂ next.1 next.2 k₂ ∧ p₂.linksFollowed = p.linksFollowed + 1) := by
  have hle : k ≤ cs.length := hk ▸ mountDepth_le cs
  have hcs : Canonical cs := h.canonical.prefix_of
  have hrest := h.drop_eq
  have hidx : p.index = (join '/' cs).length + c.length + 2 := by
    rw [h.index, join_append, List.length_append, length_join_cons]
    simp
    omega
  have hpath : p.path = join '/' cs ++ '/' :: (c ++ join '/' rest) := by
    rw [h.path]
    simp
  have hlen : p.path.length = (join '/' cs).length + 1 + c.length + (join '/' rest).length := by
    rw [hpath]
    simp
    omega
  have hoff : p.indexIntoFs = (join '/' (cs.take k)).length + 1 := by
    rw [h.off, hlen, List.take_append_of_le_length hle]
    have := length_join_take_le cs k
    omega
  have hpart : stringPart p.path (p.index - 1) p.indexIntoFs = relativePath (cs ++ [c]) k := by
    have hjoin : p.path = join '/' (cs ++ [c]) ++ join '/' rest := h.path.trans join_append
    have htake : p.path.take (p.index - 1) = join '/' (cs ++ [c]) := by
      rw [h.index, hjoin, Nat.add_sub_cancel, List.take_left]
    rw [stringPart, htake, hoff, relativePath, List.take_append_of_le_length hle]
  have hlast : findLastOf p.path '/' (p.index - 2) = some (join '/' cs).length := by
    refine findLastOf_of_take (h.canonical.free c (by simp)) ?_
    have hsplit : p.path = (join '/' cs ++ '/' :: c) ++ join '/' rest := by
      rw [hpath]
      simp
    rw [hsplit, hidx, show (join '/' cs).length + c.length + 2 - 2 + 1 = (join '/' cs ++ '/' :: c).length by
      simp; omega, List.take_left]
  have hfs : p.fs = fsAt env root cs k := h.fs.trans (fsAt_concat hle)
  obtain ⟨result, target⟩ := answer
  cases target with
  | nil =>
    refine ⟨p, k, ?_, fun hn => absurd rfl hn⟩
    simp only [followSymlink, followed, hfs, hpart, hanswer]
    split_ifs <;> rfl
  | cons a t =>
    by_cases ha : a = '/'
    · subst ha
      rw [expand_absolute] at hnext
      subst hnext
      have hjoin : join '/' (t.splitOn '/' ++ rest) = '/' :: t ++ join '/' rest := by
        rw [join_append, join_splitOn]
      refine ⟨{ p with
          path := '/' :: t ++ join '/' rest
          fs := p.root
          syms := env.supportsSymlinks p.root
          index := 1
          indexIntoFs := 1
          depthIntoFs := 1
          linksFollowed := p.linksFollowed + 1 }, 0, ?_, fun _ => ⟨?_, rfl⟩⟩
      · have hlong : ('/' :: t).length + p.path.length + 1 - p.index =
            (join '/' (t.splitOn '/' ++ rest)).length := by
          rw [hjoin, hidx, hlen]
          simp
          omega
        simp only [followSymlink, followed, hfs, hpart, hanswer, hrest, if_pos, hlong, List.nil_append,
          reduceCtorEq, if_false]
        split_ifs <;> rfl
      · refine ⟨Canonical.nil, free_append_splitOn (fun d hd => h.free d hd) t, hjoin.symm, rfl, h.root_eq,
          le_rfl, Or.inl rfl, h.root_eq, rfl, ?_, fun _ => ⟨rfl, rfl⟩⟩
        simp
    · rw [expand_relative ha] at hnext
      subst hnext
      have hjoin : join '/' (cs ++ ((a :: t).splitOn '/' ++ rest)) =
          p.path.take ((join '/' cs).length + 1) ++ a :: t ++ join '/' rest := by
        rw [join_append, join_append, join_splitOn, hpath, List.take_append]
        simp
      refine ⟨{ p with
          path := p.path.take ((join '/' cs).length + 1) ++ a :: t ++ join '/' rest
          index := (join '/' cs).length + 1
          depthIntoFs := p.depthIntoFs - 1
          linksFollowed := p.linksFollowed + 1 }, k, ?_, fun _ => ⟨?_, rfl⟩⟩
      · have hlong : p.path.length - (p.index - (join '/' cs).length - 2) + (a :: t).length =
            (join '/' (cs ++ ((a :: t).splitOn '/' ++ rest))).length := by
          rw [hjoin, hidx, hpath]
          simp
          omega
        simp only [followSymlink, followed, hfs, hpart, hanswer, hrest, if_neg ha, hlast, hlong,
          reduceCtorEq, if_false]
        split_ifs <;> rfl
      · refine ⟨hcs, free_append_splitOn (fun d hd => h.free d hd) _, hjoin.symm, rfl, h.root_eq, hle,
          hk ▸ mountDepth_mounted cs, hfs, h.syms, ?_, fun _ => ⟨hk, ?_⟩⟩
        · dsimp only
          rw [hoff, ← hjoin, join_append, join_append, join_splitOn]
          have := length_join_take_le cs k
          simp
          omega
        · dsimp only
          rw [hdepth]
          ring

/-- The path is canonical, and the offset tells where the path in the filesystem starts. -/
def resolved (env : Filesystems F) (root : F) (cs : List (List Char)) (k : ℕ) :
    List Char × ResolvedPath F :=
  (join '/' cs, ⟨0, some (fsAt env root cs k),
    min ((join '/' (cs.take k)).length + 1) (join '/' cs).length⟩)

theorem finish_spec (h : At env root p cs rest k) (hrest : rest = [] ∧ cs ≠ [] ∨ rest = [[]]) :
    finish p = .ok (resolved env root cs k) := by
  obtain ⟨rfl, hcs⟩ | rfl := hrest
  · have hpath : p.path = join '/' cs := by rw [h.path, List.append_nil]
    obtain ⟨init, y, rfl⟩ := (List.eq_nil_or_concat' cs).resolve_left hcs
    obtain ⟨hy, -, -, hfree⟩ := h.canonical y (by simp)
    have hlast : p.path[p.path.length - 1]? = some (y.getLast hy) := by
      rw [← List.getLast?_eq_getElem?, hpath, join_append, join_cons, join_nil, List.append_nil,
        List.getLast?_append, List.getLast?_cons, List.getLast?_eq_some_getLast hy]
      rfl
    have hne : y.getLast hy ≠ '/' := fun heq => hfree (heq ▸ List.getLast_mem hy)
    simp only [finish, hlast, if_neg hne, resolved, ← h.fs, h.off, ← hpath]
  · have hpath : p.path = join '/' cs ++ ['/'] := by rw [h.path]; simp
    have hlast : p.path[p.path.length - 1]? = some '/' := by
      rw [← List.getLast?_eq_getElem?, hpath, List.getLast?_append]
      rfl
    have herase : erasePath p.path (p.path.length - 1) 1 = .ok (join '/' cs) := by
      rw [erasePath, hpath, List.length_append, List.length_singleton, Nat.add_sub_cancel,
        erase_append_end _ _ (by simp)]
    have hoff := h.off_eq (List.cons_ne_nil _ _)
    simp only [finish, hlast, if_pos, herase, ok_bind, pure_eq_ok, resolved, ← h.fs, hoff]
    congr 3
    split_ifs <;> omega

theorem At.ends_iff (h : At env root p cs rest k) : p.index ≥ p.path.length ↔ rest = [] ∨ rest = [[]] := by
  rw [h.index, h.length_eq]
  match rest with
  | [] => simp
  | [[]] => simp
  | (a :: c) :: rest =>
    rw [length_join_cons]
    simp
    omega
  | [] :: d :: rest =>
    rw [length_join_cons, length_join_cons]
    simp

end PathResolution

end Miosix
