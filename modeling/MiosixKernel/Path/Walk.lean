import MiosixKernel.Path.Canonical

/-!
# Resolution of paths up to a symbolic link

* `walk`, `scan`: what resolution finds component by component, up to the first link;
* `forever_scan`: the loop does what they say;
* `resolvePath_canonical`: the string is rewritten to the canonical path;
* `resolvePath_filesystem_iff`: when the filesystem is the right one.
-/

namespace Miosix

namespace PathResolution

open Lib

variable {F : Type} {env : Filesystems F} {root : F} {p p' : PathResolution F}
  {cs cs' rest rest' : List (List Char)} {c x : List Char} {k k' fuel n : ℕ} {followLastSymlink : Bool}
  {r : ℤ}

/-! ## One pass through the loop -/

theorem component_root (h : At env root p [] (['.', '.'] :: rest) k) :
    component env fuel followLastSymlink p (p.index + 2) = .ok (-ENOENT, p) := by
  have hdot₀ : p.path[p.index]? = some '.' := by simpa using h.getElem? 0
  have hdot₁ : p.path[p.index + 1]? = some '.' := by simpa using h.getElem? 1
  rw [component, if_neg (by omega), if_neg (by omega), if_pos ⟨by omega, hdot₀, hdot₁⟩, upPathComponent,
    if_pos (by simp [h.index])]
  rfl

theorem pass_error (h : At env root p cs (c :: rest) k)
    (hcomp : component env fuel followLastSymlink p (p.index + c.length) = .ok (r, p')) (hr : r < 0) :
    pass env fuel followLastSymlink p = .ok (.done (p'.path, .error r)) := by
  simp only [pass, h.slash_eq, hcomp, ok_bind, if_pos hr, pure_eq_ok]

theorem pass_of_component (h : At env root p cs (c :: rest) k)
    (hcomp : component env fuel followLastSymlink p (p.index + c.length) = .ok (r, p')) (hr : 0 ≤ r)
    (h' : At env root p' cs' rest' k') (hne : rest' = [] → cs' ≠ []) :
    pass env fuel followLastSymlink p =
      .ok (if rest' = [] ∨ rest' = [[]] then .done (resolved env root cs' k') else .next p') := by
  simp only [pass, h.slash_eq, hcomp, ok_bind, if_neg (not_lt.2 hr), h'.ends_iff]
  split_ifs with hend
  · rw [finish_spec h' (hend.imp_left fun hnil => ⟨hnil, hne hnil⟩)]
    rfl
  · rfl

/-! ## The whole loop -/

/-- The canonical path that resolution finds, and how many components of it lead to the filesystem that it
finds. -/
def walk (env : Filesystems F) (cs : List (List Char)) : List (List Char) → Option (List (List Char) × ℕ)
  | [] => some (cs, mountDepth env cs)
  | c :: rest =>
    if c = [] ∨ c = ['.'] then walk env cs rest
    else if c = ['.', '.'] then
      if cs = [] then none
      else if rest = [] ∧ mountDepth env cs = cs.length then
        some (cs.dropLast, mountDepth env cs.dropLast.dropLast)
      else walk env cs.dropLast rest
    else walk env (cs ++ [c]) rest

/-- What resolution returns. -/
def Outcome (env : Filesystems F) (root : F) :
    Option (List (List Char) × ℕ) → List Char × ResolvedPath F → Prop
  | none, q => q.2 = .error (-ENOENT)
  | some (cs, k), q => q = resolved env root cs k

/-- No filesystem supports symbolic links. -/
def NoSymlinks (env : Filesystems F) : Prop :=
  ∀ path fs, env.filesystems path = some fs → env.supportsSymlinks fs = false

theorem NoSymlinks.fsAt (h : NoSymlinks env) (hroot : env.filesystems ['/'] = some root)
    (cs : List (List Char)) (k : ℕ) : env.supportsSymlinks (fsAt env root cs k) = false := by
  unfold PathResolution.fsAt
  split_ifs
  · exact h _ _ hroot
  · cases hfs : env.filesystems (join '/' (cs.take k)) with
    | none => exact h _ _ hroot
    | some fs => exact h _ _ hfs

theorem walk_last (hrest : rest = [] ∨ rest = [[]]) : walk env cs rest = some (cs, mountDepth env cs) := by
  obtain rfl | rfl := hrest
  · rfl
  · simp [walk]

theorem orLast_last_iff : orLast rest = [] ∨ orLast rest = [[]] ↔ rest = [] ∨ rest = [[]] := by
  unfold orLast
  split_ifs with h
  · simp [h]
  · rfl

/-- What looking at the components, without replacing a link, comes to: a path with no link to follow, an
error, an error of `lstat`, or a link to follow. -/
inductive Scan where
  | finished
  | error (e : ℤ)
  | failed (e : ℤ)
  | link (cs : List (List Char)) (c : List Char) (rest : List (List Char))

/-- Look for the first link that has to be followed. -/
def scan (env : Filesystems F) (root : F) (followLastSymlink : Bool) (cs : List (List Char)) :
    List (List Char) → Scan
  | [] => .finished
  | c :: rest =>
    if c = [] ∨ c = ['.'] then scan env root followLastSymlink cs rest
    else if c = ['.', '.'] then
      if cs = [] then .finished else scan env root followLastSymlink cs.dropLast rest
    else if (env.filesystems (join '/' (cs ++ [c]))).isSome then
      scan env root followLastSymlink (cs ++ [c]) rest
    else if env.supportsSymlinks (fsAt env root cs (mountDepth env cs)) && mustFollow followLastSymlink rest then
      let answer := env.lstat (fsAt env root cs (mountDepth env cs))
        (relativePath (cs ++ [c]) (mountDepth env cs))
      if answer.1 < 0 then .failed answer.1
      else if answer.2 = .link then .link cs c rest
      else if rest ≠ [] ∧ answer.2 ≠ .directory then .error (-ENOTDIR)
      else scan env root followLastSymlink (cs ++ [c]) rest
    else scan env root followLastSymlink (cs ++ [c]) rest

theorem scan_last (hrest : rest = [] ∨ rest = [[]]) :
    scan env root followLastSymlink cs rest = .finished := by
  obtain rfl | rfl := hrest
  · rfl
  · simp [scan]

/-- The loop does what the scan says: it ends as the walk does or with the error, or it comes to the link
in at most `len` passes. -/
def AfterScan (env : Filesystems F) (root : F) (fuel : ℕ) (followLastSymlink : Bool) (n len : ℕ)
    (p : PathResolution F) (found : Option (List (List Char) × ℕ)) : Scan → Prop
  | .finished => ∃ q, forever .stuck (pass env fuel followLastSymlink) n p = .ok q ∧ Outcome env root found q
  | .error e => ∃ path, forever .stuck (pass env fuel followLastSymlink) n p = .ok (path, .error e)
  | .failed _ => True
  | .link cs c rest => ∃ p' p₁ k n', forever .stuck (pass env fuel followLastSymlink) n p =
        forever .stuck (pass env fuel followLastSymlink) n' p' ∧ n ≤ n' + len ∧
      At env root p' cs (c :: rest) k ∧ p₁.linksFollowed = p.linksFollowed ∧
      component env fuel followLastSymlink p' (p'.index + c.length) = followSymlink env p₁ ∧
      At env root p₁ (cs ++ [c]) rest k ∧ k = mountDepth env cs ∧ p₁.depthIntoFs = cs.length + 2 - k

/-- The loop goes on after a component, or ends with the last one. -/
theorem afterScan_of_component {len : ℕ} {found : Option (List (List Char) × ℕ)} {S : Scan}
    (h : At env root p cs (c :: rest) k)
    (hcomp : component env fuel followLastSymlink p (p.index + c.length) = .ok (r, p')) (hr : 0 ≤ r)
    (h' : At env root p' cs' rest' k') (hlinks : p'.linksFollowed = p.linksFollowed)
    (hne : rest' = [] → cs' ≠ [])
    (hdone : rest' = [] ∨ rest' = [[]] → S = .finished ∧ found = some (cs', k'))
    (hnext : rest' ≠ [] → rest' ≠ [[]] → AfterScan env root fuel followLastSymlink n len p' found S) :
    AfterScan env root fuel followLastSymlink (n + 1) (len + 1) p found S := by
  have hpass := pass_of_component h hcomp hr h' hne
  by_cases hend : rest' = [] ∨ rest' = [[]]
  · rw [if_pos hend] at hpass
    obtain ⟨rfl, rfl⟩ := hdone hend
    exact ⟨_, forever_done hpass, rfl⟩
  · rw [if_neg hend] at hpass
    rw [not_or] at hend
    have hrec := hnext hend.1 hend.2
    cases S with
    | finished => simpa only [AfterScan, forever_next hpass] using hrec
    | error e => simpa only [AfterScan, forever_next hpass] using hrec
    | failed e => trivial
    | link ds d rest =>
      obtain ⟨pm, p₁, km, n', hrun, hn, hat, hl, hrest⟩ := hrec
      exact ⟨pm, p₁, km, n', (forever_next hpass).trans hrun, by omega, hat, hl.trans hlinks, hrest⟩

/-- **The loop**, up to the first link. -/
theorem forever_scan (fuel : ℕ) (followLastSymlink : Bool) :
    ∀ (rest : List (List Char)) (cs : List (List Char)) (p : PathResolution F) (k n : ℕ),
      At env root p cs rest k → rest ≠ [] → cs.length + rest.length < fuel → rest.length ≤ n →
      AfterScan env root fuel followLastSymlink n rest.length p (walk env cs rest)
        (scan env root followLastSymlink cs rest)
  | [], _, _, _, _, _, hne, _, _ => absurd rfl hne
  | c :: rest, cs, p, k, n + 1, h, _, hfuel, hn => by
    simp only [List.length_cons] at hfuel hn ⊢
    have hk := (h.depth (List.cons_ne_nil _ _)).1
    by_cases hskip : c = [] ∨ c = ['.']
    · obtain ⟨p', hcomp, h', hlinks⟩ := component_skip fuel followLastSymlink h hskip
      rw [walk, if_pos hskip, scan, if_pos hskip]
      refine afterScan_of_component h hcomp le_rfl h' hlinks (fun hn => absurd hn (orLast_ne_nil rest))
        (fun hend => ?_) fun hn1 hn2 => ?_
      · have hend' := orLast_last_iff.1 hend
        exact ⟨scan_last hend', by rw [walk_last hend', hk]⟩
      · have hr : rest ≠ [] := fun hr => hn2 (by rw [hr, orLast_nil])
        rw [orLast_of_ne hr] at h'
        exact forever_scan fuel followLastSymlink rest cs p' k n h' hr (by omega) (by omega)
    by_cases hup : c = ['.', '.']
    · subst hup
      obtain rfl | ⟨init, x, rfl⟩ := List.eq_nil_or_concat' cs
      · have hscan : scan env root followLastSymlink [] (['.', '.'] :: rest) = .finished := by simp [scan]
        rw [hscan]
        refine ⟨_, forever_done (pass_error h (component_root h) (by decide)), ?_⟩
        simp [walk, Outcome]
      · obtain ⟨p', hcomp, hlinks, h'⟩ := component_up fuel followLastSymlink h (by simp at hfuel; omega)
        have hwalk : walk env (init ++ [x]) (['.', '.'] :: rest) =
            if rest = [] ∧ mountDepth env (init ++ [x]) = init.length + 1 then
              some (init, mountDepth env init.dropLast)
            else walk env init rest := by
          simp [walk]
        have hscan : scan env root followLastSymlink (init ++ [x]) (['.', '.'] :: rest) =
            scan env root followLastSymlink init rest := by
          simp [scan]
        rw [hwalk, hscan]
        refine afterScan_of_component h hcomp le_rfl h' hlinks (fun hn => ?_) (fun hend => ?_)
          fun hn1 hn2 => ?_
        · rintro rfl
          exact orLast_ne_nil rest (by simpa using hn)
        · have hend' : rest = [] ∨ rest = [[]] := by
            by_cases hi : init = []
            · rw [if_pos hi] at hend
              exact orLast_last_iff.1 hend
            · rwa [if_neg hi] at hend
          refine ⟨scan_last hend', ?_⟩
          split_ifs with hc
          · rfl
          · exact walk_last hend'
        · have hr : rest ≠ [] := by
            rintro rfl
            by_cases hi : init = []
            · exact hn2 (by simp [hi])
            · exact hn1 (by simp [hi])
          rw [orLast_of_ne hr, ite_self, if_neg fun hc => hr hc.1] at h'
          rw [if_neg fun hc => hr hc.1]
          exact forever_scan fuel followLastSymlink rest init p' _ n h' hr (by simp at hfuel; omega) (by omega)
    · have hc : IsNormal c := ⟨fun hn => hskip (Or.inl hn), fun hn => hskip (Or.inr hn), hup⟩
      rw [walk, if_neg hskip, if_neg hup, scan, if_neg hskip, if_neg hup]
      have key : ∀ p' k', At env root p' (cs ++ [c]) rest k' → k' = mountDepth env (cs ++ [c]) →
          p'.linksFollowed = p.linksFollowed →
          component env fuel followLastSymlink p (p.index + c.length) = .ok (0, p') →
          AfterScan env root fuel followLastSymlink (n + 1) (rest.length + 1) p (walk env (cs ++ [c]) rest)
            (scan env root followLastSymlink (cs ++ [c]) rest) := by
        intro p' k' h' hk' hlinks hcomp
        refine afterScan_of_component h hcomp le_rfl h' hlinks (fun _ => by simp)
          (fun hend => ⟨scan_last hend, by rw [walk_last hend, hk']⟩) fun hn1 hn2 => ?_
        exact forever_scan fuel followLastSymlink rest _ p' k' n h' hn1 (by simp; omega) (by omega)
      cases hfs : env.filesystems (join '/' (cs ++ [c])) with
      | some fs =>
        obtain ⟨p', hcomp, hlinks, h'⟩ := component_mount fuel followLastSymlink h hc hfs
        rw [Option.isSome_some, if_pos rfl]
        exact key p' _ h' (by rw [mountDepth_concat, hfs, Option.isSome_some, if_pos rfl]) hlinks hcomp
      | none =>
        obtain ⟨p', h', hlinks, hdepth, hcomp⟩ := component_normal fuel followLastSymlink h hc hfs
        have hk' : k = mountDepth env (cs ++ [c]) := by
          rw [mountDepth_concat, hfs, Option.isSome_none, if_neg (by simp), hk]
        rw [Option.isSome_none, if_neg (by simp), ← hk]
        dsimp only
        split_ifs at hcomp ⊢ with hs hneg hlink hdir
        · trivial
        · exact ⟨p, p', k, n + 1, rfl, by omega, h, hlinks, hcomp, h', hk, hdepth⟩
        · exact ⟨_, forever_done (pass_error h hcomp (by decide))⟩
        · exact key p' k h' hk' hlinks hcomp
        · exact key p' k h' hk' hlinks hcomp

theorem NoSymlinks.scan_eq (h : NoSymlinks env) (hroot : env.filesystems ['/'] = some root) :
    scan env root followLastSymlink cs rest = .finished := by
  induction rest generalizing cs with
  | nil => rfl
  | cons c rest ih => simp [scan, ih, h.fsAt hroot]

theorem canonicalForm_append (hrest : Canonical rest) : canonicalForm cs rest = some (cs ++ rest) := by
  induction rest generalizing cs with
  | nil => rw [List.append_nil]; rfl
  | cons c rest ih =>
    obtain ⟨h1, h2, h3, -⟩ := hrest c List.mem_cons_self
    rw [canonicalForm, if_neg (not_or.2 ⟨h1, h2⟩), if_neg h3,
      ih fun d hd => hrest d (List.mem_cons_of_mem _ hd), List.append_assoc, List.singleton_append]

theorem canonicalForm_canonical (hcs : Canonical cs) (hfree : ∀ d ∈ rest, '/' ∉ d)
    (h : canonicalForm cs rest = some cs') : Canonical cs' := by
  induction rest generalizing cs with
  | nil =>
    obtain rfl : cs = cs' := Option.some.inj h
    exact hcs
  | cons c rest ih =>
    have hrest : ∀ d ∈ rest, '/' ∉ d := fun d hd => hfree d (List.mem_cons_of_mem _ hd)
    rw [canonicalForm] at h
    split_ifs at h with h1 h2 h3
    · exact ih hcs hrest h
    · exact ih (fun d hd => hcs d (List.dropLast_subset cs hd)) hrest h
    · rw [not_or] at h1
      exact ih (hcs.concat h1.1 h1.2 h2 (hfree c List.mem_cons_self)) hrest h

theorem length_canonicalForm (h : canonicalForm cs rest = some cs') :
    (join '/' cs').length ≤ (join '/' cs).length + (join '/' rest).length := by
  induction rest generalizing cs with
  | nil =>
    obtain rfl : cs = cs' := Option.some.inj h
    exact Nat.le_add_right _ _
  | cons c rest ih =>
    rw [length_join_cons]
    rw [canonicalForm] at h
    split_ifs at h with h1 h2 h3
    · have := ih h
      omega
    · have := ih h
      have : (join '/' cs.dropLast).length ≤ (join '/' cs).length := by
        rw [List.dropLast_eq_take]
        exact length_join_take_le cs _
      omega
    · have := ih h
      rw [join_append, List.length_append, length_join_cons] at this
      simp only [join_nil, List.length_nil] at this
      omega

/-- The last component is a `..` that leaves a filesystem, into the path `cs'`. -/
def LeavesLast (env : Filesystems F) (cs rest cs' : List (List Char)) : Prop :=
  ∃ pre x, rest = pre ++ [['.', '.']] ∧ canonicalForm cs pre = some (cs' ++ [x]) ∧
    (env.filesystems (join '/' (cs' ++ [x]))).isSome = true

theorem leavesLast_cons {cs₁ : List (List Char)}
    (hstep : ∀ rest, canonicalForm cs (c :: rest) = canonicalForm cs₁ rest)
    (hne : c ≠ ['.', '.'] ∨ rest ≠ []) :
    LeavesLast env cs (c :: rest) cs' ↔ LeavesLast env cs₁ rest cs' := by
  constructor
  · rintro ⟨pre, x, heq, hform, hfs⟩
    cases pre with
    | nil =>
      obtain ⟨rfl, rfl⟩ := List.cons.inj heq
      exact absurd rfl (hne.resolve_left (not_not.2 rfl))
    | cons d pre =>
      obtain ⟨rfl, rfl⟩ := List.cons.inj heq
      exact ⟨pre, x, rfl, by rw [← hstep, hform], hfs⟩
  · rintro ⟨pre, x, rfl, hform, hfs⟩
    exact ⟨c :: pre, x, rfl, by rw [hstep, hform], hfs⟩

open Classical in
/-- How many components lead to the filesystem that resolution finds. -/
noncomputable def foundDepth (env : Filesystems F) (cs rest c : List (List Char)) : ℕ :=
  if LeavesLast env cs rest c then mountDepth env c.dropLast else mountDepth env c

open Classical in
/-- The walk finds the canonical path. -/
theorem walk_eq : walk env cs rest =
    (canonicalForm cs rest).map fun c => (c, foundDepth env cs rest c) := by
  induction rest generalizing cs with
  | nil =>
    have hno : ¬ LeavesLast env cs [] cs := by
      rintro ⟨pre, x, heq, -⟩
      exact List.append_ne_nil_of_right_ne_nil _ (List.cons_ne_nil _ _) heq.symm
    rw [walk, canonicalForm, Option.map_some, foundDepth, if_neg hno]
  | cons c rest ih =>
    have key : ∀ {cs₁}, (∀ rest, canonicalForm cs (c :: rest) = canonicalForm cs₁ rest) →
        (c ≠ ['.', '.'] ∨ rest ≠ []) → walk env cs (c :: rest) = walk env cs₁ rest →
        walk env cs (c :: rest) =
          (canonicalForm cs (c :: rest)).map fun d => (d, foundDepth env cs (c :: rest) d) := by
      intro cs₁ hstep hne hwalk
      rw [hwalk, ih, hstep]
      refine congrArg (fun f => Option.map f _) (funext fun d => ?_)
      exact congrArg (Prod.mk d) (if_congr (leavesLast_cons hstep hne).symm rfl rfl)
    by_cases hskip : c = [] ∨ c = ['.']
    · refine key (fun _ => by rw [canonicalForm, if_pos hskip]) (Or.inl ?_) (by rw [walk, if_pos hskip])
      rintro rfl
      simp at hskip
    by_cases hup : c = ['.', '.']
    · subst hup
      obtain rfl | ⟨init, x, rfl⟩ := List.eq_nil_or_concat' cs
      · simp [walk, canonicalForm]
      · have hform : ∀ rest, canonicalForm (init ++ [x]) (['.', '.'] :: rest) = canonicalForm init rest := by
          intro rest
          simp [canonicalForm]
        by_cases hr : rest = []
        · subst hr
          have hleaves : LeavesLast env (init ++ [x]) [['.', '.']] init ↔
              mountDepth env (init ++ [x]) = init.length + 1 := by
            rw [mountDepth_concat]
            have : mountDepth env init ≤ init.length := mountDepth_le init
            constructor
            · rintro ⟨pre, y, heq, hpre, hfs⟩
              obtain rfl : pre = [] := by
                cases pre with
                | nil => rfl
                | cons d pre => simp at heq
              obtain ⟨-, rfl⟩ : init = init ∧ x = y := by simpa [canonicalForm] using hpre
              rw [if_pos hfs]
            · intro hd
              refine ⟨[], x, rfl, rfl, ?_⟩
              by_contra hfs
              rw [if_neg hfs] at hd
              omega
          rw [hform]
          simp only [walk, canonicalForm, Option.map_some, foundDepth, hleaves]
          simp only [reduceCtorEq, or_self, if_false, List.cons.injEq, and_false, if_true, List.append_eq_nil_iff,
            List.length_append, List.length_singleton, true_and, List.dropLast_concat]
          split_ifs <;> rfl
        · refine key hform (Or.inr hr) ?_
          simp [walk, hr]
    · refine key (fun _ => by rw [canonicalForm, if_neg hskip, if_neg hup]) (Or.inl hup) ?_
      rw [walk, if_neg hskip, if_neg hup]

/-! ## Absolute paths -/

/-- The state before the first component. -/
def start (env : Filesystems F) (root : F) (path : List Char) : PathResolution F :=
  ⟨path, root, root, env.supportsSymlinks root, 1, 1, 1, 0⟩

theorem at_start (env : Filesystems F) (root : F) (t : List Char) :
    At env root (start env root ('/' :: t)) [] (t.splitOn '/') 0 := by
  refine ⟨.nil, fun c hc => notMem_of_mem_splitOn hc, (join_splitOn _ _).symm, rfl, rfl, le_rfl, Or.inl rfl,
    rfl, rfl, ?_, fun _ => ⟨rfl, rfl⟩⟩
  simp [start]

theorem resolvePath_walk (fuel : ℕ) (followLastSymlink : Bool) (hsyms : NoSymlinks env) (hroot : env.filesystems ['/'] = some root) {t : List Char}
    (hlen : ('/' :: t).length ≤ PATH_MAX) (hfuel : ('/' :: t).length < fuel) :
    ∃ q, env.resolvePath fuel ('/' :: t) followLastSymlink = .ok q ∧
      Outcome env root (walk env [] (t.splitOn '/')) q := by
  have hjoin : join '/' (t.splitOn '/') = '/' :: t := join_splitOn _ _
  have hle := length_le_length_join '/' (t.splitOn '/')
  rw [hjoin] at hle
  have hscan := forever_scan fuel followLastSymlink _ _ _ _ fuel (at_start env root t)
    (List.splitOn_ne_nil _ _) (by simp; omega) (by omega)
  rw [hsyms.scan_eq hroot] at hscan
  obtain ⟨q, hrun, hq⟩ := hscan
  refine ⟨q, ?_, hq⟩
  simp only [Filesystems.resolvePath, if_neg (not_lt.2 hlen), resolvePath, hroot]
  exact hrun

/-- **Path resolution canonicalises in place**, whatever the filesystems are. -/
theorem resolvePath_canonical (env : Filesystems F) (hsyms : NoSymlinks env)
    (hroot : (env.filesystems ['/']).isSome = true) (t : List Char) (hlen : ('/' :: t).length ≤ PATH_MAX)
    (fuel : ℕ) (hfuel : ('/' :: t).length < fuel) (followLastSymlink : Bool) :
    ∃ path resolved, env.resolvePath fuel ('/' :: t) followLastSymlink = .ok (path, resolved) ∧
      (resolved.result = -ENOENT ↔ canonicalForm [] (t.splitOn '/') = none) ∧
      (∀ c, canonicalForm [] (t.splitOn '/') = some c →
        resolved.result = 0 ∧ path = join '/' c ∧ Canonical c) ∧
      (resolved.result = 0 → path ≠ [] →
        ∃ resolved', env.resolvePath fuel path followLastSymlink = .ok (path, resolved')) := by
  obtain ⟨root, hroot⟩ := Option.isSome_iff_exists.1 hroot
  obtain ⟨q, hrun, hq⟩ := resolvePath_walk fuel followLastSymlink hsyms hroot hlen hfuel
  refine ⟨q.1, q.2, hrun, ?_⟩
  rw [walk_eq] at hq
  cases hc : canonicalForm [] (t.splitOn '/') with
  | none =>
    rw [hc] at hq
    have hres : q.2 = .error (-ENOENT) := hq
    rw [hres]
    exact ⟨by simp [ResolvedPath.error], nofun, by simp [ResolvedPath.error, ENOENT]⟩
  | some c =>
    have hcan : Canonical c := canonicalForm_canonical .nil (fun d hd => notMem_of_mem_splitOn hd) hc
    rw [hc] at hq
    obtain rfl : q = resolved env root c _ := hq
    refine ⟨by simp [resolved, ENOENT], fun d hd => ?_, fun _ hne => ?_⟩
    · obtain rfl := Option.some.inj hd
      exact ⟨rfl, rfl, hcan⟩
    · -- the canonical path has its own components
      obtain ⟨d, ds, rfl⟩ := List.exists_cons_of_ne_nil (mt join_eq_nil_iff.2 hne)
      have hsplit : (d ++ join '/' ds).splitOn '/' = d :: ds := splitOn_append_join hcan.free
      have hle : (join '/' (d :: ds)).length ≤ ('/' :: t).length := by
        have := length_canonicalForm hc
        rwa [join_nil, List.length_nil, Nat.zero_add, join_splitOn] at this
      rw [resolved, join_cons] at *
      obtain ⟨q', hrun', hq'⟩ := resolvePath_walk fuel followLastSymlink
        hsyms hroot (hle.trans hlen) (hle.trans_lt hfuel)
      rw [hsplit, walk_eq, canonicalForm_append hcan, List.nil_append] at hq'
      obtain rfl : q' = resolved env root (d :: ds) _ := hq'
      exact ⟨_, by rw [hrun', resolved, join_cons]⟩

/-- A path without a slash at the end, on one filesystem. -/
theorem resolvePath_canonical_dots : ∃ path resolved,
    Filesystems.resolvePath (F := Unit) ⟨fun s => if s = ['/'] then some () else none, fun _ => false,
        fun _ _ => (0, .directory), fun _ _ => (0, [])⟩ 9 "/a/../b/".toList true = .ok (path, resolved) ∧
      resolved.result = 0 ∧ path = "/b".toList := by
  obtain ⟨path, resolved, hrun, -, hform, -⟩ := resolvePath_canonical (F := Unit)
    ⟨fun s => if s = ['/'] then some () else none, fun _ => false, fun _ _ => (0, .directory),
      fun _ _ => (0, [])⟩ (fun _ _ _ => rfl) rfl "a/../b/".toList (by decide) 9 (by decide) true
  obtain ⟨hres, hpath, -⟩ := hform ["b".toList] (by decide)
  exact ⟨path, resolved, hrun, hres, hpath⟩

/-- The filesystem at the longest part of the path that is a mountpoint. -/
structure MountedAt (env : Filesystems F) (c : List (List Char)) (k : ℕ) (fs : F) : Prop where
  le : k ≤ c.length
  mounted : env.filesystems (if k = 0 then ['/'] else join '/' (c.take k)) = some fs
  longest : ∀ j, k < j → j ≤ c.length → env.filesystems (join '/' (c.take j)) = none

/-- The right filesystem, and the path in it. -/
def Selects (env : Filesystems F) (c : List (List Char)) (path : List Char) (resolved : ResolvedPath F) :
    Prop :=
  ∃ k fs, MountedAt env c k fs ∧ resolved.fs = some fs ∧ path.drop resolved.off = relativePath c k

theorem mountedAt_mountDepth (hroot : env.filesystems ['/'] = some root) (c : List (List Char)) :
    MountedAt env c (mountDepth env c) (fsAt env root c (mountDepth env c)) := by
  obtain ⟨hle, hpos, hmax⟩ := Nat.findGreatest_eq_iff.1 (rfl : mountDepth env c = mountDepth env c)
  refine ⟨hle, ?_, fun j hj hjc => ?_⟩
  · rw [fsAt]
    split_ifs with h0
    · exact hroot
    · obtain ⟨fs, hfs⟩ := Option.isSome_iff_exists.1 (hpos h0)
      rw [hfs, Option.getD_some]
  · exact Option.not_isSome_iff_eq_none.1 (hmax hj hjc)

theorem drop_resolved (env : Filesystems F) (root : F) (cs : List (List Char)) (k : ℕ) :
    (resolved env root cs k).1.drop (resolved env root cs k).2.off = relativePath cs k := by
  dsimp only [resolved, relativePath]
  by_cases hle : (join '/' (cs.take k)).length + 1 ≤ (join '/' cs).length
  · rw [min_eq_left hle]
  · rw [min_eq_right (by omega), List.drop_length, List.drop_of_length_le (by omega)]

theorem relativePath_ne_nil (hcs : Canonical cs) (hk : k < cs.length) : relativePath cs k ≠ [] := by
  obtain ⟨y, ys, hy⟩ := List.exists_cons_of_ne_nil (hcs _ (List.getElem_mem hk)).1
  have hsplit : join '/' cs = join '/' (cs.take k) ++ '/' :: (cs[k] ++ join '/' (cs.drop (k + 1))) := by
    conv_lhs => rw [← List.take_append_drop k cs, List.drop_eq_getElem_cons hk, join_append, join_cons]
  have hdrop : ∀ (a : List Char) (b : Char) (l : List Char), (a ++ b :: l).drop (a.length + 1) = l := by
    intro a b l
    rw [← List.drop_drop, List.drop_left, List.drop_one, List.tail_cons]
  rw [relativePath, hsplit, hdrop, hy]
  simp

theorem relativePath_length (cs : List (List Char)) : relativePath cs cs.length = [] := by
  rw [relativePath, List.take_length]
  exact List.drop_of_length_le (Nat.le_succ _)

/-- **The filesystem that is found** is the one at the longest part of the canonical path that is a mountpoint,
unless the last component is a `..` that leaves a filesystem into the root of another one, which is not that
of `/`. -/
theorem resolvePath_selects_iff (env : Filesystems F) (hsyms : NoSymlinks env)
    (hroot : (env.filesystems ['/']).isSome = true) (t : List Char) (hlen : ('/' :: t).length ≤ PATH_MAX)
    (fuel : ℕ) (hfuel : ('/' :: t).length < fuel) (followLastSymlink : Bool) (c : List (List Char))
    (hc : canonicalForm [] (t.splitOn '/') = some c) :
    ∃ path resolved, env.resolvePath fuel ('/' :: t) followLastSymlink = .ok (path, resolved) ∧
      (Selects env c path resolved ↔
        ¬ (LeavesLast env [] (t.splitOn '/') c ∧ c ≠ [] ∧ (env.filesystems (join '/' c)).isSome = true)) := by
  obtain ⟨root, hroot⟩ := Option.isSome_iff_exists.1 hroot
  obtain ⟨q, hrun, hq⟩ := resolvePath_walk fuel followLastSymlink hsyms hroot hlen hfuel
  have hcan : Canonical c := canonicalForm_canonical .nil (fun d hd => notMem_of_mem_splitOn hd) hc
  rw [walk_eq, hc] at hq
  obtain rfl : q = resolved env root c (foundDepth env [] (t.splitOn '/') c) := hq
  refine ⟨_, _, hrun, ?_⟩
  constructor
  · rintro ⟨k, fs, hmount, -, hrel⟩ ⟨hleaves, hne, hfs⟩
    replace hrel := (drop_resolved env root c _).symm.trans hrel
    rw [foundDepth, if_pos hleaves] at hrel
    have hk : k = c.length := by
      by_contra hkc
      have hnone := hmount.longest c.length (lt_of_le_of_ne hmount.le hkc) le_rfl
      rw [List.take_length] at hnone
      rw [hnone] at hfs
      cases hfs
    rw [hk, relativePath_length] at hrel
    have hlt : mountDepth env c.dropLast < c.length := by
      have : mountDepth env c.dropLast ≤ c.dropLast.length := mountDepth_le c.dropLast
      have := List.length_pos_of_ne_nil hne
      rw [List.length_dropLast] at *
      omega
    exact relativePath_ne_nil hcan hlt hrel
  · intro hno
    have hfound : foundDepth env [] (t.splitOn '/') c = mountDepth env c := by
      unfold foundDepth
      split_ifs with hleaves
      · obtain rfl | ⟨init, y, rfl⟩ := List.eq_nil_or_concat' c
        · rfl
        · have hfs : ¬ (env.filesystems (join '/' (init ++ [y]))).isSome = true := fun hfs =>
            hno ⟨hleaves, by simp, hfs⟩
          rw [List.dropLast_concat, mountDepth_concat, if_neg hfs]
      · rfl
    exact ⟨_, _, mountedAt_mountDepth hroot c, by rw [hfound],
      (drop_resolved env root c _).trans (by rw [hfound])⟩

/-- A `..` inside a filesystem. -/
theorem resolvePath_selects_up :
    let env : Filesystems ℕ := ⟨fun s => [("/".toList, 0), ("/a".toList, 1)].lookup s, fun _ => false,
      fun _ _ => (0, .directory), fun _ _ => (0, [])⟩
    ∃ path resolved, env.resolvePath 12 "/a/b/../c/".toList true = .ok (path, resolved) ∧
      Selects env ["a".toList, "c".toList] path resolved := by
  intro env
  obtain ⟨path, resolved, hrun, hiff⟩ := resolvePath_selects_iff env (fun _ _ _ => rfl) (by decide)
    "a/b/../c/".toList (by decide) 12 (by decide) true ["a".toList, "c".toList] (by decide)
  refine ⟨path, resolved, hrun, hiff.2 ?_⟩
  rintro ⟨-, -, hfs⟩
  exact absurd hfs (by decide)

end PathResolution

end Miosix
