import MiosixKernel.Path.Walk

/-!
# Resolution of paths with symbolic links

* `pass_cases`: what one pass through the loop does, whatever the filesystems answer;
* `resolvePath_total`: resolution ends, and a path that it returns is canonical;
* `followAll`, `expansions`: the path with the links replaced, and how many links that takes;
* `forever_followAll`: the loop replaces links;
* `resolvePath_links`: when resolution does what replacing the links says.
-/

namespace Miosix

namespace PathResolution

open Lib

variable {F : Type} {env : Filesystems F} {root : F} {p p' : PathResolution F}
  {cs cs' rest rest' : List (List Char)} {c x : List Char} {k k' n : ℕ} {r : ℤ}

/-! ## Every path -/

/-- An error, or a canonical path that the filesystem of one of its mountpoints is found for. -/
def Returned (env : Filesystems F) (root : F) (q : List Char × ResolvedPath F) : Prop :=
  q.2.result < 0 ∨ ∃ cs k, Canonical cs ∧ (join '/' cs).length ≤ PATH_MAX ∧ k ≤ cs.length ∧
    (k = 0 ∨ (env.filesystems (join '/' (cs.take k))).isSome = true) ∧ q = resolved env root cs k

theorem At.returned (h : At env root p cs rest k) (hlen : p.path.length ≤ PATH_MAX) :
    Returned env root (resolved env root cs k) := by
  have := h.length_eq
  exact Or.inr ⟨cs, k, h.canonical, by omega, h.le, h.mounted, rfl⟩

/-- The loop goes on with less to handle, or with one more link. -/
def GoesOn (env : Filesystems F) (root : F) (p : PathResolution F) (rest : List (List Char))
    (p' : PathResolution F) : Prop :=
  ∃ cs' rest' k', At env root p' cs' rest' k' ∧ rest' ≠ [] ∧
    (p'.linksFollowed = p.linksFollowed ∧ (join '/' rest').length < (join '/' rest).length ∧
        p'.path.length ≤ p.path.length ∨
      p'.linksFollowed = p.linksFollowed + 1 ∧ p'.linksFollowed < maxLinkToFollow ∧
        p'.path.length ≤ max p.path.length PATH_MAX)

theorem length_orLast_le (rest : List (List Char)) : (join '/' (orLast rest)).length ≤
    (join '/' rest).length + 1 := by
  unfold orLast
  split_ifs with h
  · subst h; simp
  · exact Nat.le_succ _

/-- The pass ends after a component, or goes on. -/
theorem pass_done_or_next (fuel : ℕ) (followLastSymlink : Bool) (h : At env root p cs (c :: rest) k)
    (hcomp : component env fuel followLastSymlink p (p.index + c.length) = .ok (r, p')) (hr : 0 ≤ r)
    (h' : At env root p' cs' rest' k') (hlen' : p'.path.length ≤ PATH_MAX) (hne : rest' = [] → cs' ≠ [])
    (hon : rest' ≠ [] → GoesOn env root p (c :: rest) p') :
    (∃ q, pass env fuel followLastSymlink p = .ok (.done q) ∧ Returned env root q) ∨
      ∃ p', pass env fuel followLastSymlink p = .ok (.next p') ∧ GoesOn env root p (c :: rest) p' := by
  have hpass := pass_of_component h hcomp hr h' hne
  by_cases hend : rest' = [] ∨ rest' = [[]]
  · rw [if_pos hend] at hpass
    exact Or.inl ⟨_, hpass, h'.returned hlen'⟩
  · rw [if_neg hend] at hpass
    exact Or.inr ⟨p', hpass, hon fun hn => hend (Or.inl hn)⟩

/-- **One pass**, whatever the filesystems answer. -/
theorem pass_cases (fuel : ℕ) (followLastSymlink : Bool) (h : At env root p cs (c :: rest) k)
    (hlen : p.path.length ≤ PATH_MAX) (hfuel : cs.length < fuel) :
    (∃ q, pass env fuel followLastSymlink p = .ok (.done q) ∧ Returned env root q) ∨
      ∃ p', pass env fuel followLastSymlink p = .ok (.next p') ∧ GoesOn env root p (c :: rest) p' := by
  have hk := (h.depth (List.cons_ne_nil _ _)).1
  have hpath := h.length_eq
  have hcons := length_join_cons c rest
  by_cases hskip : c = [] ∨ c = ['.']
  · obtain ⟨p', hcomp, h', hlinks⟩ := component_skip fuel followLastSymlink h hskip
    have hlen' := h'.length_eq
    by_cases hr : rest = []
    · subst hr
      have hpass := pass_of_component h hcomp le_rfl h' nofun
      rw [if_pos (by simp)] at hpass
      have hle : p'.path.length ≤ PATH_MAX := by
        simp only [orLast_nil, length_join_cons, join_nil, List.length_nil] at hlen'
        omega
      exact Or.inl ⟨_, hpass, h'.returned hle⟩
    · rw [orLast_of_ne hr] at h' hlen'
      exact pass_done_or_next fuel followLastSymlink h hcomp le_rfl h' (by omega) (fun hn => absurd hn hr) fun _ =>
        ⟨_, _, _, h', hr, Or.inl ⟨hlinks, by omega, by omega⟩⟩
  by_cases hup : c = ['.', '.']
  · subst hup
    obtain rfl | ⟨init, x, rfl⟩ := List.eq_nil_or_concat' cs
    · exact Or.inl ⟨_, pass_error h (component_root h) (by decide), Or.inl (by simp [ResolvedPath.error, ENOENT])⟩
    · obtain ⟨p', hcomp, hlinks, h'⟩ := component_up fuel followLastSymlink h (by simp at hfuel; omega)
      have hlen' := h'.length_eq
      have hrest' : (join '/' (if init = [] then orLast rest else rest)).length ≤ (join '/' rest).length + 1 := by
        split_ifs
        · exact length_orLast_le rest
        · exact Nat.le_succ _
      have hinit : (join '/' init).length ≤ (join '/' (init ++ [x])).length := by simp
      simp only [List.length_cons, List.length_nil] at hcons
      refine pass_done_or_next fuel followLastSymlink h hcomp le_rfl h' (by omega) (fun hn => ?_) fun hn =>
        ⟨_, _, _, h', hn, Or.inl ⟨hlinks, by omega, by omega⟩⟩
      rintro rfl
      exact orLast_ne_nil rest (by simpa using hn)
  have hc : IsNormal c := ⟨fun hn => hskip (Or.inl hn), fun hn => hskip (Or.inr hn), hup⟩
  cases hfs : env.filesystems (join '/' (cs ++ [c])) with
  | some fs =>
    obtain ⟨p', hcomp, hlinks, h'⟩ := component_mount fuel followLastSymlink h hc hfs
    have hlen' := h'.length_eq
    rw [join_append, List.length_append, length_join_cons, join_nil, List.length_nil] at hlen'
    exact pass_done_or_next fuel followLastSymlink h hcomp le_rfl h' (by omega) (fun _ => by simp) fun hn =>
      ⟨_, _, _, h', hn, Or.inl ⟨hlinks, by omega, by omega⟩⟩
  | none =>
    obtain ⟨p₁, h₁, hlinks, hdepth, hcomp⟩ := component_normal fuel followLastSymlink h hc hfs
    have hlen' := h₁.length_eq
    rw [join_append, List.length_append, length_join_cons, join_nil, List.length_nil] at hlen'
    have hplain : ∀ r, 0 ≤ r → component env fuel followLastSymlink p (p.index + c.length) = .ok (r, p₁) →
        (∃ q, pass env fuel followLastSymlink p = .ok (.done q) ∧ Returned env root q) ∨
          ∃ p', pass env fuel followLastSymlink p = .ok (.next p') ∧ GoesOn env root p (c :: rest) p' :=
      fun r hr hcomp => pass_done_or_next fuel followLastSymlink h hcomp hr h₁ (by omega) (fun _ => by simp) fun hn =>
        ⟨_, _, _, h₁, hn, Or.inl ⟨hlinks, by omega, by omega⟩⟩
    have herror : ∀ e p', 0 < e → component env fuel followLastSymlink p (p.index + c.length) = .ok (-e, p') →
        (∃ q, pass env fuel followLastSymlink p = .ok (.done q) ∧ Returned env root q) ∨
          ∃ p', pass env fuel followLastSymlink p = .ok (.next p') ∧ GoesOn env root p (c :: rest) p' :=
      fun e p' he hcomp => Or.inl ⟨_, pass_error h hcomp (by omega), Or.inl (by simp [ResolvedPath.error, he])⟩
    split_ifs at hcomp with hs hneg hlink hdir
    · exact hplain 1 (by decide) hcomp
    · -- a link
      obtain ⟨p₂, k₂, hfollow, h₂⟩ := followSymlink_spec h₁ hk
        (by rw [hdepth]) rfl rfl
      rw [hfollow, followed] at hcomp
      dsimp only at hcomp
      split_ifs at hcomp with hloop hfail hempty hlong
      · exact herror ELOOP _ (by decide) hcomp
      · have h₁' : At env root { p₁ with linksFollowed := p₁.linksFollowed + 1 } (cs ++ [c]) rest k :=
          ⟨h₁.canonical, h₁.free, h₁.path, h₁.index, h₁.root_eq, h₁.le, h₁.mounted, h₁.fs, h₁.syms, h₁.off,
            h₁.depth⟩
        refine pass_done_or_next fuel followLastSymlink h hcomp (by decide) h₁' (by dsimp only; omega)
          (fun _ => by simp) fun hn =>
          ⟨_, _, _, h₁', hn, Or.inr ⟨?_, ?_, ?_⟩⟩
        · rw [← hlinks]
        · exact not_le.1 hloop
        · exact le_max_of_le_left (by dsimp only; omega)
      · exact herror ENOENT _ (by decide) hcomp
      · exact herror ENAMETOOLONG _ (by decide) hcomp
      · obtain ⟨h₂', hlinks₂⟩ := h₂ hempty
        refine pass_done_or_next fuel followLastSymlink h hcomp le_rfl h₂' (by rw [h₂'.path]; exact not_lt.1 hlong)
          (fun hn => absurd hn (expand_snd_ne_nil _ _ _)) fun hn =>
          ⟨_, _, _, h₂', hn, Or.inr ⟨hlinks₂.trans (by rw [hlinks]), ?_, le_max_of_le_right ?_⟩⟩
        · rw [hlinks₂]
          exact not_le.1 hloop
        · rw [h₂'.path]
          exact not_lt.1 hlong
    · exact herror ENOTDIR _ (by decide) hcomp
    · exact hplain 0 le_rfl hcomp
    · exact hplain 0 le_rfl hcomp

/-- Enough for every path: what a link expands to is no longer than `PATH_MAX`. -/
def enoughFuel : ℕ := 3 * (PATH_MAX + 1)

/-- What the loop still has to do. -/
def remaining (p : PathResolution F) : ℕ :=
  (maxLinkToFollow - p.linksFollowed).toNat * (PATH_MAX + 1) + (p.path.length - p.index)

theorem GoesOn.remaining_lt (h : At env root p cs rest k) (hne : rest ≠ []) (hlen : p.path.length ≤ PATH_MAX)
    (hg : GoesOn env root p rest p') : remaining p' < remaining p := by
  obtain ⟨cs', rest', k', h', hne', hg⟩ := hg
  obtain ⟨c, rest, rfl⟩ := List.exists_cons_of_ne_nil hne
  obtain ⟨c', rest', rfl⟩ := List.exists_cons_of_ne_nil hne'
  have hl := h.length_eq
  have hl' := h'.length_eq
  have hi := h.index
  have hi' := h'.index
  rw [length_join_cons] at hl hl'
  simp only [length_join_cons] at hg
  unfold remaining
  obtain ⟨hlinks, hlt, -⟩ | ⟨hlinks, hlt, hle⟩ := hg
  · rw [hlinks]
    omega
  · have hmax : p'.path.length ≤ PATH_MAX := hle.trans (max_le hlen le_rfl)
    have hn : (maxLinkToFollow - p.linksFollowed).toNat = (maxLinkToFollow - p'.linksFollowed).toNat + 1 := by
      omega
    rw [hn, Nat.add_mul, Nat.one_mul]
    omega

/-- Between two passes. -/
def Between (env : Filesystems F) (root : F) (p : PathResolution F) : Prop :=
  (∃ cs rest k, At env root p cs rest k ∧ rest ≠ []) ∧ p.path.length ≤ PATH_MAX

theorem forever_total_of_between (fuel : ℕ) (followLastSymlink : Bool) (hfuel : PATH_MAX < fuel)
    (h : Between env root p) (hn : remaining p < n) :
    ∃ q, forever .stuck (pass env fuel followLastSymlink) n p = .ok q ∧ Returned env root q := by
  refine forever_total (Between env root) (Returned env root) remaining (fun p hp => ?_) n p h hn
  obtain ⟨⟨cs, rest, k, hat, hne⟩, hlen⟩ := hp
  obtain ⟨c, rest, rfl⟩ := List.exists_cons_of_ne_nil hne
  have hcs : cs.length < fuel := by
    have := length_le_length_join '/' cs
    have := hat.length_eq
    omega
  obtain ⟨q, hpass, hq⟩ | ⟨p', hpass, hg⟩ := pass_cases fuel followLastSymlink hat hlen hcs
  · exact Or.inr ⟨q, hpass, hq⟩
  · refine Or.inl ⟨p', hpass, ?_, hg.remaining_lt hat hne hlen⟩
    obtain ⟨cs', rest', k', h', hne', ⟨-, -, hle⟩ | ⟨-, -, hle⟩⟩ := hg
    · exact ⟨⟨cs', rest', k', h', hne'⟩, hle.trans hlen⟩
    · exact ⟨⟨cs', rest', k', h', hne'⟩, hle.trans (max_le hlen le_rfl)⟩

/-- **Resolution ends**, and returns an error or a canonical path, whatever the filesystems answer. -/
theorem resolvePath_total (env : Filesystems F) (path : List Char) (fuel : ℕ) (hfuel : enoughFuel ≤ fuel)
    (followLastSymlink : Bool) : ∃ q, env.resolvePath fuel path followLastSymlink = .ok q ∧
      (q.2.result < 0 ∨ ∃ root, env.filesystems ['/'] = some root ∧ Returned env root q) := by
  unfold Filesystems.resolvePath
  split_ifs with hlong habs
  · exact ⟨_, rfl, Or.inl (by simp [ResolvedPath.error, ENAMETOOLONG])⟩
  · exact ⟨_, rfl, Or.inl (by simp [ResolvedPath.error, ENOENT])⟩
  · obtain ⟨t, rfl⟩ : ∃ t, path = '/' :: t := by
      cases path with
      | nil => simp at habs
      | cons a t =>
        obtain rfl : a = '/' := by simpa using habs
        exact ⟨t, rfl⟩
    unfold resolvePath
    cases hroot : env.filesystems ['/'] with
    | none => exact ⟨_, rfl, Or.inl (by simp [ResolvedPath.error, ENOENT])⟩
    | some root =>
      have hlen : ('/' :: t).length ≤ PATH_MAX := not_lt.1 hlong
      have hrem : remaining (start env root ('/' :: t)) < fuel := by
        have hle : remaining (start env root ('/' :: t)) ≤ 2 * (PATH_MAX + 1) + PATH_MAX := by
          unfold remaining
          dsimp only [start]
          have : (maxLinkToFollow - 0).toNat = 2 := rfl
          rw [this]
          omega
        unfold enoughFuel at hfuel
        omega
      obtain ⟨q, hrun, hq⟩ := forever_total_of_between fuel followLastSymlink
        (by unfold enoughFuel at hfuel; omega)
        ⟨⟨_, _, _, at_start env root t, List.splitOn_ne_nil _ _⟩, hlen⟩ hrem
      exact ⟨q, hrun, Or.inr ⟨root, rfl, hq⟩⟩

/-! ## Replacing links -/

section Follow

variable (env : Filesystems F) (root : F) (followLastSymlink : Bool)

/-- What replacing links in a path comes to: an error, an error of `lstat` or `readlink`, or a path that has
no link to follow. -/
inductive Followed where
  | error (e : ℤ)
  | failed (e : ℤ)
  | path (cs : List (List Char))

/-- The target of the link `c` in the directory `cs`. -/
def readLink (cs : List (List Char)) (c : List Char) : ℤ × List Char :=
  env.readlink (fsAt env root cs (mountDepth env cs)) (relativePath (cs ++ [c]) (mountDepth env cs))

/-- The path with the link `c` in the directory `cs` replaced by its target. -/
def replaced (cs : List (List Char)) (c : List Char) (rest : List (List Char)) : List (List Char) :=
  (expand cs rest (readLink env root cs c).2).1 ++ (expand cs rest (readLink env root cs c).2).2

/-- The link can be replaced: `readlink` does not fail, the target is not empty, and the path is not too
long. -/
def Replaceable (cs : List (List Char)) (c : List Char) (rest : List (List Char)) : Prop :=
  0 ≤ (readLink env root cs c).1 ∧ (readLink env root cs c).2 ≠ [] ∧
    (join '/' (replaced env root cs c rest)).length ≤ PATH_MAX

instance (cs : List (List Char)) (c : List Char) (rest : List (List Char)) :
    Decidable (Replaceable env root cs c rest) := by
  unfold Replaceable
  infer_instance

/-- Replace links, at most `left` times. The path starts at the root. -/
def followAll (left : ℕ) (comps : List (List Char)) : Followed :=
  match scan env root followLastSymlink [] comps with
  | .finished => .path comps
  | .error e => .error e
  | .failed e => .failed e
  | .link cs c rest =>
    match left with
    | 0 => .error (-ELOOP)
    | left + 1 =>
      if (readLink env root cs c).1 < 0 then .failed (readLink env root cs c).1
      else if (readLink env root cs c).2 = [] then .error (-ENOENT)
      else if (join '/' (replaced env root cs c rest)).length > PATH_MAX then .error (-ENAMETOOLONG)
      else followAll left (replaced env root cs c rest)

/-- How many links have to be replaced, counted up to a bound. -/
def expansions : ℕ → List (List Char) → ℕ
  | 0, _ => 0
  | bound + 1, comps =>
    match scan env root followLastSymlink [] comps with
    | .link cs c rest =>
      1 + if Replaceable env root cs c rest then expansions bound (replaced env root cs c rest) else 0
    | _ => 0

end Follow

variable {followLastSymlink : Bool} {left : ℕ} {comps : List (List Char)}

/-- The components of a directory are not links that have to be followed. -/
def Checked (env : Filesystems F) (root : F) (followLastSymlink : Bool) (cs : List (List Char)) : Prop :=
  ∀ pre suf, cs = pre ++ suf → ∀ rest ≠ [],
    scan env root followLastSymlink [] (pre ++ rest) = scan env root followLastSymlink pre rest

theorem checked_nil : Checked env root followLastSymlink [] := fun pre suf h rest _ => by
  obtain ⟨rfl, -⟩ := List.append_eq_nil_iff.1 h.symm
  rfl

theorem Checked.prefix_of {cs suf : List (List Char)} (h : Checked env root followLastSymlink (cs ++ suf)) :
    Checked env root followLastSymlink cs := fun pre suf' hcs =>
  h pre (suf' ++ suf) (by rw [hcs, List.append_assoc])

theorem Checked.concat (h : Checked env root followLastSymlink cs)
    (hstep : ∀ rest ≠ [], scan env root followLastSymlink cs (c :: rest) =
      scan env root followLastSymlink (cs ++ [c]) rest) :
    Checked env root followLastSymlink (cs ++ [c]) := by
  intro pre suf hpre rest hrest
  obtain rfl | ⟨suf, y, rfl⟩ := List.eq_nil_or_concat' suf
  · rw [List.append_nil] at hpre
    rw [← hpre, List.append_assoc, List.singleton_append,
      h cs [] (List.append_nil cs).symm _ (List.cons_ne_nil _ _), hstep rest hrest]
  · rw [← List.append_assoc] at hpre
    obtain ⟨hcs, -⟩ := List.append_inj' hpre rfl
    exact h pre suf hcs rest hrest

/-- The directory of a link was checked. -/
theorem Checked.of_link (h : Checked env root followLastSymlink cs)
    (hscan : scan env root followLastSymlink cs rest = .link cs' x rest') :
    Checked env root followLastSymlink cs' := by
  induction rest generalizing cs with
  | nil => cases hscan
  | cons c rest ih =>
    have hnext : ∀ {ds}, scan env root followLastSymlink ds rest = .link cs' x rest' → rest ≠ [] := by
      rintro ds hlink rfl
      cases hlink
    have hfollow : ∀ {rest'' : List (List Char)}, rest'' ≠ [] → mustFollow followLastSymlink rest'' = true :=
      fun hr => if_neg hr
    rw [scan] at hscan
    split_ifs at hscan with hskip hup hcs hmount hs
    · exact ih h hscan
    · obtain rfl | ⟨init, y, rfl⟩ := List.eq_nil_or_concat' cs
      · exact absurd rfl hcs
      · rw [List.dropLast_concat] at hscan
        exact ih h.prefix_of hscan
    · exact ih (h.concat fun rest _ => by rw [scan, if_neg hskip, if_neg hup, if_pos hmount]) hscan
    · dsimp only at hscan
      split_ifs at hscan with hneg hlink hdir
      · obtain ⟨rfl, -, -⟩ := Scan.link.inj hscan
        exact h
      · have hrest := hnext hscan
        rw [hfollow hrest] at hs
        refine ih (h.concat fun rest'' hr => ?_) hscan
        have hd : ¬ (rest'' ≠ [] ∧ _ ≠ FileType.directory) := fun hd => hdir ⟨hrest, hd.2⟩
        rw [scan, if_neg hskip, if_neg hup, if_neg hmount, hfollow hr, if_pos hs]
        dsimp only
        rw [if_neg hneg, if_neg hlink, if_neg hd]
    · have hrest := hnext hscan
      rw [hfollow hrest] at hs
      refine ih (h.concat fun rest'' hr => ?_) hscan
      rw [scan, if_neg hskip, if_neg hup, if_neg hmount, hfollow hr, if_neg hs]

/-! ## How many links -/

/-- The scan ends with `-ENOTDIR`, if with an error. -/
theorem scan_error {e : ℤ} (h : scan env root followLastSymlink cs rest = .error e) : e = -ENOTDIR := by
  induction rest generalizing cs with
  | nil => cases h
  | cons c rest ih =>
    rw [scan] at h
    split_ifs at h with hskip hup hcs hmount hs
    · exact ih h
    · exact ih h
    · exact ih h
    · dsimp only at h
      split_ifs at h with hneg hlink hdir
      · exact (Scan.error.inj h).symm
      · exact ih h
    · exact ih h

theorem expansions_link {bound : ℕ} (hscan : scan env root followLastSymlink [] comps = .link cs c rest) :
    expansions env root followLastSymlink (bound + 1) comps = 1 +
      if Replaceable env root cs c rest then
        expansions env root followLastSymlink bound (replaced env root cs c rest) else 0 := by
  rw [expansions, hscan]

theorem expansions_of_not_link (hscan : ¬ ∃ cs c rest, scan env root followLastSymlink [] comps = .link cs c rest)
    (bound : ℕ) : expansions env root followLastSymlink bound comps = 0 := by
  cases bound with
  | zero => rfl
  | succ bound =>
    rw [expansions]
    split
    · exact absurd ⟨_, _, _, ‹_›⟩ hscan
    · rfl

theorem expansions_le (bound : ℕ) (comps : List (List Char)) :
    expansions env root followLastSymlink bound comps ≤ bound := by
  induction bound generalizing comps with
  | zero => exact le_rfl
  | succ bound ih =>
    by_cases hlink : ∃ cs c rest, scan env root followLastSymlink [] comps = .link cs c rest
    · obtain ⟨cs, c, rest, hs⟩ := hlink
      have := ih (replaced env root cs c rest)
      rw [expansions_link hs]
      split_ifs <;> omega
    · rw [expansions_of_not_link hlink]
      exact Nat.zero_le _

/-- Counting up to a larger bound. -/
theorem expansions_eq_min (bound : ℕ) (comps : List (List Char)) :
    expansions env root followLastSymlink bound comps =
      min bound (expansions env root followLastSymlink (bound + 1) comps) := by
  induction bound generalizing comps with
  | zero => simp [expansions]
  | succ bound ih =>
    by_cases hlink : ∃ cs c rest, scan env root followLastSymlink [] comps = .link cs c rest
    · obtain ⟨cs, c, rest, hs⟩ := hlink
      have := ih (replaced env root cs c rest)
      rw [expansions_link hs, expansions_link hs]
      split_ifs <;> omega
    · rw [expansions_of_not_link hlink, expansions_of_not_link hlink, min_eq_right (Nat.zero_le _)]

theorem followAll_link (hscan : scan env root followLastSymlink [] comps = .link cs c rest)
    (h : Replaceable env root cs c rest) :
    followAll env root followLastSymlink (left + 1) comps =
      followAll env root followLastSymlink left (replaced env root cs c rest) := by
  rw [followAll, hscan]
  dsimp only
  rw [if_neg (not_lt.2 h.1), if_neg h.2.1, if_neg (not_lt.2 h.2.2)]

/-- A link that cannot be replaced ends the replacing, with an error that is not `-ELOOP`. -/
theorem followAll_link_not (hscan : scan env root followLastSymlink [] comps = .link cs c rest)
    (h : ¬ Replaceable env root cs c rest) : ∃ S : Followed, S ≠ .error (-ELOOP) ∧
      ∀ left, followAll env root followLastSymlink (left + 1) comps = S := by
  have hdef : ∀ left, followAll env root followLastSymlink (left + 1) comps =
      if (readLink env root cs c).1 < 0 then .failed (readLink env root cs c).1
      else if (readLink env root cs c).2 = [] then .error (-ENOENT)
      else if (join '/' (replaced env root cs c rest)).length > PATH_MAX then .error (-ENAMETOOLONG)
      else followAll env root followLastSymlink left (replaced env root cs c rest) := fun left => by
    rw [followAll, hscan]
  unfold Replaceable at h
  by_cases hneg : (readLink env root cs c).1 < 0
  · exact ⟨.failed (readLink env root cs c).1, nofun, fun left => by rw [hdef, if_pos hneg]⟩
  by_cases hempty : (readLink env root cs c).2 = []
  · exact ⟨.error (-ENOENT), by simp [ENOENT, ELOOP], fun left => by rw [hdef, if_neg hneg, if_pos hempty]⟩
  have hlong : (join '/' (replaced env root cs c rest)).length > PATH_MAX := by
    by_contra hlong
    exact h ⟨not_lt.1 hneg, hempty, not_lt.1 hlong⟩
  exact ⟨.error (-ENAMETOOLONG), by simp [ENAMETOOLONG, ELOOP], fun left => by
    rw [hdef, if_neg hneg, if_neg hempty, if_pos hlong]⟩

/-- Where there is no link to follow, it makes no difference how many may be followed. -/
theorem followAll_of_not_link (hscan : ¬ ∃ cs c rest, scan env root followLastSymlink [] comps = .link cs c rest) :
    ∃ S : Followed, S ≠ .error (-ELOOP) ∧ ∀ left, followAll env root followLastSymlink left comps = S := by
  cases hs : scan env root followLastSymlink [] comps with
  | finished => exact ⟨.path comps, nofun, fun left => by rw [followAll, hs]⟩
  | error e =>
    refine ⟨.error e, ?_, fun left => by rw [followAll, hs]⟩
    rw [scan_error hs]
    simp [ENOTDIR, ELOOP]
  | failed e => exact ⟨.failed e, nofun, fun left => by rw [followAll, hs]⟩
  | link cs c rest => exact absurd ⟨cs, c, rest, hs⟩ hscan

/-- One more link may be followed, but there is none. -/
theorem followAll_succ_of_le (h : expansions env root followLastSymlink (left + 1) comps ≤ left) :
    followAll env root followLastSymlink (left + 1) comps = followAll env root followLastSymlink left comps := by
  induction left generalizing comps with
  | zero =>
    by_cases hlink : ∃ cs c rest, scan env root followLastSymlink [] comps = .link cs c rest
    · obtain ⟨cs, c, rest, hs⟩ := hlink
      rw [expansions_link hs] at h
      omega
    · obtain ⟨S, -, hS⟩ := followAll_of_not_link hlink
      rw [hS, hS]
  | succ left ih =>
    by_cases hlink : ∃ cs c rest, scan env root followLastSymlink [] comps = .link cs c rest
    · obtain ⟨cs, c, rest, hs⟩ := hlink
      rw [expansions_link hs] at h
      by_cases hr : Replaceable env root cs c rest
      · rw [if_pos hr] at h
        rw [followAll_link hs hr, followAll_link hs hr, ih (by omega)]
      · obtain ⟨S, -, hS⟩ := followAll_link_not hs hr
        rw [hS, hS]
    · obtain ⟨S, -, hS⟩ := followAll_of_not_link hlink
      rw [hS, hS]

/-- More links than may be followed end in `-ELOOP`, and nothing else does. -/
theorem followAll_loop_iff : followAll env root followLastSymlink left comps = .error (-ELOOP) ↔
    expansions env root followLastSymlink (left + 1) comps = left + 1 := by
  induction left generalizing comps with
  | zero =>
    by_cases hlink : ∃ cs c rest, scan env root followLastSymlink [] comps = .link cs c rest
    · obtain ⟨cs, c, rest, hs⟩ := hlink
      rw [expansions_link hs, followAll, hs]
      simp [expansions]
    · obtain ⟨S, hne, hS⟩ := followAll_of_not_link hlink
      rw [hS, expansions_of_not_link hlink]
      exact ⟨fun h => absurd h hne, nofun⟩
  | succ left ih =>
    by_cases hlink : ∃ cs c rest, scan env root followLastSymlink [] comps = .link cs c rest
    · obtain ⟨cs, c, rest, hs⟩ := hlink
      rw [expansions_link hs]
      by_cases hr : Replaceable env root cs c rest
      · rw [if_pos hr, followAll_link hs hr, ih]
        omega
      · obtain ⟨S, hne, hS⟩ := followAll_link_not hs hr
        rw [hS, if_neg hr]
        exact ⟨fun h => absurd h hne, fun h => by omega⟩
    · obtain ⟨S, hne, hS⟩ := followAll_of_not_link hlink
      rw [hS, expansions_of_not_link hlink]
      exact ⟨fun h => absurd h hne, nofun⟩

/-! ## The loop replaces links -/

theorem walk_append {ds : List (List Char)} (hds : Canonical ds) :
    walk env cs (ds ++ rest) = walk env (cs ++ ds) rest := by
  induction ds generalizing cs with
  | nil => rw [List.nil_append, List.append_nil]
  | cons d ds ih =>
    obtain ⟨h1, h2, h3, -⟩ := hds d List.mem_cons_self
    rw [List.cons_append, walk, if_neg (not_or.2 ⟨h1, h2⟩), if_neg h3,
      ih fun e he => hds e (List.mem_cons_of_mem _ he), List.append_assoc, List.singleton_append]

/-- The loop returns what replacing the links comes to. -/
def Comes (env : Filesystems F) (root : F) (q : List Char × ResolvedPath F) : Followed → Prop
  | .error e => q.2.result = e
  | .failed _ => True
  | .path comps => Outcome env root (walk env [] comps) q

theorem Checked.scan_append (h : Checked env root followLastSymlink cs) (hne : rest ≠ []) :
    scan env root followLastSymlink [] (cs ++ rest) = scan env root followLastSymlink cs rest :=
  h cs [] (List.append_nil cs).symm rest hne

/-- What replacing a link leaves was checked, up to what comes next. -/
theorem Checked.expand (h : Checked env root followLastSymlink cs) (rest : List (List Char))
    (target : List Char) : Checked env root followLastSymlink (expand cs rest target).1 := by
  unfold PathResolution.expand
  split
  · exact checked_nil
  · exact h

/-- Following the link `c`: the errors, or the loop with the link replaced. -/
theorem pass_link {p₁ : PathResolution F} (fuel : ℕ) (followLastSymlink : Bool)
    (h : At env root p cs (c :: rest) k)
    (hcomp : component env fuel followLastSymlink p (p.index + c.length) = followSymlink env p₁)
    (h₁ : At env root p₁ (cs ++ [c]) rest k) (hk : k = mountDepth env cs)
    (hdepth : p₁.depthIntoFs = cs.length + 2 - k) :
    (maxLinkToFollow ≤ p₁.linksFollowed + 1 →
      ∃ path, pass env fuel followLastSymlink p = .ok (.done (path, .error (-ELOOP)))) ∧
    (p₁.linksFollowed + 1 < maxLinkToFollow → 0 ≤ (readLink env root cs c).1 →
      ((readLink env root cs c).2 = [] →
        ∃ path, pass env fuel followLastSymlink p = .ok (.done (path, .error (-ENOENT)))) ∧
      ((readLink env root cs c).2 ≠ [] → (join '/' (replaced env root cs c rest)).length > PATH_MAX →
        ∃ path, pass env fuel followLastSymlink p = .ok (.done (path, .error (-ENAMETOOLONG)))) ∧
      ((readLink env root cs c).2 ≠ [] → (join '/' (replaced env root cs c rest)).length ≤ PATH_MAX →
        ∃ p₂ k₂, At env root p₂ (expand cs rest (readLink env root cs c).2).1
            (expand cs rest (readLink env root cs c).2).2 k₂ ∧ p₂.linksFollowed = p₁.linksFollowed + 1 ∧
          pass env fuel followLastSymlink p =
            .ok (if (expand cs rest (readLink env root cs c).2).2 = [[]] then
                .done (resolved env root (expand cs rest (readLink env root cs c).2).1 k₂)
              else .next p₂))) := by
  have hanswer : env.readlink (fsAt env root cs k) (relativePath (cs ++ [c]) k) = readLink env root cs c := by
    rw [readLink, hk]
  obtain ⟨p₂, k₂, hfollow, h₂⟩ := followSymlink_spec h₁ hk hdepth hanswer rfl
  rw [hfollow] at hcomp
  have herror : ∀ e, 0 < e → (followed p₁ p₂ (readLink env root cs c)
        (join '/' (replaced env root cs c rest)).length).1 = -e →
      ∃ path, pass env fuel followLastSymlink p = .ok (.done (path, .error (-e))) := by
    intro e he hr
    have herr := pass_error h hcomp (by change (followed _ _ _ _).1 < 0; exact hr.trans_lt (by omega))
    exact ⟨_, herr.trans (by rw [← hr]; rfl)⟩
  unfold followed at herror
  dsimp only at herror
  refine ⟨fun hloop => herror ELOOP (by decide) (by rw [if_pos hloop]), fun hloop hneg => ⟨fun hempty => ?_,
    fun hempty hlong => ?_, fun hempty hlong => ?_⟩⟩
  · refine herror ENOENT (by decide) ?_
    rw [if_neg (not_le.2 hloop), if_neg (not_lt.2 hneg), if_pos hempty]
  · refine herror ENAMETOOLONG (by decide) ?_
    rw [if_neg (not_le.2 hloop), if_neg (not_lt.2 hneg), if_neg hempty, if_pos hlong]
  · obtain ⟨h₂, hlinks⟩ := h₂ hempty
    refine ⟨p₂, k₂, h₂, hlinks, ?_⟩
    have hr : followed p₁ p₂ (readLink env root cs c) (join '/' (replaced env root cs c rest)).length =
        (0, p₂) := by
      unfold followed
      dsimp only
      rw [if_neg (not_le.2 hloop), if_neg (not_lt.2 hneg), if_neg hempty, if_neg (not_lt.2 hlong)]
    have hpass := pass_of_component h (hcomp.trans (by rw [← hr]; rfl)) le_rfl h₂
      fun hn => absurd hn (expand_snd_ne_nil _ _ _)
    simpa only [expand_snd_ne_nil, false_or] using hpass

/-- The loop up to the first link. -/
theorem forever_to_link (fuel : ℕ) (followLastSymlink : Bool) (h : At env root p cs rest k) (hne : rest ≠ [])
    (hlen : p.path.length ≤ PATH_MAX) (hfuel : PATH_MAX < fuel) (hn : PATH_MAX < n)
    (hchecked : Checked env root followLastSymlink cs)
    (hfailed : ∀ e, followAll env root followLastSymlink left (cs ++ rest) ≠ .failed e) :
    (∃ q, forever .stuck (pass env fuel followLastSymlink) n p = .ok q ∧
      Comes env root q (followAll env root followLastSymlink left (cs ++ rest))) ∨
    ∃ cs' c rest' p' p₁ k' n', scan env root followLastSymlink [] (cs ++ rest) = .link cs' c rest' ∧
      forever .stuck (pass env fuel followLastSymlink) n p =
        forever .stuck (pass env fuel followLastSymlink) (n' + 1) p' ∧ n ≤ n' + 1 + PATH_MAX ∧
      At env root p' cs' (c :: rest') k' ∧ p₁.linksFollowed = p.linksFollowed ∧
      component env fuel followLastSymlink p' (p'.index + c.length) = followSymlink env p₁ ∧
      At env root p₁ (cs' ++ [c]) rest' k' ∧ k' = mountDepth env cs' ∧
      p₁.depthIntoFs = cs'.length + 2 - k' ∧ Checked env root followLastSymlink cs' := by
  have hcomps := length_le_length_join '/' (cs ++ rest)
  rw [← h.path, List.length_append] at hcomps
  have hafter := forever_scan fuel followLastSymlink rest cs p k n h hne (by omega) (by omega)
  have hscan := hchecked.scan_append hne
  cases hs : scan env root followLastSymlink cs rest with
  | finished =>
    rw [hs] at hafter hscan
    obtain ⟨q, hrun, hq⟩ := hafter
    refine Or.inl ⟨q, hrun, ?_⟩
    rw [followAll, hscan, Comes, walk_append h.canonical, List.nil_append]
    exact hq
  | error e =>
    rw [hs] at hafter hscan
    obtain ⟨path, hrun⟩ := hafter
    refine Or.inl ⟨_, hrun, ?_⟩
    rw [followAll, hscan]
    exact rfl
  | failed e =>
    rw [hs] at hscan
    refine absurd ?_ (hfailed e)
    rw [followAll, hscan]
  | link cs' c rest' =>
    rw [hs] at hafter hscan
    obtain ⟨p', p₁, k', n', hrun, hn', h', hlinks, hcomp, h₁, hk', hdepth⟩ := hafter
    obtain ⟨n', rfl⟩ : ∃ m, n' = m + 1 := ⟨n' - 1, by omega⟩
    exact Or.inr ⟨cs', c, rest', p', p₁, k', n', hscan, hrun, by omega, h', hlinks, hcomp, h₁, hk', hdepth,
      hchecked.of_link hs⟩

/-- **The loop**, with at most `left` more links. -/
theorem forever_followAll (fuel : ℕ) (followLastSymlink : Bool) (hfuel : PATH_MAX < fuel) (left : ℕ) :
    ∀ (cs rest : List (List Char)) (p : PathResolution F) (k n : ℕ),
      At env root p cs rest k → rest ≠ [] → p.path.length ≤ PATH_MAX →
      p.linksFollowed + left + 1 = maxLinkToFollow → Checked env root followLastSymlink cs →
      (left + 1) * (PATH_MAX + 1) ≤ n →
      (∀ e, followAll env root followLastSymlink left (cs ++ rest) ≠ .failed e) →
      ∃ q, forever .stuck (pass env fuel followLastSymlink) n p = .ok q ∧
        Comes env root q (followAll env root followLastSymlink left (cs ++ rest)) := by
  induction left with
  | zero =>
    intro cs rest p k n h hne hlen hlinks hchecked hn hfailed
    obtain hdone | ⟨cs', c, rest', p', p₁, k', n', hscan, hrun, -, h', hlinks', hcomp, h₁, hk', hdepth, -⟩ :=
      forever_to_link fuel followLastSymlink h hne hlen hfuel (by omega : PATH_MAX < n) hchecked hfailed
    · exact hdone
    obtain ⟨path, hpass⟩ := (pass_link fuel followLastSymlink h' hcomp h₁ hk' hdepth).1 (by
      rw [hlinks', ← hlinks]
      simp)
    refine ⟨_, hrun.trans (forever_done hpass), ?_⟩
    rw [followAll, hscan]
    exact rfl
  | succ left ih =>
    intro cs rest p k n h hne hlen hlinks hchecked hn hfailed
    obtain hdone | ⟨cs', c, rest', p', p₁, k', n', hscan, hrun, hn', h', hlinks', hcomp, h₁, hk', hdepth,
        hchecked'⟩ := forever_to_link fuel followLastSymlink h hne hlen hfuel
      (by rw [Nat.add_mul] at hn; omega : PATH_MAX < n) hchecked hfailed
    · exact hdone
    have hlinks₁ : p₁.linksFollowed + 1 + left + 1 = maxLinkToFollow := by
      rw [← hlinks, hlinks']
      push_cast
      ring
    rw [followAll, hscan] at hfailed ⊢
    dsimp only at hfailed ⊢
    have hneg : 0 ≤ (readLink env root cs' c).1 := by
      by_contra hneg
      exact hfailed _ (if_pos (not_le.1 hneg))
    rw [if_neg (not_lt.2 hneg)] at hfailed ⊢
    obtain ⟨hempty, hlong, hnext⟩ := (pass_link fuel followLastSymlink h' hcomp h₁ hk' hdepth).2
      (by omega) hneg
    by_cases he : (readLink env root cs' c).2 = []
    · obtain ⟨path, hpass⟩ := hempty he
      refine ⟨_, hrun.trans (forever_done hpass), ?_⟩
      rw [if_pos he]
      exact rfl
    by_cases hl : (join '/' (replaced env root cs' c rest')).length > PATH_MAX
    · obtain ⟨path, hpass⟩ := hlong he hl
      refine ⟨_, hrun.trans (forever_done hpass), ?_⟩
      rw [if_neg he, if_pos hl]
      exact rfl
    rw [if_neg he, if_neg hl] at hfailed ⊢
    obtain ⟨p₂, k₂, h₂, hlinks₂, hpass⟩ := hnext he (not_lt.1 hl)
    have hchecked₂ := hchecked'.expand rest' (readLink env root cs' c).2
    have hne₂ := expand_snd_ne_nil cs' rest' (readLink env root cs' c).2
    split_ifs at hpass with hend
    · -- nothing comes after the target
      refine ⟨_, hrun.trans (forever_done hpass), ?_⟩
      have hfinished : scan env root followLastSymlink [] (replaced env root cs' c rest') = .finished := by
        rw [replaced, hchecked₂.scan_append hne₂, scan_last (Or.inr hend)]
      rw [followAll, hfinished, Comes, replaced, walk_append h₂.canonical, List.nil_append,
        walk_last (Or.inr hend), ← (h₂.depth hne₂).1]
      rfl
    · rw [hrun, forever_next hpass]
      refine ih _ _ p₂ k₂ n' h₂ hne₂ ?_ (by rw [hlinks₂, hlinks₁]) hchecked₂
        (by rw [Nat.add_mul] at hn; omega) hfailed
      rw [h₂.path]
      exact not_lt.1 hl

/-! ## The path with the links replaced -/

/-- The components of a string that starts with `/` and is not too long. -/
structure WellFormed (comps : List (List Char)) : Prop where
  ne_nil : comps ≠ []
  free : ∀ c ∈ comps, '/' ∉ c
  short : (join '/' comps).length ≤ PATH_MAX

theorem scan_link_free (hcs : ∀ d ∈ cs, '/' ∉ d) (hrest : ∀ d ∈ rest, '/' ∉ d)
    (h : scan env root followLastSymlink cs rest = .link cs' x rest') :
    (∀ d ∈ cs', '/' ∉ d) ∧ ∀ d ∈ rest', '/' ∉ d := by
  induction rest generalizing cs with
  | nil => cases h
  | cons c rest ih =>
    have hrest₁ : ∀ d ∈ rest, '/' ∉ d := fun d hd => hrest d (List.mem_cons_of_mem _ hd)
    have hcs₁ : ∀ d ∈ cs ++ [c], '/' ∉ d := fun d hd => by
      obtain hd | hd := List.mem_append.1 hd
      · exact hcs d hd
      · exact List.mem_singleton.1 hd ▸ hrest c List.mem_cons_self
    rw [scan] at h
    split_ifs at h with hskip hup hnil hmount hs
    · exact ih hcs hrest₁ h
    · exact ih (fun d hd => hcs d (List.dropLast_subset cs hd)) hrest₁ h
    · exact ih hcs₁ hrest₁ h
    · dsimp only at h
      split_ifs at h with hneg hlink hdir
      · obtain ⟨rfl, rfl, rfl⟩ := Scan.link.inj h
        exact ⟨hcs, hrest₁⟩
      · exact ih hcs₁ hrest₁ h
    · exact ih hcs₁ hrest₁ h

theorem WellFormed.replaced (h : WellFormed comps)
    (hscan : scan env root followLastSymlink [] comps = .link cs c rest)
    (hr : Replaceable env root cs c rest) : WellFormed (replaced env root cs c rest) := by
  obtain ⟨hcs, hrest⟩ := scan_link_free (fun d hd => absurd hd List.not_mem_nil) h.free hscan
  refine ⟨List.append_ne_nil_of_right_ne_nil _ (expand_snd_ne_nil _ _ _), fun d hd => ?_, hr.2.2⟩
  unfold PathResolution.replaced PathResolution.expand at hd
  split at hd
  · exact free_append_splitOn hrest _ d hd
  · obtain hd | hd := List.mem_append.1 hd
    · exact hcs d hd
    · exact free_append_splitOn hrest _ d hd

/-- Without a link to follow, only the path itself is left. -/
theorem followAll_path {comps' : List (List Char)}
    (hscan : ¬ ∃ cs c rest, scan env root followLastSymlink [] comps = .link cs c rest)
    (hpath : followAll env root followLastSymlink left comps = .path comps') : comps' = comps := by
  rw [followAll] at hpath
  cases hs : scan env root followLastSymlink [] comps with
  | finished =>
    rw [hs] at hpath
    exact (Followed.path.inj hpath).symm
  | link cs c rest => exact absurd ⟨cs, c, rest, hs⟩ hscan
  | _ =>
    rw [hs] at hpath
    cases hpath

theorem WellFormed.followAll (h : WellFormed comps) {comps' : List (List Char)}
    (hpath : followAll env root followLastSymlink left comps = .path comps') : WellFormed comps' := by
  induction left generalizing comps with
  | zero =>
    refine followAll_path ?_ hpath ▸ h
    rintro ⟨cs, c, rest, hs⟩
    rw [PathResolution.followAll, hs] at hpath
    cases hpath
  | succ left ih =>
    by_cases hlink : ∃ cs c rest, scan env root followLastSymlink [] comps = .link cs c rest
    · obtain ⟨cs, c, rest, hs⟩ := hlink
      by_cases hr : Replaceable env root cs c rest
      · rw [followAll_link hs hr] at hpath
        exact ih (h.replaced hs hr) hpath
      · rw [PathResolution.followAll, hs] at hpath
        dsimp only at hpath
        unfold Replaceable at hr
        split_ifs at hpath with hneg hempty hlong
        exact absurd ⟨not_lt.1 hneg, hempty, not_lt.1 hlong⟩ hr
    · exact followAll_path hlink hpath ▸ h

/-- The same filesystems, without symbolic links. -/
def withoutSymlinks (env : Filesystems F) : Filesystems F := { env with supportsSymlinks := fun _ => false }

theorem noSymlinks_withoutSymlinks (env : Filesystems F) : NoSymlinks (withoutSymlinks env) :=
  fun _ _ _ => rfl

theorem walk_withoutSymlinks : walk (withoutSymlinks env) cs rest = walk env cs rest := by
  induction rest generalizing cs with
  | nil => rfl
  | cons c rest ih =>
    rw [walk, walk, ih, ih, ih]
    rfl

theorem Outcome.of_withoutSymlinks {found : Option (List (List Char) × ℕ)} {q : List Char × ResolvedPath F}
    (h : Outcome (withoutSymlinks env) root found q) : Outcome env root found q := by
  cases found <;> exact h

/-- What replacing the links of a path comes to. -/
def replaceLinks (env : Filesystems F) (followLastSymlink : Bool) (path : List Char) : Followed :=
  if path.length > PATH_MAX then .error (-ENAMETOOLONG)
  else
    match env.filesystems ['/'] with
    | none => .error (-ENOENT)
    | some root => followAll env root followLastSymlink maxLinkToFollow.toNat (path.tail.splitOn '/')

/-- How many links have to be replaced, counted up to one more than may be followed. -/
def linksNeeded (env : Filesystems F) (followLastSymlink : Bool) (path : List Char) : ℕ :=
  if path.length > PATH_MAX then 0
  else
    match env.filesystems ['/'] with
    | none => 0
    | some root => expansions env root followLastSymlink (maxLinkToFollow.toNat + 1) (path.tail.splitOn '/')

/-- The result is the error, or that of resolving the path with the links replaced. -/
def Agrees (env : Filesystems F) (fuel : ℕ) (followLastSymlink : Bool) (q : List Char × ResolvedPath F) :
    Followed → Prop
  | .error e => q.2.result = e
  | .failed e => q.2.result = e
  | .path comps => ∃ q₀, (withoutSymlinks env).resolvePath fuel (join '/' comps) followLastSymlink = .ok q₀ ∧
      q.2.result = q₀.2.result ∧ (q₀.2.result = 0 → q = q₀)

theorem Outcome.result {found : Option (List (List Char) × ℕ)} {q : List Char × ResolvedPath F}
    (h : Outcome env root found q) : q.2.result = 0 ∨ q.2.result = -ENOENT := by
  cases found with
  | none =>
    have hq : q.2 = .error (-ENOENT) := h
    exact Or.inr (by rw [hq]; rfl)
  | some found =>
    obtain rfl : q = resolved env root found.1 found.2 := h
    exact Or.inl rfl

/-- Two resolutions with one outcome. -/
theorem Outcome.eq {found : Option (List (List Char) × ℕ)} {q q₀ : List Char × ResolvedPath F}
    (h : Outcome env root found q) (h₀ : Outcome env root found q₀) :
    q.2.result = q₀.2.result ∧ (q₀.2.result = 0 → q = q₀) := by
  cases found with
  | none =>
    have hq : q.2 = .error (-ENOENT) := h
    have hq₀ : q₀.2 = .error (-ENOENT) := h₀
    rw [hq, hq₀]
    exact ⟨rfl, fun hr => absurd hr (by simp [ResolvedPath.error, ENOENT])⟩
  | some found =>
    have hq : q = resolved env root found.1 found.2 := h
    have hq₀ : q₀ = resolved env root found.1 found.2 := h₀
    exact ⟨by rw [hq, hq₀], fun _ => hq.trans hq₀.symm⟩

/-- Resolution without links, of the components of a path. -/
theorem resolvePath_withoutSymlinks (hroot : env.filesystems ['/'] = some root) (h : WellFormed comps)
    (fuel : ℕ) (hfuel : PATH_MAX < fuel) (followLastSymlink : Bool) :
    ∃ q₀, (withoutSymlinks env).resolvePath fuel (join '/' comps) followLastSymlink = .ok q₀ ∧
      Outcome env root (walk env [] comps) q₀ := by
  obtain ⟨c, rest, rfl⟩ := List.exists_cons_of_ne_nil h.ne_nil
  have hsplit : (c ++ join '/' rest).splitOn '/' = c :: rest := splitOn_append_join h.free
  have hlen := h.short
  rw [join_cons] at hlen ⊢
  obtain ⟨q₀, hrun, hq₀⟩ := resolvePath_walk fuel followLastSymlink (noSymlinks_withoutSymlinks env) hroot
    hlen (hlen.trans_lt hfuel)
  rw [hsplit, walk_withoutSymlinks] at hq₀
  exact ⟨q₀, hrun, hq₀.of_withoutSymlinks⟩

theorem Comes.agrees {S : Followed} {q : List Char × ResolvedPath F} (h : Comes env root q S)
    (hroot : env.filesystems ['/'] = some root) (hwf : ∀ comps, S = .path comps → WellFormed comps)
    (hfailed : ∀ e, S ≠ .failed e) (fuel : ℕ) (hfuel : PATH_MAX < fuel) (followLastSymlink : Bool) :
    Agrees env fuel followLastSymlink q S := by
  cases S with
  | error e => exact h
  | failed e => exact absurd rfl (hfailed e)
  | path comps =>
    obtain ⟨q₀, hrun, hq₀⟩ := resolvePath_withoutSymlinks hroot (hwf comps rfl) fuel hfuel followLastSymlink
    exact ⟨q₀, hrun, Outcome.eq h hq₀⟩

/-- A result of `-ELOOP` only agrees with too many links. -/
theorem Agrees.loop {S : Followed} {q : List Char × ResolvedPath F} {fuel : ℕ}
    (h : Agrees env fuel followLastSymlink q S) (hq : q.2.result = -ELOOP)
    (hroot : env.filesystems ['/'] = some root) (hwf : ∀ comps, S = .path comps → WellFormed comps)
    (hfailed : ∀ e, S ≠ .failed e) (hfuel : PATH_MAX < fuel) : S = .error (-ELOOP) := by
  cases S with
  | error e =>
    have he : q.2.result = e := h
    rw [← he, hq]
  | failed e => exact absurd rfl (hfailed e)
  | path comps =>
    obtain ⟨q₀, hrun, hq₀⟩ := resolvePath_withoutSymlinks hroot (hwf comps rfl) fuel hfuel followLastSymlink
    obtain ⟨q₁, hrun₁, hres, -⟩ := h
    obtain rfl : q₀ = q₁ := Except.ok.inj (hrun.symm.trans hrun₁)
    have hzero := hq₀.result
    rw [← hres, hq] at hzero
    simp [ELOOP, ENOENT] at hzero

/-- With one more link that may be followed, a call that fails still does. -/
theorem followAll_succ_failed {e : ℤ} (h : followAll env root followLastSymlink left comps = .failed e) :
    followAll env root followLastSymlink (left + 1) comps = .failed e := by
  have hne : expansions env root followLastSymlink (left + 1) comps ≠ left + 1 := fun hn => by
    rw [followAll_loop_iff.2 hn] at h
    cases h
  have hle : expansions env root followLastSymlink (left + 1) comps ≤ left + 1 := expansions_le _ _
  rw [followAll_succ_of_le (by omega), h]

/-- The code replaces at most one link. -/
theorem resolvePath_followAll (hroot : env.filesystems ['/'] = some root) {t : List Char}
    (hlen : ('/' :: t).length ≤ PATH_MAX) (fuel : ℕ) (hfuel : enoughFuel ≤ fuel) (followLastSymlink : Bool)
    (hfailed : ∀ e, followAll env root followLastSymlink 1 (t.splitOn '/') ≠ .failed e) :
    ∃ q, env.resolvePath fuel ('/' :: t) followLastSymlink = .ok q ∧
      Comes env root q (followAll env root followLastSymlink 1 (t.splitOn '/')) := by
  unfold enoughFuel at hfuel
  have hrun := forever_followAll fuel followLastSymlink (by omega) 1 [] (t.splitOn '/') _ 0 fuel
    (at_start env root t) (List.splitOn_ne_nil _ _) hlen rfl checked_nil (by omega) hfailed
  rw [Filesystems.resolvePath, if_neg (not_lt.2 hlen), if_neg (by simp), resolvePath, hroot]
  exact hrun

/-- **Symbolic links**: as long as `lstat` and `readlink` do not fail, resolution does what replacing the links
says, unless there are as many links as may be followed. -/
theorem resolvePath_links (env : Filesystems F) (t : List Char) (followLastSymlink : Bool) (fuel : ℕ)
    (hfuel : enoughFuel ≤ fuel) : ∃ q, env.resolvePath fuel ('/' :: t) followLastSymlink = .ok q ∧
      ((∀ e, replaceLinks env followLastSymlink ('/' :: t) ≠ .failed e) →
        (Agrees env fuel followLastSymlink q (replaceLinks env followLastSymlink ('/' :: t)) ↔
          linksNeeded env followLastSymlink ('/' :: t) ≠ maxLinkToFollow.toNat)) := by
  have hlt : PATH_MAX < fuel := by
    unfold enoughFuel at hfuel
    omega
  by_cases hlong : ('/' :: t).length > PATH_MAX
  · refine ⟨('/' :: t, .error (-ENAMETOOLONG)), by simp only [Filesystems.resolvePath, if_pos hlong],
      fun _ => ?_⟩
    rw [replaceLinks, linksNeeded, if_pos hlong, if_pos hlong]
    exact ⟨fun _ => by decide, fun _ => rfl⟩
  cases hroot : env.filesystems ['/'] with
  | none =>
    refine ⟨('/' :: t, .error (-ENOENT)), ?_, fun _ => ?_⟩
    · rw [Filesystems.resolvePath, if_neg hlong, if_neg (by simp), resolvePath, hroot]
    · simp only [replaceLinks, linksNeeded, if_neg hlong, hroot]
      exact ⟨fun _ => by decide, fun _ => rfl⟩
  | some root =>
    have hshort : (join '/' (t.splitOn '/')).length ≤ PATH_MAX := by
      rw [join_splitOn]
      exact not_lt.1 hlong
    have hwf : WellFormed (t.splitOn '/') :=
      ⟨List.splitOn_ne_nil _ _, fun c hc => notMem_of_mem_splitOn hc, hshort⟩
    have hreplace : replaceLinks env followLastSymlink ('/' :: t) =
        followAll env root followLastSymlink 2 (t.splitOn '/') := by
      simp only [replaceLinks, if_neg hlong, hroot]
      rfl
    have hneeded : linksNeeded env followLastSymlink ('/' :: t) =
        expansions env root followLastSymlink 3 (t.splitOn '/') := by
      simp only [linksNeeded, if_neg hlong, hroot]
      rfl
    rw [hreplace, hneeded]
    by_cases hfailed : ∃ e, followAll env root followLastSymlink 2 (t.splitOn '/') = .failed e
    · obtain ⟨e, he⟩ := hfailed
      obtain ⟨q, hrun, -⟩ := resolvePath_total env ('/' :: t) fuel hfuel followLastSymlink
      exact ⟨q, hrun, fun hno => absurd he (hno e)⟩
    push Not at hfailed
    have hwf₂ : ∀ comps, followAll env root followLastSymlink 2 (t.splitOn '/') = .path comps →
        WellFormed comps := fun comps hpath => hwf.followAll hpath
    -- the code follows one link less than it says
    obtain ⟨q, hrun, hq⟩ := resolvePath_followAll hroot (not_lt.1 hlong) fuel hfuel followLastSymlink
      fun e he => hfailed e (followAll_succ_failed he)
    refine ⟨q, hrun, fun _ => ?_⟩
    have hle : expansions env root followLastSymlink 3 (t.splitOn '/') ≤ 3 := expansions_le _ _
    have hmin : expansions env root followLastSymlink 2 (t.splitOn '/') =
        min 2 (expansions env root followLastSymlink 3 (t.splitOn '/')) := expansions_eq_min _ _
    change _ ↔ _ ≠ 2
    by_cases hloop : expansions env root followLastSymlink 2 (t.splitOn '/') = 2
    · have hres : q.2.result = -ELOOP := by
        rw [followAll_loop_iff.2 hloop] at hq
        exact hq
      constructor
      · intro hagrees
        rw [followAll_loop_iff.1 (hagrees.loop hres hroot hwf₂ hfailed hlt)]
        decide
      · intro hne
        have hthree : expansions env root followLastSymlink 3 (t.splitOn '/') = 3 := by omega
        rw [followAll_loop_iff.2 hthree]
        exact hres
    · have hone : expansions env root followLastSymlink 2 (t.splitOn '/') ≤ 1 := by omega
      rw [← followAll_succ_of_le hone] at hq
      exact ⟨fun _ => by omega, fun _ => hq.agrees hroot hwf₂ hfailed fuel hlt followLastSymlink⟩

/-- A filesystem with a link `a` to a link `b` to a file `c`, and nothing else. -/
def linkToLink : Filesystems Unit where
  filesystems s := if s = "/".toList then some () else none
  supportsSymlinks _ := true
  lstat _ path :=
    if path = "a".toList ∨ path = "b".toList then (0, .link)
    else if path = "c".toList then (0, .other) else (-ENOENT, .other)
  readlink _ path := if path = "a".toList then (0, "b".toList) else (0, "c".toList)

theorem resolvePath_links_one : ∃ q, linkToLink.resolvePath enoughFuel "/b".toList true = .ok q ∧
    Agrees linkToLink enoughFuel true q (.path ["c".toList]) := by
  obtain ⟨q, hrun, hiff⟩ := resolvePath_links linkToLink ['b'] true enoughFuel le_rfl
  have hreplace : replaceLinks linkToLink true ['/', 'b'] = .path ["c".toList] := by rfl
  rw [hreplace] at hiff
  exact ⟨q, hrun, (hiff nofun).2 (by decide)⟩

/-- The error of `lstat` for `/d` is not returned, and the two links at `/a` are too many. -/
theorem resolvePath_links_differ :
    (replaceLinks linkToLink true "/d".toList = .failed (-ENOENT) ∧
      ∃ q, linkToLink.resolvePath enoughFuel "/d".toList true = .ok q ∧ q.2.result = 0) ∧
    (replaceLinks linkToLink true "/a".toList = .path ["c".toList] ∧
      linksNeeded linkToLink true "/a".toList = 2 ∧
      ∃ q, linkToLink.resolvePath enoughFuel "/a".toList true = .ok q ∧ q.2.result = -ELOOP) :=
  ⟨⟨by rfl, _, by rfl, by rfl⟩, by rfl, by decide, _, by rfl, by rfl⟩

end PathResolution

end Miosix
