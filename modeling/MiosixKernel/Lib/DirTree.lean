import Mathlib.Data.List.Basic
import Mathlib.Data.List.Infix
import Mathlib.Order.Basic

/-!
# Directory trees

A tree of directories and files, given by their paths from the root.

* `DirTree`: what contains a file or a directory is a directory;
* `mkdir`, `remove`, `rename`: the operations, which fail where they would leave something that is not a tree;
* `mem_dirs_mkdir`, `mem_dirs_remove`, `mem_dirs_rename`: the directories that an operation keeps.
-/

namespace Lib

structure DirTree (N : Type) where
  dirs : List (List N)
  files : List (List N)
  root : [] ∈ dirs
  parent : ∀ p c, p ++ [c] ∈ dirs ∨ p ++ [c] ∈ files → p ∈ dirs
  disjoint : ∀ p ∈ dirs, p ∉ files

namespace DirTree

variable {N : Type} {t t' : DirTree N} {p q r : List N}

/-- Only the root. -/
def empty : DirTree N where
  dirs := [[]]
  files := []
  root := List.mem_singleton_self _
  parent p c h := by simp at h
  disjoint _ _ := List.not_mem_nil

/-- Nothing is below `p`. -/
def Childless (t : DirTree N) (p : List N) : Prop := ∀ r ∈ t.dirs ++ t.files, p <+: r → r = p

variable [DecidableEq N]

instance (t : DirTree N) (p : List N) : Decidable (t.Childless p) := by
  unfold Childless
  infer_instance

def mkdir (t : DirTree N) (p : List N) : Option (DirTree N) :=
  if h : p ≠ [] ∧ p.dropLast ∈ t.dirs ∧ p ∉ t.dirs ∧ p ∉ t.files then
    some {
      dirs := p :: t.dirs
      files := t.files
      root := List.mem_cons_of_mem _ t.root
      parent := by
        rintro r c (hr | hr)
        · obtain heq | hr := List.mem_cons.1 hr
          · have hdir := h.2.1
            rw [← heq, List.dropLast_concat] at hdir
            exact List.mem_cons_of_mem _ hdir
          · exact List.mem_cons_of_mem _ (t.parent r c (Or.inl hr))
        · exact List.mem_cons_of_mem _ (t.parent r c (Or.inr hr))
      disjoint := by
        intro r hr
        obtain rfl | hr := List.mem_cons.1 hr
        · exact h.2.2.2
        · exact t.disjoint r hr }
  else none

/-- Remove a file or an empty directory. -/
def remove (t : DirTree N) (p : List N) : Option (DirTree N) :=
  if h : p ≠ [] ∧ (p ∈ t.dirs ∨ p ∈ t.files) ∧ t.Childless p then
    some {
      dirs := t.dirs.filter (· ≠ p)
      files := t.files.filter (· ≠ p)
      root := List.mem_filter.2 ⟨t.root, by simpa using h.1.symm⟩
      parent := by
        intro r c hr
        have hin : r ++ [c] ∈ t.dirs ∨ r ++ [c] ∈ t.files :=
          hr.imp (fun h => (List.mem_filter.1 h).1) fun h => (List.mem_filter.1 h).1
        refine List.mem_filter.2 ⟨t.parent r c hin, ?_⟩
        simp only [ne_eq, decide_eq_true_eq]
        rintro rfl
        have := h.2.2 _ (List.mem_append.2 hin) (List.prefix_append _ _)
        simp at this
      disjoint := fun r hr hr' => t.disjoint r (List.mem_filter.1 hr).1 (List.mem_filter.1 hr').1 }
  else none

def rmdir (t : DirTree N) (p : List N) : Option (DirTree N) := if p ∈ t.dirs then t.remove p else none

/-- Where a path is after `p` was moved to `q`. -/
def move (p q r : List N) : List N := if p <+: r then q ++ r.drop p.length else r

theorem move_append (p q s : List N) : move p q (p ++ s) = q ++ s := by
  rw [move, if_pos (List.prefix_append _ _), List.drop_left]

theorem move_of_not (h : ¬ p <+: r) : move p q r = r := if_neg h

/-- `p` can be moved to `q`: it is not moved into itself, and what it replaces is of its kind and empty. -/
structure Movable (t : DirTree N) (p q : List N) : Prop where
  ne_nil : p ≠ []
  mem : p ∈ t.dirs ∨ p ∈ t.files
  target_ne_nil : q ≠ []
  parent : q.dropLast ∈ t.dirs
  outside : ¬ p <+: q
  childless : t.Childless q
  kind : (q ∈ t.dirs → p ∈ t.dirs) ∧ (q ∈ t.files → p ∈ t.files)

instance (t : DirTree N) (p q : List N) : Decidable (t.Movable p q) :=
  decidable_of_iff (p ≠ [] ∧ (p ∈ t.dirs ∨ p ∈ t.files) ∧ q ≠ [] ∧ q.dropLast ∈ t.dirs ∧ ¬ p <+: q ∧
    t.Childless q ∧ (q ∈ t.dirs → p ∈ t.dirs) ∧ (q ∈ t.files → p ∈ t.files))
    ⟨fun ⟨h1, h2, h3, h4, h5, h6, h7⟩ => ⟨h1, h2, h3, h4, h5, h6, h7⟩,
      fun ⟨h1, h2, h3, h4, h5, h6, h7⟩ => ⟨h1, h2, h3, h4, h5, h6, h7⟩⟩

/-- The paths, without what is replaced. -/
def moved (p q : List N) (l : List (List N)) : List (List N) := (l.filter (· ≠ q)).map (move p q)

theorem mem_moved {l : List (List N)} (hr : r ∈ l) (hp : ¬ p <+: r) (hq : r ≠ q) : r ∈ moved p q l :=
  List.mem_map.2 ⟨r, List.mem_filter.2 ⟨hr, by simpa using hq⟩, move_of_not hp⟩

theorem mem_moved_below {l : List (List N)} {s : List N} (hout : ¬ p <+: q) (hr : p ++ s ∈ l) :
    q ++ s ∈ moved p q l := by
  refine List.mem_map.2 ⟨p ++ s, List.mem_filter.2 ⟨hr, ?_⟩, move_append p q s⟩
  simp only [ne_eq, decide_eq_true_eq]
  intro heq
  exact hout ⟨s, heq⟩

/-- A path comes from below `p`, or was not moved. -/
theorem of_mem_moved {l : List (List N)} (hr : r ∈ moved p q l) :
    (∃ s, r = q ++ s ∧ p ++ s ∈ l) ∨ r ∈ l ∧ r ≠ q ∧ ¬ p <+: r := by
  obtain ⟨r, hmem, rfl⟩ := List.mem_map.1 hr
  obtain ⟨hmem, hne⟩ := List.mem_filter.1 hmem
  by_cases hp : p <+: r
  · obtain ⟨s, rfl⟩ := hp
    exact Or.inl ⟨s, move_append p q s, hmem⟩
  · rw [move_of_not hp]
    exact Or.inr ⟨hmem, by simpa using hne, hp⟩

theorem Movable.parent_moved (h : t.Movable p q) {c : N} {l : List (List N)} (hsub : l ⊆ t.dirs ++ t.files)
    (hr : r ++ [c] ∈ moved p q l) : r ∈ moved p q t.dirs := by
  obtain ⟨s, heq, hs⟩ | ⟨hmem, hne, hp⟩ := of_mem_moved hr
  · obtain rfl | ⟨s, d, rfl⟩ := List.eq_nil_or_concat' s
    · rw [List.append_nil] at heq
      have hdir := h.parent
      rw [← heq, List.dropLast_concat] at hdir
      refine mem_moved hdir (fun hp => h.outside ?_) ?_
      · exact heq ▸ hp.trans (List.prefix_append _ _)
      · rintro rfl
        simp at heq
    · rw [← List.append_assoc] at heq hs
      obtain ⟨rfl, -⟩ := List.append_inj' heq rfl
      exact mem_moved_below h.outside (t.parent _ d (List.mem_append.1 (hsub hs)))
  · have hdir := t.parent r c (List.mem_append.1 (hsub hmem))
    refine mem_moved hdir (fun hpr => hp (hpr.trans (List.prefix_append _ _))) ?_
    rintro rfl
    exact hne (h.childless _ (hsub hmem) (List.prefix_append _ _))

theorem Movable.disjoint_moved (h : t.Movable p q) (hr : r ∈ moved p q t.dirs) : r ∉ moved p q t.files := by
  intro hr'
  have hbelow : ∀ {s}, r = q ++ s → r ∈ t.dirs ++ t.files → r ≠ q → False := fun heq hmem hne =>
    hne (h.childless r hmem ⟨_, heq.symm⟩)
  obtain ⟨s, heq, hs⟩ | ⟨hmem, hne, hp⟩ := of_mem_moved hr
  · obtain ⟨s', heq', hs'⟩ | ⟨hmem', hne', -⟩ := of_mem_moved hr'
    · obtain rfl := List.append_cancel_left (heq.symm.trans heq')
      exact t.disjoint _ hs hs'
    · exact hbelow heq (List.mem_append_right _ hmem') hne'
  · obtain ⟨s', heq', -⟩ | ⟨hmem', -, -⟩ := of_mem_moved hr'
    · exact hbelow heq' (List.mem_append_left _ hmem) hne
    · exact t.disjoint _ hmem hmem'

def rename (t : DirTree N) (p q : List N) : Option (DirTree N) :=
  if h : t.Movable p q then
    some {
      dirs := moved p q t.dirs
      files := moved p q t.files
      root := mem_moved t.root (fun hp => h.ne_nil (List.prefix_nil.1 hp)) h.target_ne_nil.symm
      parent := fun _ _ hr => hr.elim (h.parent_moved (List.subset_append_left _ _))
        (h.parent_moved (List.subset_append_right _ _))
      disjoint := fun _ => h.disjoint_moved }
  else none

theorem mem_dirs_mkdir (h : t.mkdir p = some t') (hq : q ∈ t.dirs) : q ∈ t'.dirs := by
  unfold mkdir at h
  split_ifs at h
  obtain rfl := Option.some.inj h
  exact List.mem_cons_of_mem _ hq

theorem mem_dirs_remove (h : t.remove p = some t') (hq : q ∈ t.dirs) (hne : q ≠ p) : q ∈ t'.dirs := by
  unfold remove at h
  split_ifs at h
  obtain rfl := Option.some.inj h
  exact List.mem_filter.2 ⟨hq, by simpa using hne⟩

theorem mem_dirs_rename (h : t.rename p q = some t') (hr : r ∈ t.dirs) (hp : ¬ p <+: r) (hq : r ≠ q) :
    r ∈ t'.dirs := by
  unfold rename at h
  split_ifs at h with hm
  obtain rfl := Option.some.inj h
  exact mem_moved hr hp hq

end DirTree

end Lib
