import Mathlib.Data.List.Infix
import Mathlib.Data.List.Basic

/-!
# Strings of components

A string in which each component stands after a separator, as `/dir/file`.

* `join`: the string of some components;
* `join_splitOn`: every string that starts with a separator has components;
* `isPrefix_iff_join`: which string goes on after another one with more components;
* `findFirstOf`, `findLastOf`, `erase`: operations on strings by index.
-/

namespace Lib

variable {α : Type} {sep : α} {cs ds : List (List α)} {c d s t : List α}

/-- The components, each after a separator. -/
def join (sep : α) (cs : List (List α)) : List α := cs.flatMap (sep :: ·)

@[simp] theorem join_nil : join sep [] = [] := rfl

@[simp] theorem join_cons : join sep (c :: cs) = sep :: (c ++ join sep cs) := by simp [join]

@[simp] theorem join_append : join sep (cs ++ ds) = join sep cs ++ join sep ds := by simp [join]

theorem join_eq_nil_iff : join sep cs = [] ↔ cs = [] := by cases cs <;> simp

theorem length_le_length_join (sep : α) (cs : List (List α)) : cs.length ≤ (join sep cs).length := by
  induction cs with
  | nil => exact le_rfl
  | cons c cs ih =>
    simp only [join_cons, List.length_cons, List.length_append]
    omega

theorem join_cases (sep : α) (cs : List (List α)) :
    join sep cs = [] ∨ ∃ t, join sep cs = sep :: t := by
  cases cs with
  | nil => exact Or.inl rfl
  | cons c cs => exact Or.inr ⟨_, join_cons⟩

/-- The separators tell where a component ends. -/
theorem append_join_cancel (hc : sep ∉ c) (hd : sep ∉ d) (h : c ++ join sep cs = d ++ join sep ds) :
    c = d ∧ join sep cs = join sep ds := by
  induction c generalizing d with
  | nil =>
    cases d with
    | nil => exact ⟨rfl, h⟩
    | cons x d =>
      obtain hcs | ⟨t, hcs⟩ := join_cases sep cs
      · simp [hcs] at h
      · obtain rfl : sep = x := by simpa [hcs] using congrArg List.head? h
        exact absurd List.mem_cons_self hd
  | cons x c ih =>
    cases d with
    | nil =>
      obtain hds | ⟨t, hds⟩ := join_cases sep ds
      · simp [hds] at h
      · obtain rfl : x = sep := by simpa [hds] using congrArg List.head? h
        exact absurd List.mem_cons_self hc
    | cons y d =>
      obtain ⟨rfl, htail⟩ := List.cons.inj h
      obtain ⟨rfl, hrest⟩ := ih (fun hm => hc (List.mem_cons_of_mem _ hm))
        (fun hm => hd (List.mem_cons_of_mem _ hm)) htail
      exact ⟨rfl, hrest⟩

theorem singleton_isPrefix_join (h : cs ≠ []) : [sep] <+: join sep cs := by
  obtain ⟨c, cs, rfl⟩ := List.exists_cons_of_ne_nil h
  exact ⟨c ++ join sep cs, by rw [join_cons, List.singleton_append]⟩

theorem join_injective (hcs : ∀ c ∈ cs, sep ∉ c) (hds : ∀ c ∈ ds, sep ∉ c)
    (h : join sep cs = join sep ds) : cs = ds := by
  induction cs generalizing ds with
  | nil => exact (join_eq_nil_iff.1 h.symm).symm
  | cons c cs ih =>
    cases ds with
    | nil => simp at h
    | cons d ds =>
      rw [join_cons, join_cons] at h
      obtain ⟨rfl, hrest⟩ :=
        append_join_cancel (hcs c List.mem_cons_self) (hds d List.mem_cons_self) (List.cons.inj h).2
      rw [ih (fun x hx => hcs x (List.mem_cons_of_mem _ hx))
        (fun x hx => hds x (List.mem_cons_of_mem _ hx)) hrest]

section Split

variable [BEq α] [LawfulBEq α]

theorem join_splitOn (sep : α) (s : List α) : join sep (s.splitOn sep) = sep :: s := by
  induction s with
  | nil => simp [List.splitOn_nil]
  | cons x s ih =>
    rw [List.splitOn_cons_eq_if_modifyHead]
    obtain ⟨c, cs, hs⟩ := List.exists_cons_of_ne_nil (List.splitOn_ne_nil sep s)
    rw [hs, join_cons] at ih
    split_ifs with hx
    · rw [beq_iff_eq] at hx
      rw [join_cons, hs, join_cons, ih, hx, List.nil_append]
    · rw [hs, List.modifyHead_cons, join_cons, List.cons_append, (List.cons.inj ih).2]

theorem notMem_of_mem_splitOn (hc : c ∈ s.splitOn sep) : sep ∉ c := by
  induction s generalizing c with
  | nil =>
    obtain rfl : c = [] := by simpa [List.splitOn_nil] using hc
    exact List.not_mem_nil
  | cons x s ih =>
    rw [List.splitOn_cons_eq_if_modifyHead] at hc
    obtain ⟨e, es, hs⟩ := List.exists_cons_of_ne_nil (List.splitOn_ne_nil sep s)
    rw [hs] at hc ih
    split_ifs at hc with hx
    · obtain rfl | hc := List.mem_cons.1 hc
      · exact List.not_mem_nil
      · exact ih hc
    · rw [List.modifyHead_cons] at hc
      obtain rfl | hc := List.mem_cons.1 hc
      · intro hmem
        obtain rfl | hmem := List.mem_cons.1 hmem
        · exact hx (beq_self_eq_true sep)
        · exact ih List.mem_cons_self hmem
      · exact ih (List.mem_cons_of_mem _ hc)

theorem splitOn_append_join (h : ∀ d ∈ c :: cs, sep ∉ d) : (c ++ join sep cs).splitOn sep = c :: cs := by
  refine join_injective (fun d hd => notMem_of_mem_splitOn hd) h ?_
  rw [join_splitOn, join_cons]

/-- A string goes on after another one with more components if a separator stands there. -/
theorem isPrefix_iff_join (hcs : ∀ c ∈ cs, sep ∉ c) (hds : ∀ c ∈ ds, sep ∉ c) :
    cs <+: ds ↔ ∃ t, join sep ds = join sep cs ++ t ∧ (t = [] ∨ t.head? = some sep) := by
  constructor
  · rintro ⟨es, rfl⟩
    refine ⟨join sep es, join_append, ?_⟩
    obtain hes | ⟨t, hes⟩ := join_cases sep es
    · exact Or.inl hes
    · exact Or.inr (by rw [hes, List.head?_cons])
  · rintro ⟨t, ht, rfl | hsep⟩
    · rw [List.append_nil] at ht
      rw [join_injective hds hcs ht]
    · obtain ⟨t, rfl⟩ : ∃ t', t = sep :: t' := by
        cases t with
        | nil => cases hsep
        | cons x t => exact ⟨t, by rw [Option.some.inj hsep]⟩
      rw [← join_splitOn, ← join_append] at ht
      refine ⟨t.splitOn sep, (join_injective hds (fun c hc => ?_) ht).symm⟩
      obtain hc | hc := List.mem_append.1 hc
      · exact hcs c hc
      · exact notMem_of_mem_splitOn hc

theorem splitOn_isPrefix_iff {s t : List α} : s.splitOn sep <+: t.splitOn sep ↔
    ∃ u, t = s ++ u ∧ (u = [] ∨ u.head? = some sep) := by
  rw [isPrefix_iff_join (fun c hc => notMem_of_mem_splitOn hc) fun c hc => notMem_of_mem_splitOn hc,
    join_splitOn, join_splitOn]
  simp

end Split

/-! ## Strings by index -/

section Index

variable [DecidableEq α]

/-- The first index of a character from a position on. -/
def findFirstOf (s : List α) (x : α) (pos : ℕ) : Option ℕ :=
  ((s.drop pos).findIdx? (· == x)).map (pos + ·)

/-- The last index of a character up to a position. -/
def findLastOf (s : List α) (x : α) (pos : ℕ) : Option ℕ :=
  ((s.take (pos + 1)).reverse.findIdx? (· == x)).map ((s.take (pos + 1)).length - 1 - ·)

theorem findFirstOf_append (hc : sep ∉ c) :
    findFirstOf (s ++ c ++ sep :: t) sep s.length = some (s.length + c.length) := by
  have hnone : c.findIdx? (· == sep) = none := by
    rw [List.findIdx?_eq_none_iff]
    intro x hx
    rw [beq_eq_false_iff_ne]
    rintro rfl
    exact hc hx
  rw [findFirstOf, List.append_assoc, List.drop_left, List.findIdx?_append, hnone]
  simp [List.findIdx?_cons]

theorem findFirstOf_eq_none (hc : sep ∉ c) : findFirstOf (s ++ c) sep s.length = none := by
  rw [findFirstOf, List.drop_left, Option.map_eq_none_iff, List.findIdx?_eq_none_iff]
  intro x hx
  rw [beq_eq_false_iff_ne]
  rintro rfl
  exact hc hx

theorem findLastOf_of_take {pos : ℕ} (hc : sep ∉ c) (h : s.take (pos + 1) = t ++ sep :: c) :
    findLastOf s sep pos = some t.length := by
  have hnone : c.reverse.findIdx? (· == sep) = none := by
    rw [List.findIdx?_eq_none_iff]
    intro x hx
    rw [beq_eq_false_iff_ne]
    rintro rfl
    exact hc (List.mem_reverse.1 hx)
  rw [findLastOf, h, List.reverse_append, List.reverse_cons, List.append_assoc, List.findIdx?_append,
    hnone]
  simp [List.findIdx?_cons]

end Index

/-- Remove at most `n` characters from a position on, which must not be beyond the end. -/
def erase (s : List α) (pos n : ℕ) : Option (List α) :=
  if pos ≤ s.length then some (s.take pos ++ s.drop (pos + n)) else none

theorem erase_append (s c t : List α) : erase (s ++ c ++ t) s.length c.length = some (s ++ t) := by
  have hle : s.length ≤ (s ++ c ++ t).length := by
    simp only [List.length_append]
    omega
  rw [erase, if_pos hle, List.append_assoc, List.take_left, ← List.append_assoc, ← List.length_append,
    List.drop_left]

theorem erase_append_end {n : ℕ} (s c : List α) (hn : c.length ≤ n) :
    erase (s ++ c) s.length n = some s := by
  rw [erase, if_pos (by simp), List.take_left, List.drop_of_length_le (by simp; omega), List.append_nil]

end Lib
