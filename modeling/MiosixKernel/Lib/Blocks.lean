import Mathlib.Data.List.Range
import Mathlib.Data.List.Perm.Basic
import Mathlib.Logic.Function.Basic

/-!
# Allocated blocks

Blocks are numbered in the order of their allocation.

* `Blocks`: each block has one owner or was freed once;
* `Blocks.alloc`, `Blocks.free`: one owner gets a block, or frees it;
* **`Blocks.freed_perm`**: without owners, each block was freed once.
-/

namespace Lib

variable {O : Type} {owned : O → Option ℕ} {next b : ℕ} {freed : List ℕ} {o o' : O}

/-- The blocks below `next` were allocated: each has one owner or was freed once. -/
structure Blocks (owned : O → Option ℕ) (next : ℕ) (freed : List ℕ) : Prop where
  unique : ∀ {o o' b}, owned o = some b → owned o' = some b → o = o'
  nodup : freed.Nodup
  notMem : ∀ {o b}, owned o = some b → b ∉ freed
  lt_iff : ∀ {b}, b < next ↔ b ∈ freed ∨ ∃ o, owned o = some b

namespace Blocks

theorem empty : Blocks (fun _ : O => none) 0 [] := ⟨nofun, List.nodup_nil, nofun, by simp⟩

theorem owned_lt (h : Blocks owned next freed) (ho : owned o = some b) : b < next := h.lt_iff.2 (.inr ⟨o, ho⟩)

theorem owned_ne_next (h : Blocks owned next freed) (o : O) : owned o ≠ some next := fun ho =>
  (h.owned_lt ho).ne rfl

theorem next_notMem (h : Blocks owned next freed) : next ∉ freed := fun hmem => (h.lt_iff.2 (.inl hmem)).ne rfl

/-- Without owners, each block was freed once. -/
theorem freed_perm (h : Blocks owned next freed) (hnone : ∀ o, owned o = none) : freed.Perm (List.range next) := by
  refine (List.perm_ext_iff_of_nodup h.nodup List.nodup_range).2 fun b => ?_
  rw [List.mem_range, h.lt_iff]
  simp [hnone]

variable [DecidableEq O]

theorem alloc (h : Blocks owned next freed) (ho : owned o = none) :
    Blocks (Function.update owned o (some next)) (next + 1) freed where
  unique := by
    intro p q b hp hq
    rw [Function.update_apply] at hp hq
    split_ifs at hp hq with hpo hqo hqo
    · exact hpo.trans hqo.symm
    · exact absurd (hq.trans hp.symm) (h.owned_ne_next q)
    · exact absurd (hp.trans hq.symm) (h.owned_ne_next p)
    · exact h.unique hp hq
  nodup := h.nodup
  notMem := by
    intro p b hp
    rw [Function.update_apply] at hp
    split_ifs at hp
    · cases hp
      exact h.next_notMem
    · exact h.notMem hp
  lt_iff := by
    intro b
    rw [Nat.lt_succ_iff_lt_or_eq, h.lt_iff]
    constructor
    · rintro ((hb | ⟨p, hp⟩) | rfl)
      · exact .inl hb
      · refine .inr ⟨p, ?_⟩
        rw [Function.update_of_ne, hp]
        rintro rfl
        exact absurd (ho.symm.trans hp) nofun
      · exact .inr ⟨o, Function.update_self ..⟩
    · rintro (hb | ⟨p, hp⟩)
      · exact .inl (.inl hb)
      · rw [Function.update_apply] at hp
        split_ifs at hp
        · exact .inr (Option.some.inj hp).symm
        · exact .inl (.inr ⟨p, hp⟩)

theorem free (h : Blocks owned next freed) (ho : owned o = some b) :
    Blocks (Function.update owned o none) next (b :: freed) where
  unique := by
    intro p q c hp hq
    rw [Function.update_apply] at hp hq
    split_ifs at hp hq
    exact h.unique hp hq
  nodup := List.nodup_cons.2 ⟨h.notMem ho, h.nodup⟩
  notMem := by
    intro p c hp
    rw [Function.update_apply] at hp
    split_ifs at hp with hpo
    rw [List.mem_cons]
    rintro (rfl | hc)
    · exact hpo (h.unique hp ho)
    · exact h.notMem hp hc
  lt_iff := by
    intro c
    rw [h.lt_iff, List.mem_cons]
    constructor
    · rintro (hc | ⟨p, hp⟩)
      · exact .inl (.inr hc)
      · by_cases hpo : p = o
        · exact .inl (.inl (Option.some.inj (hp.symm.trans (hpo ▸ ho))))
        · exact .inr ⟨p, by rw [Function.update_of_ne hpo, hp]⟩
    · rintro ((rfl | hc) | ⟨p, hp⟩)
      · exact .inr ⟨o, ho⟩
      · exact .inl hc
      · rw [Function.update_apply] at hp
        split_ifs at hp
        exact .inr ⟨p, hp⟩

end Blocks

end Lib
