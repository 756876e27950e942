import MiosixKernel.Lib.Reach
import Mathlib.Order.Bounds.Basic

/-!
# Inherited levels

Every element has a level of its own, and lends its level to the elements that it waits for.

* `offers`, `LevelsExact`: the level of an element is the greatest of its own and of those that wait for it;
* **`LevelsExact.recompute`**: the level of an element that does not wait is computed again;
* `LevelsExact.wait`, **`LevelsExact.lend`**: an element begins to wait, and lends its level to those ahead of
  it, none of which has a higher one;
* **`LevelsExact.not_lend`**: if one of them has a higher one, the levels are not exact any more.
-/

namespace Lib

open Relation

variable {α L : Type} [LinearOrder L] {waits waits' : α → α → Prop} {own own' level level' : α → L}
  {p o q t u : α}

/-- The own level of an element and those of the elements that wait for it. -/
def offers (waits : α → α → Prop) (own level : α → L) (t : α) : Set L :=
  {x | x = own t ∨ ∃ u, waits u t ∧ x = level u}

def LevelsExact (waits : α → α → Prop) (own level : α → L) : Prop :=
  ∀ t, IsGreatest (offers waits own level t) (level t)

omit [LinearOrder L] in
/-- Of two elements right behind another one, one is not ahead of the other. -/
theorem eq_of_next (hacyclic : Acyclic waits) (hunique : ∀ a b c, waits a b → waits a c → b = c) (htq : waits t q)
    (huq : waits u q) (htu : ReflTransGen waits t u) : u = t := by
  obtain rfl | ⟨c, htc, hcu⟩ := htu.cases_head
  · rfl
  · obtain rfl : c = q := hunique t c q htc htq
    exact absurd (TransGen.tail' hcu huq) (hacyclic c)

/-- The first element ahead of `o` whose level is above that of `p`: those ahead of `o` that wait for it are not
above. -/
theorem exists_first_above (hacyclic : Acyclic waits) (hunique : ∀ a b c, waits a b → waits a c → b = c)
    (hlow : level o < level p) (hq : ReflTransGen waits o q) (hhigh : level p < level q) :
    ∃ t, ReflTransGen waits o t ∧ level p < level t ∧
      ∀ u, ReflTransGen waits o u → waits u t → level u ≤ level p := by
  induction hq with
  | refl => exact absurd hhigh hlow.not_gt
  | @tail a b hoa hab ih =>
    by_cases ha : level p < level a
    · exact ih ha
    · refine ⟨b, hoa.tail hab, hhigh, fun u hou hub => ?_⟩
      -- one of `a` and `u` is ahead of the other, and both are right behind `b`
      obtain hau | hua := ReflTransGen.total_of_right_unique (fun x y z hxy hxz => hunique x y z hxy hxz) hoa hou
      · rw [eq_of_next hacyclic hunique hab hub hau]
        exact not_lt.1 ha
      · rw [← eq_of_next hacyclic hunique hub hab hua]
        exact not_lt.1 ha

namespace LevelsExact

theorem own_le (h : LevelsExact waits own level) (t : α) : own t ≤ level t := (h t).2 (Or.inl rfl)

theorem le_of_waits (h : LevelsExact waits own level) (hut : waits u t) : level u ≤ level t :=
  (h t).2 (Or.inr ⟨u, hut, rfl⟩)

/-- Nobody waits for the element. -/
theorem eq_own (h : LevelsExact waits own level) (ht : ∀ u, ¬ waits u t) : level t = own t := by
  obtain heq | ⟨u, hu, -⟩ := (h t).1
  · exact heq
  · exact absurd hu (ht u)

theorem congr (h : LevelsExact waits own level) (hw : ∀ u t, waits' u t ↔ waits u t)
    (hown : ∀ t, own' t = own t) (hlevel : ∀ t, level' t = level t) : LevelsExact waits' own' level' := by
  obtain rfl : own' = own := funext hown
  obtain rfl : level' = level := funext hlevel
  obtain rfl : waits' = waits := funext₂ fun u t => propext (hw u t)
  exact h

/-- The level of an element that does not wait is computed again from those that wait for it now. -/
theorem recompute (h : LevelsExact waits own level) (hw : ∀ u t, t ≠ p → (waits' u t ↔ waits u t))
    (hown : ∀ t, t ≠ p → own' t = own t) (hlevel : ∀ t, t ≠ p → level' t = level t)
    (hp : ∀ t, ¬ waits' p t) (hx : IsGreatest (offers waits' own' level p) (level' p)) :
    LevelsExact waits' own' level' := by
  intro t
  have hoffers : offers waits' own' level' t = offers waits' own' level t := by
    refine Set.ext fun x => or_congr_right (exists_congr fun u => and_congr_right fun hu => ?_)
    rw [hlevel u]
    rintro rfl
    exact hp t hu
  rw [hoffers]
  by_cases ht : t = p
  · rw [ht]
    exact hx
  · have hsame : offers waits' own' level t = offers waits own level t := by
      refine Set.ext fun x => or_congr (by rw [hown t ht]) (exists_congr fun u => ?_)
      rw [hw u t ht]
    rw [hsame, hlevel t ht]
    exact h t

/-- An element begins to wait for one whose level is not lower. -/
theorem wait (h : LevelsExact waits own level) (hw : ∀ u t, waits' u t ↔ waits u t ∨ u = p ∧ t = o)
    (hle : level p ≤ level o) : LevelsExact waits' own level := by
  intro t
  refine ⟨(h t).1.imp_right fun ⟨u, hu, hx⟩ => ⟨u, (hw u t).2 (Or.inl hu), hx⟩, ?_⟩
  rintro x (rfl | ⟨u, hu, rfl⟩)
  · exact h.own_le t
  · obtain hu | ⟨rfl, rfl⟩ := (hw u t).1 hu
    · exact h.le_of_waits hu
    · exact hle

section Lend

variable (hahead : ∀ t, ReflTransGen waits o t → level' t = level p)
  (hrest : ∀ t, ¬ ReflTransGen waits o t → level' t = level t)
include hahead hrest

/-- An element begins to wait, and those ahead of it get its level, which is not lower than theirs. -/
theorem lend (h : LevelsExact waits own level) (hw : ∀ u t, waits' u t ↔ waits u t ∨ u = p ∧ t = o)
    (hno : ¬ ReflTransGen waits o p) (hle : ∀ t, ReflTransGen waits o t → level t ≤ level p) :
    LevelsExact waits' own level' := by
  have hp : level' p = level p := hrest p hno
  intro t
  by_cases ht : ReflTransGen waits o t
  · rw [hahead t ht]
    refine ⟨Or.inr ?_, ?_⟩
    · obtain rfl | ⟨u, hou, hut⟩ := ht.cases_tail
      · exact ⟨p, (hw p t).2 (Or.inr ⟨rfl, rfl⟩), hp.symm⟩
      · exact ⟨u, (hw u t).2 (Or.inl hut), (hahead u hou).symm⟩
    · rintro x (rfl | ⟨u, hu, rfl⟩)
      · exact (h.own_le t).trans (hle t ht)
      · obtain hu | ⟨rfl, -⟩ := (hw u t).1 hu
        · by_cases hou : ReflTransGen waits o u
          · exact (hahead u hou).le
          · rw [hrest u hou]
            exact (h.le_of_waits hu).trans (hle t ht)
        · exact hp.le
  · have hbehind : ∀ u, waits' u t → waits u t ∧ level' u = level u := by
      intro u hu
      obtain hu | ⟨-, rfl⟩ := (hw u t).1 hu
      · exact ⟨hu, hrest u fun hou => ht (hou.tail hu)⟩
      · exact absurd .refl ht
    rw [hrest t ht]
    refine ⟨?_, ?_⟩
    · obtain heq | ⟨u, hu, hx⟩ := (h t).1
      · exact Or.inl heq
      · have hu' := (hw u t).2 (Or.inl hu)
        exact Or.inr ⟨u, hu', hx.trans (hbehind u hu').2.symm⟩
    · rintro x (rfl | ⟨u, hu, rfl⟩)
      · exact h.own_le t
      · obtain ⟨hu, heq⟩ := hbehind u hu
        rw [heq]
        exact h.le_of_waits hu

/-- If an element ahead has a higher level, the first such one gets a level that is too low. -/
theorem not_lend (h : LevelsExact waits own level) (hw : ∀ u t, waits u t → waits' u t)
    (hacyclic : Acyclic waits) (hunique : ∀ a b c, waits a b → waits a c → b = c) (hlow : level o < level p)
    (hq : ReflTransGen waits o q) (hhigh : level p < level q) : ¬ LevelsExact waits' own level' := by
  obtain ⟨t, hot, ht, hfirst⟩ := exists_first_above hacyclic hunique hlow hq hhigh
  intro h'
  obtain hown | ⟨u, hut, hu⟩ := (h t).1
  · have hle := h'.own_le t
    rw [← hown, hahead t hot] at hle
    exact absurd ht (not_lt.2 hle)
  · by_cases hou : ReflTransGen waits o u
    · rw [hu] at ht
      exact absurd ht (not_lt.2 (hfirst u hou hut))
    · have hle := h'.le_of_waits (hw u t hut)
      rw [hrest u hou, hahead t hot, ← hu] at hle
      exact absurd ht (not_lt.2 hle)

end Lend

end LevelsExact

end Lib
