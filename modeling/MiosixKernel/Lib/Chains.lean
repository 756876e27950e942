import Mathlib.Data.List.Nodup
import Mathlib.Data.List.Perm.Basic
import Mathlib.Logic.Function.Basic

/-!
# Cells in disjoint chains

A cell is free, or is linked to the next one of its chain, or ends it.

* `Chain`: the cells of a list are linked in its order;
* `Chains`: the cells that are not free are those of the chains, each in one place;
* **`Chains.add`**, **`Chains.link`**, **`Chains.cut`**, **`Chains.release`**: a new chain, a free cell after another one,
  a chain that is cut in two, the first cell of a chain that is freed.
-/

namespace Lib

variable {α : Type} {links links' : α → Option (Option α)} {x y : α} {l a b : List α} {cs cs' : List (List α)}

/-- The cells are linked in this order. -/
def Chain (links : α → Option (Option α)) : List α → Prop
  | [] => True
  | x :: l => links x = some l.head? ∧ Chain links l

/-- The cells in use are those of the chains. -/
structure Chains (links : α → Option (Option α)) (cs : List (List α)) : Prop where
  linked : ∀ l ∈ cs, Chain links l
  nodup : cs.flatten.Nodup
  used : ∀ x, links x ≠ none ↔ x ∈ cs.flatten

namespace Chain

theorem congr (h : Chain links l) (heq : ∀ x ∈ l, links' x = links x) : Chain links' l := by
  induction l with
  | nil => exact h
  | cons x l ih =>
    exact ⟨(heq x List.mem_cons_self).trans h.1, ih h.2 fun y hy => heq y (List.mem_cons_of_mem _ hy)⟩

theorem append_right (h : Chain links (a ++ b)) : Chain links b := by
  induction a with
  | nil => exact h
  | cons x a ih => exact ih h.2

/-- The cell after another one. -/
theorem links_eq (h : Chain links (a ++ x :: b)) : links x = some b.head? := h.append_right.1

/-- Another rest follows a cell. -/
theorem replace {c : List α} (h : Chain links (a ++ y :: b)) (heq : ∀ x ∈ a, links' x = links x)
    (hy : links' y = some c.head?) (hc : Chain links' c) : Chain links' (a ++ y :: c) := by
  induction a with
  | nil => exact ⟨hy, hc⟩
  | cons x a ih =>
    refine ⟨(heq x List.mem_cons_self).trans ?_, ih h.2 fun z hz => heq z (List.mem_cons_of_mem _ hz)⟩
    rw [h.1]
    cases a <;> rfl

end Chain

namespace Chains

theorem perm (h : Chains links cs) (hp : cs.Perm cs') : Chains links cs' where
  linked := fun l hl => h.linked l (hp.mem_iff.2 hl)
  nodup := hp.flatten.nodup_iff.1 h.nodup
  used := fun x => (h.used x).trans hp.flatten.mem_iff

theorem notMem (h : Chains links cs) (hx : links x = none) : x ∉ cs.flatten := fun hmem => (h.used x).2 hmem hx

/-- An empty chain. -/
theorem nil (h : Chains links cs) : Chains links ([] :: cs) := by
  refine ⟨fun l hl => ?_, h.nodup, h.used⟩
  rcases List.mem_cons.1 hl with rfl | hl
  · exact trivial
  · exact h.linked l hl

theorem of_append (h : Chains links (cs ++ cs')) (hnil : cs'.flatten = []) : Chains links cs := by
  have hflat : (cs ++ cs').flatten = cs.flatten := by rw [List.flatten_append, hnil, List.append_nil]
  exact ⟨fun l hl => h.linked l (List.mem_append_left _ hl), hflat ▸ h.nodup, fun x => hflat ▸ h.used x⟩

variable [DecidableEq α]

/-- A free cell is a new chain. -/
theorem add (h : Chains links cs) (hx : links x = none) : Chains (Function.update links x (some none)) ([x] :: cs) := by
  have hmem := h.notMem hx
  refine ⟨fun l hl => ?_, ?_, fun y => ?_⟩
  · rcases List.mem_cons.1 hl with rfl | hl'
    · exact ⟨Function.update_self .., trivial⟩
    · refine (h.linked l hl').congr fun y hy => Function.update_of_ne ?_ _ _
      rintro rfl
      exact hmem (List.mem_flatten_of_mem hl' hy)
  · exact List.nodup_cons.2 ⟨hmem, h.nodup⟩
  · by_cases hy : y = x
    · simp [hy]
    · rw [Function.update_of_ne hy, h.used]
      simp [hy]

/-- A chain is cut in two. -/
theorem cut (h : Chains links ((a ++ y :: b) :: cs)) :
    Chains (Function.update links y (some none)) ((a ++ [y]) :: b :: cs) := by
  have hnd := h.nodup
  have hy := h.used y
  simp only [List.flatten_cons, List.append_assoc, List.cons_append] at hnd
  have hya : y ∉ a := fun hmem => (List.nodup_append.1 hnd).2.2 y hmem y List.mem_cons_self rfl
  have hrest := (List.nodup_cons.1 (List.nodup_append.1 hnd).2.1).1
  have hne {z : α} (hz : z ∈ a ∨ z ∈ b ++ cs.flatten) : Function.update links y (some none) z = links z := by
    refine Function.update_of_ne ?_ _ _
    rintro rfl
    exact hz.elim hya hrest
  have hl := h.linked _ List.mem_cons_self
  refine ⟨fun l hmem => ?_, ?_, fun z => ?_⟩
  · obtain rfl | hmem := List.mem_cons.1 hmem
    · exact hl.replace (fun z hz => hne (.inl hz)) (Function.update_self ..) trivial
    obtain rfl | hmem := List.mem_cons.1 hmem
    · have hb : Chain links (y :: l) := hl.append_right
      exact hb.2.congr fun z hz => hne (.inr (List.mem_append_left _ hz))
    · exact (h.linked l (List.mem_cons_of_mem _ hmem)).congr fun z hz =>
        hne (.inr (List.mem_append_right _ (List.mem_flatten_of_mem hmem hz)))
  · simpa using hnd
  · have hz := h.used z
    simp only [List.flatten_cons, List.mem_append, List.mem_cons] at hz ⊢
    by_cases hzy : z = y
    · simp [hzy]
    · rw [Function.update_of_ne hzy, hz]
      simp [hzy, or_assoc]

/-- A chain follows the last cell of another one. -/
theorem join {c : List α} (h : Chains links ((a ++ [y]) :: (x :: c) :: cs)) :
    Chains (Function.update links y (some (some x))) ((a ++ y :: x :: c) :: cs) := by
  have hnd : (a ++ y :: x :: c ++ cs.flatten).Nodup := by simpa using h.nodup
  have hy : y ∉ a ∧ y ∉ x :: c ++ cs.flatten := by
    rw [List.append_assoc, List.cons_append] at hnd
    have hnd' := List.nodup_append.1 hnd
    exact ⟨fun hmem => hnd'.2.2 y hmem y List.mem_cons_self rfl, (List.nodup_cons.1 hnd'.2.1).1⟩
  have hne {z : α} (hz : z ∈ a ∨ z ∈ x :: c ++ cs.flatten) :
      Function.update links y (some (some x)) z = links z := by
    refine Function.update_of_ne ?_ _ _
    rintro rfl
    exact hz.elim hy.1 hy.2
  refine ⟨fun l hl => ?_, hnd, fun z => ?_⟩
  · rcases List.mem_cons.1 hl with rfl | hl
    · refine (h.linked _ List.mem_cons_self).replace (fun z hz => hne (.inl hz)) (Function.update_self ..) ?_
      exact (h.linked (x :: c) (by simp)).congr fun z hz => hne (.inr (List.mem_append_left _ hz))
    · exact (h.linked l (by simp [hl])).congr fun z hz =>
        hne (.inr (List.mem_append_right _ (List.mem_flatten_of_mem hl hz)))
  · by_cases hzy : z = y
    · simp [hzy]
    · rw [Function.update_of_ne hzy, h.used]
      simp

/-- A free cell follows another one, whose rest is cut off. -/
theorem link (h : Chains links ((a ++ y :: b) :: cs)) (hx : links x = none) :
    Chains (Function.update (Function.update links x (some none)) y (some (some x))) ((a ++ [y, x]) :: b :: cs) := by
  have hadd := (h.add hx).perm (List.Perm.swap ..)
  have hcut := hadd.cut.perm (List.Perm.cons _ (List.Perm.swap ..))
  have hjoin := hcut.join
  rwa [Function.update_idem] at hjoin

/-- The first cell of a chain is freed. -/
theorem release (h : Chains links ((x :: b) :: cs)) : Chains (Function.update links x none) (b :: cs) := by
  have hmem := (List.nodup_cons.1 h.nodup).1
  have hne {z : α} (hz : z ∈ b ++ cs.flatten) : Function.update links x none z = links z := by
    refine Function.update_of_ne ?_ _ _
    rintro rfl
    exact hmem hz
  refine ⟨fun l hl => ?_, (List.nodup_cons.1 h.nodup).2, fun z => ?_⟩
  · obtain rfl | hl := List.mem_cons.1 hl
    · exact (h.linked _ List.mem_cons_self).2.congr fun z hz => hne (List.mem_append_left _ hz)
    · exact (h.linked l (List.mem_cons_of_mem _ hl)).congr fun z hz =>
        hne (List.mem_append_right _ (List.mem_flatten_of_mem hl hz))
  · by_cases hzx : z = x
    · rw [hzx]
      simpa using hmem
    · rw [Function.update_of_ne hzx, h.used]
      simp [hzx]

end Chains

end Lib
