import Mathlib.Data.List.Chain
import Mathlib.Data.List.Nodup

/-!
# Circular doubly linked lists

A circular list with links in both directions is entered through a node `h` that is not one of its
elements. Following the links `next` from `h` visits `l`, and then `h` again, and the links `prev` go the
other way.

* `DoublyLinked`: the links form a circle through `h` and then `l`;
* `DoublyLinked.next_eq`, `DoublyLinked.prev_eq`: the neighbours of a node;
* **`DoublyLinked.insert`**, **`DoublyLinked.remove`**: insertion between two neighbours, removal of a node.
-/

namespace Lib

variable {α : Type}

/-- Each of two nodes points to the other. -/
def Adjacent (next prev : α → Option α) (a b : α) : Prop := next a = some b ∧ prev b = some a

/-- The links form a circle through `h` and then `l`. -/
structure DoublyLinked (next prev : α → Option α) (h : α) (l : List α) : Prop where
  nodup : (h :: l).Nodup
  chain : (h :: (l ++ [h])).IsChain (Adjacent next prev)

variable {next prev next' prev' : α → Option α} {h x p q : α} {l a b c d : List α}

/-- A chain depends on the links forward of all its nodes but the last, and on the links back of all its
nodes but the first. -/
theorem isChain_adjacent_congr (hl : l.IsChain (Adjacent next prev))
    (hn : ∀ y ∈ l.dropLast, next' y = next y) (hp : ∀ y ∈ l.tail, prev' y = prev y) :
    l.IsChain (Adjacent next' prev') := by
  induction l with
  | nil => exact List.isChain_nil
  | cons y l ih =>
    cases l with
    | nil => exact List.isChain_singleton y
    | cons z l =>
      obtain ⟨⟨hy, hz⟩, hl⟩ := List.isChain_cons_cons.1 hl
      refine List.isChain_cons_cons.2 ⟨⟨?_, ?_⟩, ih hl (fun w hw => hn w ?_) fun w hw => hp w ?_⟩
      · rw [hn y (by simp), hy]
      · rw [hp z (by simp), hz]
      · rw [List.dropLast_cons_cons]
        exact List.mem_cons_of_mem _ hw
      · exact List.mem_of_mem_tail hw

namespace DoublyLinked

theorem congr (hl : DoublyLinked next prev h l) (hn : ∀ y ∈ h :: l, next' y = next y)
    (hp : ∀ y ∈ h :: l, prev' y = prev y) : DoublyLinked next' prev' h l := by
  refine ⟨hl.nodup, isChain_adjacent_congr hl.chain (fun y hy => hn y ?_) fun y hy => hp y ?_⟩
  · rwa [← List.cons_append, List.dropLast_concat] at hy
  · rw [List.tail_cons, List.mem_append, List.mem_singleton] at hy
    exact List.mem_cons.2 hy.symm

theorem nil (hn : next h = some h) (hp : prev h = some h) : DoublyLinked next prev h [] :=
  ⟨List.nodup_singleton h, List.isChain_pair.2 ⟨hn, hp⟩⟩

/-- The circle, cut between two nodes. -/
theorem chain_of_split (hl : DoublyLinked next prev h (a ++ b)) (hp : h :: a = c ++ [p])
    (hq : b ++ [h] = q :: d) :
    (c ++ [p]).IsChain (Adjacent next prev) ∧ Adjacent next prev p q ∧
      (q :: d).IsChain (Adjacent next prev) := by
  have heq : h :: (a ++ b ++ [h]) = c ++ p :: q :: d := by
    rw [List.append_assoc, hq, ← List.cons_append, hp, List.append_assoc]
    rfl
  exact List.isChain_append_cons_cons.1 (heq ▸ hl.chain)

/-- The node after another one. -/
theorem next_eq (hl : DoublyLinked next prev h (a ++ b)) (hp : h :: a = c ++ [p])
    (hq : b ++ [h] = q :: d) : next p = some q := (hl.chain_of_split hp hq).2.1.1

/-- The node before another one. -/
theorem prev_eq (hl : DoublyLinked next prev h (a ++ b)) (hp : h :: a = c ++ [p])
    (hq : b ++ [h] = q :: d) : prev q = some p := (hl.chain_of_split hp hq).2.1.2

/-- Where the two ends of a cut are, and where they are not. -/
theorem nodup_of_split (hnd : (h :: (a ++ b)).Nodup) (hp : h :: a = c ++ [p]) (hq : b ++ [h] = q :: d) :
    p ∉ c ∧ p ∉ b ∧ q ∉ a ∧ q ∉ d := by
  rw [← List.cons_append] at hnd
  obtain ⟨ha, hb, hab⟩ := List.nodup_append.1 hnd
  have hha : h ∉ a := (List.nodup_cons.1 ha).1
  have hhb : h ∉ b := fun hh => hab h List.mem_cons_self h hh rfl
  have hpmem : p ∈ h :: a := hp ▸ List.mem_append_right _ (List.mem_singleton_self p)
  refine ⟨fun hpc => ?_, fun hpb => hab p hpmem p hpb rfl, fun hqa => ?_, fun hqd => ?_⟩
  · rw [hp] at ha
    exact (List.nodup_append.1 ha).2.2 p hpc p (List.mem_singleton_self p) rfl
  · have hqmem : q ∈ b ++ [h] := hq ▸ List.mem_cons_self
    rcases List.mem_append.1 hqmem with hqb | hqh
    · exact hab q (List.mem_cons_of_mem _ hqa) q hqb rfl
    · exact hha (List.mem_singleton.1 hqh ▸ hqa)
  · have hnd' : (b ++ [h]).Nodup := List.nodup_append.2
      ⟨hb, List.nodup_singleton h, fun y hy z hz hyz => hhb (List.mem_singleton.1 hz ▸ hyz ▸ hy)⟩
    rw [hq] at hnd'
    exact (List.nodup_cons.1 hnd').1 hqd

variable [DecidableEq α]

/-- **Insertion** between two neighbours. -/
theorem insert (hl : DoublyLinked next prev h (a ++ b)) (hx : x ∉ h :: (a ++ b))
    (hp : h :: a = c ++ [p]) (hq : b ++ [h] = q :: d) :
    DoublyLinked (Function.update (Function.update next x (some q)) p (some x))
      (Function.update (Function.update prev x (some p)) q (some x)) h (a ++ x :: b) := by
  have hxa : x ∉ h :: a := fun hm => hx (by
    rw [← List.cons_append]
    exact List.mem_append_left _ hm)
  have hxb : x ∉ b ++ [h] := fun hm => hx (by
    rcases List.mem_append.1 hm with hb | hh
    · exact List.mem_cons_of_mem _ (List.mem_append_right _ hb)
    · exact List.mem_cons.2 (Or.inl (List.mem_singleton.1 hh)))
  obtain ⟨hleft, -, hright⟩ := hl.chain_of_split hp hq
  obtain ⟨hpc, hpb, hqa, hqd⟩ := nodup_of_split hl.nodup hp hq
  have hxp : x ≠ p := fun he => hxa (by rw [hp, he]; simp)
  have hxq : x ≠ q := fun he => hxb (by rw [hq, he]; simp)
  refine ⟨?_, ?_⟩
  · have hperm : (x :: (h :: (a ++ b))).Perm (h :: (a ++ x :: b)) := by
      rw [← List.cons_append, ← List.cons_append]
      exact List.perm_middle.symm
    exact hperm.nodup_iff.1 (List.nodup_cons.2 ⟨hx, hl.nodup⟩)
  · have heq : h :: (a ++ x :: b ++ [h]) = c ++ p :: x :: q :: d := by
      rw [List.append_assoc, List.cons_append, hq, ← List.cons_append, hp, List.append_assoc]
      rfl
    rw [heq]
    refine List.isChain_append_cons_cons.2 ⟨?_, ⟨?_, ?_⟩, List.isChain_cons_cons.2 ⟨⟨?_, ?_⟩, ?_⟩⟩
    · refine isChain_adjacent_congr hleft (fun y hy => ?_) fun y hy => ?_
      · rw [List.dropLast_concat] at hy
        have hyp : y ≠ p := ne_of_mem_of_not_mem hy hpc
        have hyx : y ≠ x := fun he => hxa (by rw [hp, ← he]; exact List.mem_append_left _ hy)
        rw [Function.update_of_ne hyp, Function.update_of_ne hyx]
      · rw [← hp, List.tail_cons] at hy
        have hyq : y ≠ q := ne_of_mem_of_not_mem hy hqa
        have hyx : y ≠ x := fun he => hxa (he ▸ List.mem_cons_of_mem _ hy)
        rw [Function.update_of_ne hyq, Function.update_of_ne hyx]
    · exact Function.update_self _ _ _
    · rw [Function.update_of_ne hxq, Function.update_self]
    · rw [Function.update_of_ne hxp, Function.update_self]
    · exact Function.update_self _ _ _
    · refine isChain_adjacent_congr hright (fun y hy => ?_) fun y hy => ?_
      · rw [← hq, List.dropLast_concat] at hy
        have hyp : y ≠ p := ne_of_mem_of_not_mem hy hpb
        have hyx : y ≠ x := fun he => hxb (he ▸ List.mem_append_left _ hy)
        rw [Function.update_of_ne hyp, Function.update_of_ne hyx]
      · rw [List.tail_cons] at hy
        have hyq : y ≠ q := ne_of_mem_of_not_mem hy hqd
        have hyx : y ≠ x := fun he => hxb (by rw [hq, ← he]; exact List.mem_cons_of_mem _ hy)
        rw [Function.update_of_ne hyq, Function.update_of_ne hyx]

/-- **Removal** of a node: its neighbours are linked to each other. -/
theorem remove (hl : DoublyLinked next prev h (a ++ x :: b)) (hp : h :: a = c ++ [p])
    (hq : b ++ [h] = q :: d) :
    DoublyLinked (Function.update next p (some q)) (Function.update prev q (some p)) h (a ++ b) := by
  have hnd : (h :: (a ++ b)).Nodup := hl.nodup.sublist (by simp)
  obtain ⟨hpc, hpb, hqa, hqd⟩ := nodup_of_split hnd hp hq
  obtain ⟨hleft, -, hright⟩ := hl.chain_of_split (d := q :: d) hp (by rw [List.cons_append, hq])
  have hright := (List.isChain_cons_cons.1 hright).2
  refine ⟨hnd, ?_⟩
  have heq : h :: (a ++ b ++ [h]) = c ++ p :: q :: d := by
    rw [List.append_assoc, hq, ← List.cons_append, hp, List.append_assoc]
    rfl
  rw [heq]
  refine List.isChain_append_cons_cons.2 ⟨?_, ⟨?_, ?_⟩, ?_⟩
  · refine isChain_adjacent_congr hleft (fun y hy => ?_) fun y hy => ?_
    · rw [List.dropLast_concat] at hy
      exact Function.update_of_ne (ne_of_mem_of_not_mem hy hpc) _ _
    · rw [← hp, List.tail_cons] at hy
      exact Function.update_of_ne (ne_of_mem_of_not_mem hy hqa) _ _
  · exact Function.update_self _ _ _
  · exact Function.update_self _ _ _
  · refine isChain_adjacent_congr hright (fun y hy => ?_) fun y hy => ?_
    · rw [← hq, List.dropLast_concat] at hy
      exact Function.update_of_ne (ne_of_mem_of_not_mem hy hpb) _ _
    · rw [List.tail_cons] at hy
      exact Function.update_of_ne (ne_of_mem_of_not_mem hy hqd) _ _

end DoublyLinked

end Lib
