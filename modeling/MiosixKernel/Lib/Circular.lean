import Mathlib.Data.List.Chain
import Mathlib.Data.List.Nodup

/-!
# Circular singly linked lists

A circular list is entered through its head `h`. Following the links from `h` visits `m`, and then
`h` again.

* `Circular`: the links `next` form a circle through `h` and then `m`;
* `Circular.next_eq`: the node that follows another;
* `Circular.rotate`, `Circular.cons`, `Circular.unlink`: another head, insertion after the head,
  removal of a node.
-/

namespace Lib

variable {α : Type}

/-- `b` follows `a`. -/
def Follows (next : α → Option α) (a b : α) : Prop := next a = some b

/-- The links form a circle through `h` and then `m`. -/
structure Circular (next : α → Option α) (h : α) (m : List α) : Prop where
  nodup : (h :: m).Nodup
  chain : (h :: (m ++ [h])).IsChain (Follows next)

/-- A chain depends on the links of all its nodes but the last. -/
theorem isChain_follows_congr {next next' : α → Option α} {l : List α} {z : α}
    (h : (l ++ [z]).IsChain (Follows next)) (heq : ∀ x ∈ l, next' x = next x) :
    (l ++ [z]).IsChain (Follows next') := by
  induction l with
  | nil => exact List.isChain_singleton z
  | cons x l ih =>
    have hx : next' x = next x := heq x List.mem_cons_self
    have htail := ih (List.isChain_of_isChain_cons h) fun y hy => heq y (List.mem_cons_of_mem _ hy)
    refine htail.cons fun y hy => ?_
    exact hx.trans (List.IsChain.rel_head? h hy)

namespace Circular

variable {next next' : α → Option α} {h x p : α} {m a b c : List α}

theorem congr (hc : Circular next h m) (heq : ∀ x ∈ h :: m, next' x = next x) :
    Circular next' h m := by
  refine ⟨hc.nodup, ?_⟩
  rw [← List.cons_append]
  exact isChain_follows_congr hc.chain heq

theorem singleton (hn : next h = some h) : Circular next h [] :=
  ⟨List.nodup_singleton h, List.isChain_pair.mpr hn⟩

/-- The circle, cut at one of its nodes. -/
theorem chain_of_split (hc : Circular next h m) (hs : h :: m = a ++ x :: b) :
    (a ++ x :: (b ++ [h])).IsChain (Follows next) := by
  have : h :: (m ++ [h]) = a ++ x :: (b ++ [h]) := by
    rw [← List.cons_append, hs]
    simp
  exact this ▸ hc.chain

/-- A node is followed by the next one, and the last node by the head. -/
theorem next_eq (hc : Circular next h m) (hs : h :: m = a ++ x :: b) :
    next x = (b ++ [h]).head? := by
  have hright := (List.isChain_split.mp (hc.chain_of_split hs)).2
  cases b with
  | nil => exact (List.isChain_cons_cons.mp hright).1
  | cons y b => exact (List.isChain_cons_cons.mp hright).1

theorem next_head (hc : Circular next h m) : next h = (m ++ [h]).head? :=
  hc.next_eq (List.nil_append _).symm

/-- The nodes as they are visited after the head. -/
theorem next_of_after_head (hc : Circular next h m) {y : α} (hs : m ++ [h] = a ++ x :: y :: b) :
    next x = some y := by
  have hch : (h :: a ++ x :: y :: b).IsChain (Follows next) := by
    rw [List.cons_append, ← hs]
    exact hc.chain
  exact (List.isChain_append_cons_cons.mp hch).2.1

theorem exists_next (hc : Circular next h m) (hx : x ∈ h :: m) : ∃ y, next x = some y := by
  obtain ⟨a, b, hs⟩ := List.append_of_mem hx
  rw [hc.next_eq hs]
  cases b with
  | nil => exact ⟨h, rfl⟩
  | cons y b => exact ⟨y, rfl⟩

/-- The head is not visited again before the end. -/
theorem ne_head (hc : Circular next h m) (hs : h :: m = a ++ x :: b) {y : α} (hy : y ∈ b) :
    y ≠ h := by
  rintro rfl
  have hnd := (List.nodup_cons.mp hc.nodup).1
  cases a with
  | nil =>
    obtain ⟨rfl, rfl⟩ := List.cons_eq_cons.mp hs
    exact hnd hy
  | cons z a =>
    obtain ⟨rfl, rfl⟩ := List.cons_eq_cons.mp hs
    exact hnd (List.mem_append_right _ (List.mem_cons_of_mem _ hy))

/-- Another head. -/
theorem rotate (hc : Circular next h (a ++ x :: b)) : Circular next x (b ++ h :: a) := by
  have hch := hc.chain_of_split (List.cons_append ..).symm
  obtain ⟨hleft, hright⟩ := List.isChain_split.mp hch
  refine ⟨?_, ?_⟩
  · have hperm : (h :: a ++ x :: b).Perm (x :: b ++ h :: a) := List.perm_append_comm
    exact hperm.nodup_iff.mp hc.nodup
  · have : (x :: b ++ h :: (a ++ [x])).IsChain (Follows next) :=
      List.isChain_split.mpr ⟨by simpa using hright, by simpa using hleft⟩
    simpa using this

variable [DecidableEq α]

/-- Insertion after the head. -/
theorem cons (hc : Circular next h m) (hx : x ∉ h :: m) :
    Circular (Function.update (Function.update next x (next h)) h (some x)) h (x :: m) := by
  obtain ⟨hxh, hxm⟩ := not_or.mp (List.mem_cons.not.mp hx)
  obtain ⟨hhm, hnd⟩ := List.nodup_cons.mp hc.nodup
  refine ⟨?_, ?_⟩
  · refine List.nodup_cons.mpr ⟨?_, List.nodup_cons.mpr ⟨hxm, hnd⟩⟩
    exact List.mem_cons.not.mpr (not_or.mpr ⟨Ne.symm hxh, hhm⟩)
  rw [List.cons_append]
  refine List.isChain_cons_cons.mpr ⟨Function.update_self _ _ _, ?_⟩
  refine List.IsChain.cons ?_ fun y hy => ?_
  · refine isChain_follows_congr (List.isChain_of_isChain_cons hc.chain) fun z hz => ?_
    have hzh : z ≠ h := fun heq => hhm (heq ▸ hz)
    have hzx : z ≠ x := fun heq => hxm (heq ▸ hz)
    rw [Function.update_of_ne hzh, Function.update_of_ne hzx]
  · rw [Follows, Function.update_of_ne hxh, Function.update_self, hc.next_head]
    exact hy

/-- Removal of the node `x` that follows `p`. -/
theorem unlink (hc : Circular next h (a ++ x :: b)) (hp : h :: a = c ++ [p]) :
    Circular (Function.update next p (next x)) h (a ++ b) := by
  have hs : h :: (a ++ x :: b) = c ++ p :: x :: b := by
    rw [← List.cons_append, hp]
    simp
  have hs' : h :: (a ++ b) = c ++ p :: b := by
    rw [← List.cons_append, hp]
    simp
  obtain ⟨hleft, -, hright⟩ := List.isChain_append_cons_cons.mp (hc.chain_of_split hs)
  -- `p` is neither before its own place nor after it
  have hnd := hc.nodup
  rw [hs, List.nodup_append, List.nodup_cons] at hnd
  have hpc : p ∉ c := fun hmem => hnd.2.2 p hmem p List.mem_cons_self rfl
  have hpb : p ∉ b := fun hmem => hnd.2.1.1 (List.mem_cons_of_mem _ hmem)
  refine ⟨?_, ?_⟩
  · refine hc.nodup.sublist ?_
    simp
  · have hgoal : h :: (a ++ b ++ [h]) = c ++ p :: (b ++ [h]) := by
      rw [← List.cons_append, hs']
      simp
    rw [hgoal]
    refine List.isChain_split.mpr ⟨isChain_follows_congr hleft fun z hz => ?_, ?_⟩
    · have hzp : z ≠ p := fun heq => hpc (heq ▸ hz)
      exact Function.update_of_ne hzp _ _
    · refine List.IsChain.cons ?_ fun y hy => ?_
      · refine isChain_follows_congr (List.isChain_of_isChain_cons hright) fun z hz => ?_
        have hzp : z ≠ p := fun heq => hpb (heq ▸ hz)
        exact Function.update_of_ne hzp _ _
      · rw [Follows, Function.update_self, hc.next_eq (List.cons_append ..).symm]
        exact hy

/-- Removal of the head: the last node `p` is linked to the second one, which is the new head. -/
theorem unlink_head (hc : Circular next h (x :: m)) (hp : x :: m = c ++ [p]) :
    Circular (Function.update next p (some x)) x m := by
  have hrot : Circular next x (m ++ h :: []) := hc.rotate (a := [])
  have hcut := hrot.unlink hp
  rwa [hc.next_head, List.append_nil] at hcut

end Circular

end Lib
