import Mathlib.Data.List.Nodup
import Mathlib.Logic.Function.Basic

/-!
# Null terminated singly linked lists

A list is entered through its first node, and a node with no next one ends it.

* `Linked`: following the links from `first` visits the nodes of a list;
* **`Linked.relink`**, `Linked.unlink`, `Linked.insertAfter`: removal and insertion after a node;
* `LinkedQueue`: a list with a pointer to its last node, which means nothing when the list is empty;
* **`Linked.push`**, **`LinkedQueue.append`**, **`LinkedQueue.tail`**: insertion at the front and at
  the end, removal from the front.
-/

namespace Lib

variable {α : Type} {next next' : α → Option α} {first last : Option α} {x y : α} {l : List α}

/-- Following the links from `first` visits `l`, and then nothing. -/
def Linked (next : α → Option α) : Option α → List α → Prop
  | first, [] => first = none
  | first, x :: l => first = some x ∧ Linked next (next x) l

namespace Linked

theorem congr (h : Linked next first l) (heq : ∀ x ∈ l, next' x = next x) :
    Linked next' first l := by
  induction l generalizing first with
  | nil => exact h
  | cons x l ih =>
    refine ⟨h.1, ?_⟩
    rw [heq x List.mem_cons_self]
    exact ih h.2 fun y hy => heq y (List.mem_cons_of_mem _ hy)

/-- The links determine the nodes. -/
theorem unique {l' : List α} (h : Linked next first l) (h' : Linked next first l') : l = l' := by
  induction l generalizing first l' with
  | nil =>
    cases l' with
    | nil => rfl
    | cons y l' =>
      rw [show first = none from h] at h'
      cases h'.1
  | cons x l ih =>
    cases l' with
    | nil =>
      rw [show first = none from h'] at h
      cases h.1
    | cons y l' =>
      obtain rfl : x = y := Option.some.inj (h.1.symm.trans h'.1)
      rw [ih h.2 h'.2]

theorem eq_nil_iff (h : Linked next first l) : l = [] ↔ first = none := by
  cases l with
  | nil => simpa [Linked] using h
  | cons x l => simp [h.1]

theorem cons_of_some (h : Linked next (some x) l) :
    ∃ l', l = x :: l' ∧ Linked next (next x) l' := by
  cases l with
  | nil => cases h
  | cons y l' =>
    obtain rfl : x = y := Option.some.inj h.1
    exact ⟨l', rfl, h.2⟩

theorem first_eq (h : Linked next first l) : first = l.head? := by
  cases l with
  | nil => exact h
  | cons x l => exact h.1

/-- A list is entered through any of its nodes. -/
theorem suffix {a b : List α} (h : Linked next first (a ++ b)) : Linked next b.head? b := by
  induction a generalizing first with
  | nil =>
    rw [List.nil_append] at h
    rwa [← h.first_eq]
  | cons x a ih => exact ih h.2

/-- The node after another one. -/
theorem next_eq {a b : List α} (h : Linked next first (a ++ x :: b)) : next x = b.head? :=
  h.suffix.2.first_eq

variable [DecidableEq α]

theorem update_of_notMem (h : Linked next first l) (hx : x ∉ l) (v : Option α) :
    Linked (Function.update next x v) first l := by
  refine h.congr fun y hy => Function.update_of_ne ?_ _ _
  rintro rfl
  exact hx hy

/-- Insertion at the front. -/
theorem push (h : Linked next first l) (hx : x ∉ l) :
    Linked (Function.update next x first) (some x) (x :: l) := by
  refine ⟨rfl, ?_⟩
  rw [Function.update_self]
  exact h.update_of_notMem hx first

/-- Insertion at the end, through the last node. -/
theorem append (h : Linked next first l) (hnd : l.Nodup) (hx : x ∉ l) (hy : l.getLast? = some y) :
    Linked (Function.update (Function.update next x none) y (some x)) first (l ++ [x]) := by
  induction l generalizing first with
  | nil => cases hy
  | cons z l ih =>
    refine ⟨h.1, ?_⟩
    have hzx : z ≠ x := fun hzx => hx (hzx ▸ List.mem_cons_self)
    cases l with
    | nil =>
      obtain rfl : z = y := by simpa using hy
      simp [Linked, hzx.symm]
    | cons w l =>
      have hyl : (w :: l).getLast? = some y := by simpa [List.getLast?_cons] using hy
      have hzy : z ≠ y := by
        rintro rfl
        exact (List.nodup_cons.mp hnd).1 (List.mem_of_getLast? hyl)
      rw [Function.update_of_ne hzy, Function.update_of_ne hzx]
      exact ih h.2 (List.nodup_cons.mp hnd).2 (fun hmem => hx (List.mem_cons_of_mem _ hmem)) hyl

/-- Another list follows the node `x`. -/
theorem relink {a b c : List α} (h : Linked next first (a ++ x :: b)) (hnd : (a ++ [x]).Nodup)
    (hc : Linked (Function.update next x c.head?) c.head? c) :
    Linked (Function.update next x c.head?) first (a ++ x :: c) := by
  induction a generalizing first with
  | nil =>
    refine ⟨h.1, ?_⟩
    rwa [Function.update_self]
  | cons y a ih =>
    have hyx : y ≠ x := by
      rintro rfl
      exact (List.nodup_cons.mp hnd).1 (by simp)
    refine ⟨h.1, ?_⟩
    rw [Function.update_of_ne hyx]
    exact ih h.2 (List.nodup_cons.mp hnd).2

/-- Removal of the node after `x`. -/
theorem unlink {a b : List α} (h : Linked next first (a ++ x :: y :: b)) (hnd : (a ++ x :: y :: b).Nodup) :
    Linked (Function.update next x (next y)) first (a ++ x :: b) := by
  have hsplit : a ++ x :: y :: b = (a ++ [x]) ++ y :: b := by simp
  have hy : next y = b.head? := next_eq (a := a ++ [x]) (hsplit ▸ h)
  have hb : Linked next b.head? b := suffix (a := a ++ [x, y]) (by simpa using h)
  rw [List.nodup_append] at hnd
  have hxb : x ∉ b := fun hx => (List.nodup_cons.mp hnd.2.1).1 (List.mem_cons_of_mem _ hx)
  rw [hy]
  refine h.relink (List.nodup_append.mpr ⟨hnd.1, List.nodup_singleton x, fun c hc d hd => ?_⟩)
    (hb.update_of_notMem hxb _)
  rw [List.mem_singleton.mp hd]
  exact hnd.2.2 c hc x List.mem_cons_self

/-- Insertion of `z` after `x`. -/
theorem insertAfter {a b : List α} {z : α} (h : Linked next first (a ++ x :: b)) (hnd : (a ++ x :: b).Nodup)
    (hz : z ∉ a ++ x :: b) :
    Linked (Function.update (Function.update next z (next x)) x (some z)) first (a ++ x :: z :: b) := by
  have hb : Linked next b.head? b := suffix (a := a ++ [x]) (by simpa using h)
  rw [List.nodup_append] at hnd
  have hxb : x ∉ b := (List.nodup_cons.mp hnd.2.1).1
  have hzb : z ∉ b := fun hm => hz (by simp [hm])
  have hzx : z ≠ x := fun heq => hz (by simp [heq])
  refine relink (c := z :: b) (h.update_of_notMem hz _) ?_ ⟨rfl, ?_⟩
  · refine List.nodup_append.mpr ⟨hnd.1, List.nodup_singleton x, fun c hc d hd => ?_⟩
    rw [List.mem_singleton.mp hd]
    exact hnd.2.2 c hc x List.mem_cons_self
  · rw [Function.update_of_ne hzx, Function.update_self, h.next_eq]
    exact (hb.update_of_notMem hzb _).update_of_notMem hxb _

end Linked

/-- A linked list of distinct nodes with a pointer to the last one. The pointer is stale when the list
is empty. -/
structure LinkedQueue (next : α → Option α) (first last : Option α) (l : List α) : Prop where
  linked : Linked next first l
  nodup : l.Nodup
  last_eq : l ≠ [] → last = l.getLast?

namespace LinkedQueue

theorem nil (next : α → Option α) (last : Option α) : LinkedQueue next none last [] :=
  ⟨rfl, List.nodup_nil, fun h => absurd rfl h⟩

theorem congr (h : LinkedQueue next first last l) (heq : ∀ x ∈ l, next' x = next x) :
    LinkedQueue next' first last l :=
  ⟨h.linked.congr heq, h.nodup, h.last_eq⟩

theorem tail (h : LinkedQueue next first last (x :: l)) : LinkedQueue next (next x) last l := by
  refine ⟨h.linked.2, (List.nodup_cons.mp h.nodup).2, fun hne => ?_⟩
  rw [h.last_eq (List.cons_ne_nil x l), List.getLast?_cons]
  obtain ⟨y, hy⟩ := Option.ne_none_iff_exists'.mp (List.getLast?_eq_none_iff.not.mpr hne)
  simp [hy]

variable [DecidableEq α]

/-- The links after `x` was put at the end. -/
def appendNext (next : α → Option α) (first last : Option α) (x : α) : α → Option α :=
  match first, last with
  | some _, some y => Function.update (Function.update next x none) y (some x)
  | _, _ => Function.update next x none

/-- The first node after `x` was put at the end. -/
def appendFirst (first : Option α) (x : α) : Option α :=
  match first with
  | none => some x
  | some y => some y

theorem append (h : LinkedQueue next first last l) (hx : x ∉ l) :
    LinkedQueue (appendNext next first last x) (appendFirst first x) (some x) (l ++ [x]) := by
  have hnd : (l ++ [x]).Nodup := by
    rw [List.nodup_append]
    refine ⟨h.nodup, List.nodup_singleton x, fun a ha b hb => ?_⟩
    rintro rfl
    rw [List.mem_singleton] at hb
    exact hx (hb ▸ ha)
  refine ⟨?_, hnd, fun _ => by simp⟩
  cases l with
  | nil =>
    have hfirst : first = none := h.linked
    subst hfirst
    simp [appendNext, appendFirst, Linked]
  | cons z l =>
    have hfirst : first = some z := h.linked.1
    obtain ⟨y, hy⟩ := Option.ne_none_iff_exists'.mp
      (List.getLast?_eq_none_iff.not.mpr (List.cons_ne_nil z l))
    have hlast : last = some y := (h.last_eq (List.cons_ne_nil z l)).trans hy
    have happ := h.linked.append h.nodup hx hy
    subst hfirst hlast
    exact happ

/-- Only the new node and the last one get another link. -/
theorem appendNext_of_ne (h : LinkedQueue next first last l) (hyx : y ≠ x) (hy : y ∉ l) :
    appendNext next first last x y = next y := by
  cases l with
  | nil =>
    have hfirst : first = none := h.linked
    subst hfirst
    simp [appendNext, Function.update_of_ne hyx]
  | cons z l =>
    have hfirst : first = some z := h.linked.1
    obtain ⟨w, hw⟩ := Option.ne_none_iff_exists'.mp
      (List.getLast?_eq_none_iff.not.mpr (List.cons_ne_nil z l))
    have hlast : last = some w := (h.last_eq (List.cons_ne_nil z l)).trans hw
    have hyw : y ≠ w := by
      rintro rfl
      exact hy (List.mem_of_getLast? hw)
    subst hfirst hlast
    simp [appendNext, Function.update_of_ne hyx, Function.update_of_ne hyw]

end LinkedQueue

end Lib
