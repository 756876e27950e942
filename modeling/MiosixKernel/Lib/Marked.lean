import Mathlib.Data.List.Forall2
import Mathlib.Data.List.TakeWhile

/-!
# Strings that end at a mark

* `upTo`: the elements before the first mark;
* `Marked`: a string with some of its elements replaced by the mark;
* **`upTo_drop`**: a segment with no mark inside and a mark after it is read whole;
* **`Marked.eq_of_notMem`**: where there is no mark, nothing was replaced.
-/

namespace Lib

variable {α : Type} {z : α} {l v : List α} {i j : ℕ}

/-! ## The first mark -/

theorem drop_eq_segment (h : l[j]? = some z) (hij : i ≤ j) : l.drop i = (l.take j).drop i ++ z :: l.drop (j + 1) := by
  obtain ⟨hj, hz⟩ := List.getElem?_eq_some_iff.1 h
  conv_lhs => rw [← List.take_append_drop j l]
  rw [List.drop_append_of_le_length (by rw [List.length_take]; omega), List.drop_eq_getElem_cons hj, hz]

section UpTo

variable [DecidableEq α]

/-- The elements before the first mark, if there is one. -/
def upTo (z : α) (l : List α) : Option (List α) := if z ∈ l then some (l.takeWhile (· ≠ z)) else none

theorem upTo_append (h : z ∉ v) (rest : List α) : upTo z (v ++ z :: rest) = some v := by
  have hv : ∀ x ∈ v, decide (x ≠ z) = true := fun x hx => decide_eq_true fun hxz => h (hxz ▸ hx)
  rw [upTo, if_pos (List.mem_append_right v List.mem_cons_self), List.takeWhile_append_of_pos hv,
    List.takeWhile_cons_of_neg (by simp), List.append_nil]

theorem exists_upTo (h : z ∈ l) : ∃ v rest, l = v ++ z :: rest ∧ z ∉ v ∧ upTo z l = some v := by
  obtain ⟨v, rest, rfl, hv⟩ := List.eq_append_cons_of_mem h
  exact ⟨v, rest, rfl, hv, upTo_append hv rest⟩

theorem notMem_of_upTo (h : upTo z l = some v) : z ∉ v := by
  rw [upTo] at h
  split_ifs at h with hmem
  obtain rfl := Option.some.inj h
  exact fun hz => by simpa using List.mem_takeWhile_imp hz

/-- With no mark before `i`, what is read goes on to `i`. -/
theorem take_of_upTo (h : upTo z l = some v) (hz : z ∉ l.take i) : i ≤ v.length ∧ v.take i = l.take i := by
  have hmem : z ∈ l := by
    by_contra hnot
    rw [upTo, if_neg hnot] at h
    cases h
  obtain ⟨v', rest, rfl, -, hv'⟩ := exists_upTo hmem
  obtain rfl := Option.some.inj (h.symm.trans hv')
  have hi : i ≤ v.length := by
    by_contra hlt
    refine hz (List.mem_of_getElem? (i := v.length) ?_)
    rw [List.getElem?_take_of_lt (not_le.1 hlt), List.getElem?_append_right le_rfl, Nat.sub_self]
    rfl
  exact ⟨hi, (List.take_append_of_le_length hi).symm⟩

/-- A segment with a mark after it is read whole if there is no mark inside. -/
theorem upTo_drop (h : l[j]? = some z) (hij : i ≤ j) (hz : z ∉ (l.take j).drop i) :
    upTo z (l.drop i) = some ((l.take j).drop i) := by
  rw [drop_eq_segment h hij]
  exact upTo_append hz _

/-- No more than a segment is read if there is a mark after it. -/
theorem exists_upTo_drop (h : l[j]? = some z) (hij : i ≤ j) :
    ∃ v, upTo z (l.drop i) = some v ∧ v.length ≤ j - i ∧ z ∉ v := by
  have hmem : z ∈ l.drop i := by
    rw [drop_eq_segment h hij]
    exact List.mem_append_right _ List.mem_cons_self
  obtain ⟨v, rest, hl, hv, hupTo⟩ := exists_upTo hmem
  refine ⟨v, hupTo, ?_, hv⟩
  by_contra hlen
  have hji : (l.drop i)[j - i]? = some z := by rw [List.getElem?_drop, Nat.add_sub_cancel' hij, h]
  rw [hl, List.getElem?_append_left (by omega)] at hji
  exact hv (List.mem_of_getElem? hji)

end UpTo

/-! ## Elements that were replaced -/

/-- `l'` is `l` with some of its elements replaced by the mark. -/
def Marked (z : α) (l l' : List α) : Prop := List.Forall₂ (fun a b => b = a ∨ b = z) l l'

namespace Marked

variable {l' l'' : List α} {x : α}

theorem refl (l : List α) : Marked z l l := List.forall₂_same.2 fun _ _ => .inl rfl

theorem trans (h : Marked z l l') (h' : Marked z l' l'') : Marked z l l'' := by
  induction h generalizing l'' with
  | nil => exact h'
  | cons hab _ ih =>
    obtain ⟨c, t, hbc, htail, rfl⟩ := List.forall₂_cons_left_iff.1 h'
    refine .cons ?_ (ih htail)
    rcases hbc with rfl | rfl
    · exact hab
    · exact .inr rfl

theorem length_eq (h : Marked z l l') : l'.length = l.length := (List.Forall₂.length_eq h).symm

theorem take (h : Marked z l l') (n : ℕ) : Marked z (l.take n) (l'.take n) := List.forall₂_take n h

theorem drop (h : Marked z l l') (n : ℕ) : Marked z (l.drop n) (l'.drop n) := List.forall₂_drop n h

/-- Where there is no mark, nothing was replaced. -/
theorem eq_of_notMem (h : Marked z l l') (hz : z ∉ l') : l' = l := by
  induction h with
  | nil => rfl
  | cons hab _ ih =>
    obtain ⟨hb, ht⟩ := List.ne_and_not_mem_of_not_mem_cons hz
    rw [ih ht, hab.resolve_right hb.symm]

/-- A mark stays. -/
theorem getElem?_mark (h : Marked z l l') (hz : l[i]? = some z) : l'[i]? = some z := by
  induction h generalizing i with
  | nil => cases hz
  | cons hab _ ih =>
    cases i with
    | zero =>
      obtain rfl : _ = z := Option.some.inj hz
      exact congrArg some (hab.elim id id)
    | succ i => exact ih hz

theorem set (l : List α) (i : ℕ) : Marked z l (l.set i z) := by
  induction l generalizing i with
  | nil => exact .nil
  | cons a l ih =>
    cases i with
    | zero => exact .cons (.inr rfl) (refl l)
    | succ i => exact .cons (.inl rfl) (ih i)

/-- A string with a mark at `i`, and the same string with something else there. -/
theorem of_set (h : l[i]? = some z) (x : α) : Marked z (l.set i x) l := by
  obtain ⟨hi, hz⟩ := List.getElem?_eq_some_iff.1 h
  have hset : (l.set i x).set i z = l := by
    rw [List.set_set, ← hz]
    exact List.set_getElem_self hi
  have hmarked := set (z := z) (l.set i x) i
  rwa [hset] at hmarked

end Marked

end Lib
