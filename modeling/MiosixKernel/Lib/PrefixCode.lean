import Mathlib.Data.List.Basic

/-!
# Prefix codes

Each symbol has a code word, and no code word begins with another one. A string is then a text and a rest
that begins with no code word, in one way only.

* `PrefixCode`: the code words of the valid symbols;
* `Stuck`: no code word comes first;
* **`PrefixCode.split_unique`**, **`PrefixCode.exists_split`**: the text and the rest of a string.
-/

namespace Lib

variable {χ α : Type} {valid : χ → Prop} {enc : χ → List α} {l l' : List χ} {r r' : List α}

/-- A code in which a string says what its first symbol is. -/
structure PrefixCode (valid : χ → Prop) (enc : χ → List α) : Prop where
  ne_nil : ∀ c, valid c → enc c ≠ []
  prefix_free : ∀ {c d : χ} {r r' : List α}, valid c → valid d → enc c ++ r = enc d ++ r' →
    c = d ∧ r = r'

/-- No code word comes first. -/
def Stuck (valid : χ → Prop) (enc : χ → List α) (r : List α) : Prop :=
  ∀ c r', valid c → r ≠ enc c ++ r'

namespace PrefixCode

variable (h : PrefixCode valid enc)
include h

theorem stuck_nil : Stuck valid enc [] := fun c _ hc heq =>
  h.ne_nil c hc (List.append_eq_nil_iff.1 heq.symm).1

/-- A text is no longer than its code. -/
theorem length_le (hl : ∀ c ∈ l, valid c) : l.length ≤ (l.flatMap enc).length := by
  induction l with
  | nil => exact Nat.zero_le _
  | cons c l ih =>
    have hc : 0 < (enc c).length := List.length_pos_iff.2 (h.ne_nil c (hl c List.mem_cons_self))
    have ih := ih fun d hd => hl d (List.mem_cons_of_mem _ hd)
    rw [List.flatMap_cons, List.length_append, List.length_cons]
    omega

/-- **A string determines its text and its rest.** -/
theorem split_unique (hl : ∀ c ∈ l, valid c) (hl' : ∀ c ∈ l', valid c) (hr : Stuck valid enc r)
    (hr' : Stuck valid enc r') (heq : l.flatMap enc ++ r = l'.flatMap enc ++ r') : l = l' ∧ r = r' := by
  induction l generalizing l' with
  | nil =>
    cases l' with
    | nil => exact ⟨rfl, heq⟩
    | cons d l' =>
      rw [List.flatMap_cons, List.append_assoc] at heq
      exact absurd heq (hr d _ (hl' d List.mem_cons_self))
  | cons c l ih =>
    rw [List.flatMap_cons, List.append_assoc] at heq
    cases l' with
    | nil => exact absurd heq.symm (hr' c _ (hl c List.mem_cons_self))
    | cons d l' =>
      rw [List.flatMap_cons, List.append_assoc] at heq
      obtain ⟨rfl, hrest⟩ := h.prefix_free (hl c List.mem_cons_self) (hl' d List.mem_cons_self) heq
      obtain ⟨rfl, rfl⟩ := ih (fun c hc => hl c (List.mem_cons_of_mem _ hc))
        (fun c hc => hl' c (List.mem_cons_of_mem _ hc)) hrest
      exact ⟨rfl, rfl⟩

/-- **Every string** is a text and a rest. -/
theorem exists_split (s : List α) :
    ∃ (l : List χ) (r : List α), (∀ c ∈ l, valid c) ∧ Stuck valid enc r ∧ s = l.flatMap enc ++ r := by
  induction hn : s.length using Nat.strongRecOn generalizing s with
  | ind n ih =>
    by_cases hs : Stuck valid enc s
    · exact ⟨[], s, by simp, hs, rfl⟩
    · simp only [Stuck, not_forall, not_not] at hs
      obtain ⟨c, s', hc, rfl⟩ := hs
      have hlen : 0 < (enc c).length := List.length_pos_iff.2 (h.ne_nil c hc)
      obtain ⟨l, r, hl, hr, rfl⟩ := ih s'.length (by rw [← hn, List.length_append]; omega) s' rfl
      refine ⟨c :: l, r, ?_, hr, by simp⟩
      simpa [hc] using hl

end PrefixCode

end Lib
