import MiosixKernel.Lib.Linked
import Mathlib.Data.Set.Card

/-!
# Lists of waiters with tokens

Those who wait for something are in a linked list until somebody leaves a token for them; after that
they are out of the list, but wait until they notice.

* `TokenList`: the list has exactly those who wait without a token;
* `tokens`: those who wait with one;
* **`TokenList.give`**, **`TokenList.push`**, **`TokenList.leave`**: a token for the first of the list,
  a new waiter, and one that goes away with its token.
-/

namespace Lib

variable {α : Type}

/-- Those who have a token and have not noticed it yet. -/
def tokens (waits : α → Prop) (token : α → Bool) : Set α := {t | waits t ∧ token t = true}

/-- The list from `first` has exactly those who wait without a token, each once. -/
structure TokenList (next : α → Option α) (token : α → Bool) (waits : α → Prop)
    (first : Option α) : Prop where
  list : ∃ l, Linked next first l ∧ l.Nodup ∧ ∀ t, t ∈ l ↔ waits t ∧ token t = false
  finite : (tokens waits token).Finite

namespace TokenList

variable {next : α → Option α} {token : α → Bool} {waits waits' : α → Prop} {first : Option α} {x t : α}

theorem congr (h : TokenList next token waits first) (hw : ∀ t, waits' t ↔ waits t) :
    TokenList next token waits' first := by
  obtain rfl : waits' = waits := funext fun t => propext (hw t)
  exact h

theorem empty (next : α → Option α) (token : α → Bool) (hw : ∀ t, ¬waits t) :
    TokenList next token waits none := by
  have hempty : tokens waits token = ∅ := Set.eq_empty_of_forall_notMem fun t ht => hw t ht.1
  refine ⟨⟨[], rfl, List.nodup_nil, fun t => ?_⟩, by simp [hempty]⟩
  simp [hw t]

/-- Nobody waits without a token exactly when the list is empty. -/
theorem first_eq_none_iff (h : TokenList next token waits first) :
    first = none ↔ ¬∃ t, waits t ∧ token t = false := by
  obtain ⟨l, hl, -, hmem⟩ := h.list
  rw [← hl.eq_nil_iff, List.eq_nil_iff_forall_not_mem, not_exists]
  exact forall_congr' fun t => not_congr (hmem t)

theorem first_waits (h : TokenList next token waits (some x)) : waits x ∧ token x = false := by
  obtain ⟨l, hl, -, hmem⟩ := h.list
  obtain ⟨l', rfl, -⟩ := hl.cons_of_some
  exact (hmem x).mp List.mem_cons_self

variable [DecidableEq α]

/-- Changing the node of one who does not wait changes nothing. -/
theorem update_of_not (h : TokenList next token waits first) (hx : ¬waits x) (v : Option α) (b : Bool) :
    TokenList (Function.update next x v) (Function.update token x b) waits first ∧
      tokens waits (Function.update token x b) = tokens waits token := by
  have htok : ∀ t, waits t → Function.update token x b t = token t := by
    intro t ht
    refine Function.update_of_ne ?_ _ _
    rintro rfl
    exact hx ht
  have hset : tokens waits (Function.update token x b) = tokens waits token := by
    ext t
    constructor
    · rintro ⟨hw, hb⟩
      exact ⟨hw, htok t hw ▸ hb⟩
    · rintro ⟨hw, hb⟩
      exact ⟨hw, (htok t hw).trans hb⟩
  refine ⟨⟨?_, by rw [hset]; exact h.finite⟩, hset⟩
  obtain ⟨l, hl, hnd, hmem⟩ := h.list
  refine ⟨l, hl.update_of_notMem (fun hxl => hx ((hmem x).mp hxl).1) v, hnd, fun t => ?_⟩
  rw [hmem t]
  constructor
  · rintro ⟨hw, hb⟩
    exact ⟨hw, (htok t hw).trans hb⟩
  · rintro ⟨hw, hb⟩
    exact ⟨hw, htok t hw ▸ hb⟩

theorem update_token_of_not (h : TokenList next token waits first) (hx : ¬waits x) (b : Bool) :
    TokenList next (Function.update token x b) waits first ∧
      tokens waits (Function.update token x b) = tokens waits token := by
  have hself := h.update_of_not hx (next x) b
  rwa [Function.update_eq_self] at hself

/-- **A token for the first of the list** takes it off the list. -/
theorem give (h : TokenList next token waits (some x)) :
    TokenList next (Function.update token x true) waits (next x) ∧
      (tokens waits (Function.update token x true)).ncard = (tokens waits token).ncard + 1 := by
  obtain ⟨hwx, hbx⟩ := h.first_waits
  have hset : tokens waits (Function.update token x true) = insert x (tokens waits token) := by
    ext t
    by_cases ht : t = x
    · subst ht
      simp [tokens, hwx]
    · simp [tokens, ht]
  have hnot : x ∉ tokens waits token := by
    rintro ⟨-, hb⟩
    rw [hbx] at hb
    cases hb
  refine ⟨⟨?_, by rw [hset]; exact h.finite.insert x⟩, ?_⟩
  · obtain ⟨l, hl, hnd, hmem⟩ := h.list
    obtain ⟨l', rfl, hl'⟩ := hl.cons_of_some
    obtain ⟨hxl, hnd'⟩ := List.nodup_cons.mp hnd
    refine ⟨l', hl', hnd', fun t => ?_⟩
    by_cases ht : t = x
    · subst ht
      simp [hxl]
    · rw [Function.update_of_ne ht, ← hmem t]
      simp [ht]
  · rw [hset, Set.ncard_insert_of_notMem hnot h.finite]

/-- **A new waiter** goes to the front of the list, without a token. -/
theorem push (h : TokenList next token waits first) (hx : ¬waits x)
    (hw : ∀ t, waits' t ↔ t = x ∨ waits t) :
    TokenList (Function.update next x first) (Function.update token x false) waits' (some x) ∧
      tokens waits' (Function.update token x false) = tokens waits token := by
  have hset : tokens waits' (Function.update token x false) = tokens waits token := by
    ext t
    by_cases ht : t = x
    · subst ht
      simp [tokens, hx]
    · simp [tokens, ht, hw t]
  refine ⟨⟨?_, by rw [hset]; exact h.finite⟩, hset⟩
  obtain ⟨l, hl, hnd, hmem⟩ := h.list
  have hxl : x ∉ l := fun hxl => hx ((hmem x).mp hxl).1
  refine ⟨x :: l, hl.push hxl, List.nodup_cons.mpr ⟨hxl, hnd⟩, fun t => ?_⟩
  by_cases ht : t = x
  · subst ht
    simp [hw]
  · rw [Function.update_of_ne ht, List.mem_cons, hmem t, hw t]
    simp [ht]

/-- **A waiter that goes away** takes its token with it. -/
theorem leave (h : TokenList next token waits first) (hx : waits x) (hb : token x = true)
    (hw : ∀ t, waits' t ↔ t ≠ x ∧ waits t) :
    TokenList next token waits' first ∧
      (tokens waits token).ncard = (tokens waits' token).ncard + 1 := by
  have hset : tokens waits token = insert x (tokens waits' token) := by
    ext t
    by_cases ht : t = x
    · subst ht
      simp [tokens, hx, hb]
    · simp [tokens, ht, hw t]
  have hnot : x ∉ tokens waits' token := fun hmem => ((hw x).mp hmem.1).1 rfl
  have hfin : (tokens waits' token).Finite := h.finite.subset (by rw [hset]; exact Set.subset_insert _ _)
  refine ⟨⟨?_, hfin⟩, by rw [hset, Set.ncard_insert_of_notMem hnot hfin]⟩
  obtain ⟨l, hl, hnd, hmem⟩ := h.list
  refine ⟨l, hl, hnd, fun t => ?_⟩
  rw [hmem t, hw t]
  constructor
  · rintro ⟨hwt, htok⟩
    refine ⟨⟨?_, hwt⟩, htok⟩
    rintro rfl
    rw [hb] at htok
    cases htok
  · rintro ⟨⟨-, hwt⟩, htok⟩
    exact ⟨hwt, htok⟩

end TokenList

end Lib
