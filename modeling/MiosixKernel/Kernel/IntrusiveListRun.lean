import MiosixKernel.Kernel.IntrusiveList

/-!
# Runs of an intrusive list

A list stands for the sequence of its items. Whatever calls are made, the pointers of the list agree with
the sequence that the same calls make of the empty one, and the iterators walk it in both directions.

* `Contents`: the sequence, with the items that were removed and not put back;
* `Contents.exec`: what a call does to the sequence, and the iterator that it returns;
* `WellFormed`: how the pointers agree with the sequence;
* `exec_represents`, **`run_sequence`**: one call, and a run of calls.
-/

namespace Miosix

namespace IntrusiveList

open ListItem

variable {α : Type}

/-! ## Calls and the sequence -/

inductive Call (α : Type) where
  | pushBack (x : α)
  | popBack
  | pushFront (x : α)
  | popFront
  | insert (position : ListItem α) (x : α)
  | erase (it : ListItem α)

/-- What a list stands for. -/
structure Contents (α : Type) where
  items : List α
  /-- The items that were removed and are not in the list. -/
  removed : List α

/-- The iterator to the item at an index, or the end. -/
def iteratorAt (l : List α) (i : ℕ) : ListItem α := position (l.drop i)

/-- `++` on an iterator, `n` times. -/
def advance (s : IntrusiveList α) : ℕ → ListItem α → Option (ListItem α)
  | 0, it => some it
  | n + 1, it => (s.next it).bind (s.advance n)

/-- `--` on an iterator, `n` times. -/
def retreat (s : IntrusiveList α) : ℕ → ListItem α → Option (ListItem α)
  | 0, it => some it
  | n + 1, it => (s.prev it).bind (s.retreat n)

section Exec

variable [DecidableEq α]

/-- A call, with the iterator that it returns. -/
def exec (s : IntrusiveList α) : Call α → Option (IntrusiveList α × Option (ListItem α))
  | .pushBack x => some (s.pushBack x, none)
  | .popBack => s.popBack.map (·, none)
  | .pushFront x => some (s.pushFront x, none)
  | .popFront => s.popFront.map (·, none)
  | .insert position x => (s.insert position x).map (·, none)
  | .erase it => some ((s.erase it).1, some (s.erase it).2)

/-- A sequence of calls, with the iterators that they return. -/
def run (s : IntrusiveList α) : List (Call α) → Option (IntrusiveList α × List (ListItem α))
  | [] => some (s, [])
  | c :: calls => do
    let (s, it) ← s.exec c
    let (s, its) ← s.run calls
    some (s, it.toList ++ its)

namespace Contents

/-- An item enters the sequence. -/
def enter (c : Contents α) (i : ℕ) (x : α) : Contents α :=
  ⟨c.items.take i ++ x :: c.items.drop i, c.removed.filter (· ≠ x)⟩

/-- The item at an index leaves the sequence. -/
def leave (c : Contents α) (i : ℕ) : Contents α := ⟨c.items.eraseIdx i, c.items[i]?.toList ++ c.removed⟩

/-- The index of an iterator. -/
def indexOf (c : Contents α) : ListItem α → ℕ
  | emptyListItem => c.items.length
  | item x => c.items.idxOf x

/-- A call on the sequence. Removing from the empty sequence, at the end of the sequence or what is not in
it changes nothing. -/
def exec (c : Contents α) : Call α → Contents α × Option (ListItem α)
  | .pushBack x => (c.enter c.items.length x, none)
  | .popBack => (c.leave (c.items.length - 1), none)
  | .pushFront x => (c.enter 0 x, none)
  | .popFront => (c.leave 0, none)
  | .insert position x => (c.enter (c.indexOf position) x, none)
  | .erase emptyListItem => (c, some emptyListItem)
  | .erase (item x) =>
    if x ∈ c.items then (c.leave (c.items.idxOf x), some (iteratorAt c.items (c.items.idxOf x + 1)))
    else (c, some (item x))

def run (c : Contents α) : List (Call α) → Contents α × List (ListItem α)
  | [] => (c, [])
  | call :: calls =>
    (((c.exec call).1.run calls).1, (c.exec call).2.toList ++ ((c.exec call).1.run calls).2)

/-- What may be called: an item that enters is not in the list, an iterator is one of the list or its end,
or the one to erase belongs to an item that was removed already. -/
def Allowed (c : Contents α) : Call α → Prop
  | .pushBack x | .pushFront x => x ∉ c.items
  | .popBack | .popFront => True
  | .insert position x => x ∉ c.items ∧ position ∈ emptyListItem :: c.items.map item
  | .erase it => it ∈ emptyListItem :: (c.items ++ c.removed).map item

/-- Each call may be made where it is made. -/
def RunAllowed : Contents α → List (Call α) → Prop
  | _, [] => True
  | c, call :: calls => c.Allowed call ∧ RunAllowed (c.exec call).1 calls

end Contents

end Exec

/-- The pointers agree with the sequence. -/
structure WellFormed (s : IntrusiveList α) (c : Contents α) : Prop where
  nodup : c.items.Nodup
  head : s.head = iteratorAt c.items 0
  tail : s.tail = lastPosition c.items
  next_end : s.next emptyListItem = some s.head
  prev_end : s.prev emptyListItem = some s.tail
  inverse : ∀ p ∈ emptyListItem :: c.items.map item, ∀ q ∈ emptyListItem :: c.items.map item,
    s.next p = some q ↔ s.prev q = some p
  removed : ∀ x ∈ c.removed, x ∉ c.items ∧ s.Unlinked x
  forwards : ∀ i n, i + n ≤ c.items.length →
    s.advance n (iteratorAt c.items i) = some (iteratorAt c.items (i + n))
  backwards : ∀ i n, i + n ≤ c.items.length →
    s.retreat n (iteratorAt c.items (i + n)) = some (iteratorAt c.items i)

/-! ## One call -/

/-- The list has the items of the sequence, and those that were removed are in no list. -/
structure Represents (s : IntrusiveList α) (c : Contents α) : Prop where
  forms : s.Forms c.items
  removed : ∀ x ∈ c.removed, s.Unlinked x

variable {s s' : IntrusiveList α} {c : Contents α} {l a b : List α} {x : α} {p : ListItem α}

theorem Forms.not_unlinked (h : s.Forms l) (hx : x ∈ l) : ¬ s.Unlinked x := by
  obtain ⟨a, b, rfl⟩ := List.append_of_mem hx
  rintro ⟨hnext, -⟩
  rw [h.next_eq] at hnext
  cases hnext

/-- A node is the last one before a cut. -/
theorem exists_cut_after (hp : p ∈ emptyListItem :: l.map item) : ∃ a b, l = a ++ b ∧ p = lastPosition a := by
  rcases List.mem_cons.1 hp with rfl | hp
  · exact ⟨[], l, rfl, rfl⟩
  · obtain ⟨x, hx, rfl⟩ := List.mem_map.1 hp
    obtain ⟨a, b, rfl⟩ := List.append_of_mem hx
    exact ⟨a ++ [x], b, by simp, by simp⟩

/-- A node is the first one after a cut. -/
theorem exists_cut_before (hp : p ∈ emptyListItem :: l.map item) : ∃ a b, l = a ++ b ∧ p = position b := by
  rcases List.mem_cons.1 hp with rfl | hp
  · exact ⟨l, [], by simp, rfl⟩
  · obtain ⟨x, hx, rfl⟩ := List.mem_map.1 hp
    obtain ⟨a, b, rfl⟩ := List.append_of_mem hx
    exact ⟨a, x :: b, rfl, rfl⟩

theorem Forms.inverse (h : s.Forms l) {q : ListItem α} (hp : p ∈ emptyListItem :: l.map item)
    (hq : q ∈ emptyListItem :: l.map item) : s.next p = some q ↔ s.prev q = some p := by
  constructor
  · intro hnext
    obtain ⟨a, b, rfl, rfl⟩ := exists_cut_after hp
    obtain rfl : position b = q := Option.some.inj (h.adjacent.1.symm.trans hnext)
    exact h.adjacent.2
  · intro hprev
    obtain ⟨a, b, rfl, rfl⟩ := exists_cut_before hq
    obtain rfl : lastPosition a = p := Option.some.inj (h.adjacent.2.symm.trans hprev)
    exact h.adjacent.1

/-- Two iterators next to each other. -/
theorem Forms.step (h : s.Forms l) {i : ℕ} (hi : i < l.length) :
    s.next (iteratorAt l i) = some (iteratorAt l (i + 1)) ∧
      s.prev (iteratorAt l (i + 1)) = some (iteratorAt l i) := by
  have hcut : s.Forms (l.take (i + 1) ++ l.drop (i + 1)) := by rwa [List.take_append_drop]
  have hlast : lastPosition (l.take (i + 1)) = iteratorAt l i := by
    rw [← List.take_append_getElem hi, lastPosition_concat, iteratorAt, List.drop_eq_getElem_cons hi,
      position_cons]
  rw [← hlast]
  exact hcut.adjacent

theorem Forms.advance (h : s.Forms l) : ∀ n i, i + n ≤ l.length →
    s.advance n (iteratorAt l i) = some (iteratorAt l (i + n))
  | 0, _, _ => rfl
  | n + 1, i, hn => by
    have hstep := (h.step (show i < l.length by omega)).1
    rw [IntrusiveList.advance, hstep, Option.bind_some, Forms.advance h n (i + 1) (by omega)]
    congr 2
    omega

theorem Forms.retreat (h : s.Forms l) : ∀ n i, i + n ≤ l.length →
    s.retreat n (iteratorAt l (i + n)) = some (iteratorAt l i)
  | 0, _, _ => rfl
  | n + 1, i, hn => by
    have hstep := (h.step (show i + n < l.length by omega)).2
    rw [IntrusiveList.retreat, ← Nat.add_assoc, hstep, Option.bind_some]
    exact Forms.retreat h n i (by omega)

theorem Represents.wellFormed (h : s.Represents c) : s.WellFormed c where
  nodup := h.forms.nodup
  head := h.forms.head
  tail := h.forms.tail
  next_end := h.forms.head ▸ h.forms.next_end
  prev_end := h.forms.tail ▸ h.forms.prev_end
  inverse _ hp _ hq := h.forms.inverse hp hq
  removed x hx := ⟨fun hmem => h.forms.not_unlinked hmem (h.removed x hx), h.removed x hx⟩
  forwards i n hn := h.forms.advance n i hn
  backwards i n hn := h.forms.retreat n i hn

variable [DecidableEq α]

theorem Represents.enter (h : s.Represents ⟨a ++ b, l⟩) (hx : x ∉ a ++ b) :
    (s.linked a x b).Represents (Contents.enter ⟨a ++ b, l⟩ a.length x) := by
  obtain ⟨hf, hk⟩ := h.forms.linked hx
  have hitems : (Contents.enter ⟨a ++ b, l⟩ a.length x).items = a ++ x :: b := by
    simp [Contents.enter]
  refine ⟨hitems ▸ hf, fun y hy => ?_⟩
  obtain ⟨hy, hyx⟩ := List.mem_filter.1 hy
  have hyl : y ∉ a ++ b := (h.wellFormed.removed y hy).1
  refine hk.unlinked (fun hmem => ?_) (h.removed y hy)
  rcases List.mem_append.1 hmem with hmem | hmem
  · exact hyl (List.mem_append_left _ hmem)
  · rcases List.mem_cons.1 hmem with rfl | hmem
    · simp at hyx
    · exact hyl (List.mem_append_right _ hmem)

theorem Represents.leave (h : s.Represents ⟨a ++ x :: b, l⟩) :
    (s.unlinked a x b).Represents (Contents.leave ⟨a ++ x :: b, l⟩ a.length) := by
  obtain ⟨hf, hu, hk⟩ := h.forms.unlinked
  have hitems : (Contents.leave ⟨a ++ x :: b, l⟩ a.length).items = a ++ b := by
    simp [Contents.leave, List.eraseIdx_append_of_length_le]
  have hremoved : (Contents.leave ⟨a ++ x :: b, l⟩ a.length).removed = x :: l := by
    simp [Contents.leave]
  refine ⟨hitems ▸ hf, fun y hy => ?_⟩
  rw [hremoved] at hy
  rcases List.mem_cons.1 hy with rfl | hy
  · exact hu
  · exact hk.unlinked (h.wellFormed.removed y hy).1 (h.removed y hy)

/-- A position of the list cuts it at its index. -/
theorem Represents.exists_cut (h : s.Represents c) (hp : p ∈ emptyListItem :: c.items.map item) :
    ∃ a b, c.items = a ++ b ∧ p = position b ∧ c.indexOf p = a.length := by
  rcases List.mem_cons.1 hp with rfl | hp
  · exact ⟨c.items, [], by simp, rfl, rfl⟩
  · obtain ⟨x, hx, rfl⟩ := List.mem_map.1 hp
    obtain ⟨a, b, hab⟩ := List.append_of_mem hx
    have hxa : x ∉ a := fun hm => (hab ▸ h.forms).notMem_split (List.mem_append_left _ hm)
    exact ⟨a, x :: b, hab, rfl, by simp [Contents.indexOf, hab, List.idxOf_append_of_notMem hxa]⟩

/-- **One call** does to the list what it does to the sequence, and returns the same iterator. -/
theorem exec_represents (h : s.Represents c) {call : Call α} (hc : c.Allowed call) :
    ∃ s', s.exec call = some (s', (c.exec call).2) ∧ s'.Represents (c.exec call).1 := by
  obtain ⟨items, removed⟩ := c
  cases call with
  | pushBack x =>
    have h' : s.Represents ⟨items ++ [], removed⟩ := by simpa using h
    have hx : x ∉ items ++ [] := by
      rw [List.append_nil]
      exact hc
    refine ⟨_, rfl, ?_⟩
    rw [h.forms.pushBack_eq]
    simpa [Contents.exec] using h'.enter hx
  | pushFront x =>
    refine ⟨_, rfl, ?_⟩
    rw [h.forms.pushFront_eq]
    exact Represents.enter (a := []) h hc
  | popBack =>
    obtain rfl | ⟨l, x, rfl⟩ := items.eq_nil_or_concat
    · exact ⟨s, by rw [exec, h.forms.pop_nil.1]; rfl, h⟩
    · rw [List.concat_eq_append] at h ⊢
      refine ⟨_, by rw [exec, h.forms.popBack_eq]; rfl, ?_⟩
      simpa [Contents.exec] using h.leave
  | popFront =>
    cases items with
    | nil => exact ⟨s, by rw [exec, h.forms.pop_nil.2]; rfl, h⟩
    | cons x l =>
      refine ⟨_, by rw [exec, h.forms.popFront_eq]; rfl, ?_⟩
      exact Represents.leave (a := []) h
  | insert position x =>
    obtain ⟨hx, hp⟩ := hc
    obtain ⟨a, b, rfl, rfl, hindex⟩ := h.exists_cut hp
    refine ⟨_, by rw [exec, h.forms.insert_eq hx]; rfl, ?_⟩
    simpa only [Contents.exec, hindex] using h.enter hx
  | erase it =>
    rcases List.mem_cons.1 hc with rfl | hit
    · exact ⟨s, by rw [exec, h.forms.erase_end]; rfl, h⟩
    · obtain ⟨x, hx, rfl⟩ := List.mem_map.1 hit
      by_cases hmem : x ∈ items
      · obtain ⟨a, b, hab⟩ := List.append_of_mem hmem
        subst hab
        have hxa : x ∉ a := fun hm => h.forms.notMem_split (List.mem_append_left _ hm)
        have hindex : (a ++ x :: b).idxOf x = a.length := by
          simp [List.idxOf_append_of_notMem hxa]
        have hnext : iteratorAt (a ++ x :: b) (a.length + 1) = position b := by
          rw [iteratorAt, ← List.drop_drop, List.drop_left, List.drop_one, List.tail_cons]
        simp only [exec, Contents.exec, if_pos hmem, hindex, hnext, h.forms.erase_eq]
        exact ⟨_, rfl, h.leave⟩
      · have hremoved : x ∈ removed := (List.mem_append.1 hx).resolve_left hmem
        simp only [exec, Contents.exec, if_neg hmem, (h.removed x hremoved).erase_eq]
        exact ⟨s, rfl, h⟩

/-! ## A run -/

theorem represents_run : ∀ (calls : List (Call α)) {s : IntrusiveList α} {c : Contents α},
    s.Represents c → c.RunAllowed calls →
      ∃ s', s.run calls = some (s', (c.run calls).2) ∧ s'.Represents (c.run calls).1
  | [], s, _, h, _ => ⟨s, rfl, h⟩
  | call :: calls, s, c, h, hc => by
    obtain ⟨s₁, hexec, h₁⟩ := exec_represents h hc.1
    obtain ⟨s₂, hrun, h₂⟩ := represents_run calls h₁ hc.2
    exact ⟨s₂, by simp [run, hexec, hrun, Contents.run], h₂⟩

/-- **An intrusive list refines a sequence.** After any calls on a list, whose items had any pointers when
it was constructed, the list is well formed and has the items of the sequence that the same calls make, and
the iterators that the calls return are those of the sequence. -/
theorem run_sequence (next prev : ListItem α → Option (ListItem α)) (calls : List (Call α))
    (h : Contents.RunAllowed ⟨[], []⟩ calls) :
    ∃ s, (construct next prev).run calls = some (s, (Contents.run ⟨[], []⟩ calls).2) ∧
      s.WellFormed (Contents.run ⟨[], []⟩ calls).1 := by
  have hinit : (construct next prev).Represents ⟨[], []⟩ := ⟨forms_construct next prev, nofun⟩
  obtain ⟨s, hrun, hs⟩ := represents_run calls hinit h
  exact ⟨s, hrun, hs.wellFormed⟩

/-- An item is erased twice, and the end once. -/
theorem run_sequence_erase :
    let calls : List (Call ℕ) := [.pushBack 1, .pushFront 0, .insert (item 1) 2, .erase (item 0),
      .erase (item 0), .erase emptyListItem, .popBack]
    ∃ s, (construct (fun _ => none) fun _ => none).run calls =
        some (s, [item 2, item 0, emptyListItem]) ∧ s.WellFormed ⟨[2], [1, 0]⟩ :=
  run_sequence (fun _ => none) (fun _ => none) _ (by
    simp [Contents.RunAllowed, Contents.Allowed, Contents.exec, Contents.enter, Contents.leave,
      Contents.indexOf])

end IntrusiveList

end Miosix
