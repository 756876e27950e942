import MiosixKernel.Lib.DoublyLinked

/-!
# Intrusive lists

The items of an `IntrusiveList` have the pointers that link them, and `emptyListItem` closes the circle. An
iterator is a pointer to an item or to `emptyListItem`, which is the end. A section that follows a null
pointer returns `none`.

* `IntrusiveList`: the pointers;
* `pushBack`, `popBack`, `pushFront`, `popFront`, `insert`, `erase`;
* `Forms`: the items that the list has, in order, and what each operation does to them;
* `IsList`: moreover, the items that are not in the list have null pointers.
-/

namespace Miosix

open Lib

/-- What a pointer of the list points to. -/
inductive ListItem (α : Type) where
  | emptyListItem
  | item (x : α)
deriving DecidableEq

structure IntrusiveList (α : Type) where
  next : ListItem α → Option (ListItem α)
  prev : ListItem α → Option (ListItem α)
  head : ListItem α
  tail : ListItem α

namespace IntrusiveList

open ListItem

variable {α : Type}

/-! ## The operations -/

section Operations

variable [DecidableEq α]

/-- An empty list. Items that are in no list have null pointers. -/
def new : IntrusiveList α where
  next i := if i = emptyListItem then some emptyListItem else none
  prev i := if i = emptyListItem then some emptyListItem else none
  head := emptyListItem
  tail := emptyListItem

/-- The constructor, whatever the pointers of the items are. -/
def construct (next prev : ListItem α → Option (ListItem α)) : IntrusiveList α where
  next := Function.update next emptyListItem (some emptyListItem)
  prev := Function.update prev emptyListItem (some emptyListItem)
  head := emptyListItem
  tail := emptyListItem

def isEmpty (s : IntrusiveList α) : Bool := s.head = emptyListItem

def pushBack (s : IntrusiveList α) (x : α) : IntrusiveList α :=
  let next := Function.update s.next (item x) (some emptyListItem)
  let prev := Function.update s.prev (item x) (some s.tail)
  let prev := Function.update prev emptyListItem (some (item x))
  if s.head = emptyListItem then
    ⟨Function.update next emptyListItem (some (item x)), prev, item x, item x⟩
  else ⟨Function.update next s.tail (some (item x)), prev, s.head, item x⟩

def pushFront (s : IntrusiveList α) (x : α) : IntrusiveList α :=
  let prev := Function.update s.prev (item x) (some emptyListItem)
  if s.head ≠ emptyListItem then
    let next := Function.update s.next (item x) (some s.head)
    let prev := Function.update prev s.head (some (item x))
    ⟨Function.update next emptyListItem (some (item x)), prev, item x, s.tail⟩
  else
    let next := Function.update s.next (item x) (some emptyListItem)
    let prev := Function.update prev emptyListItem (some (item x))
    ⟨Function.update next emptyListItem (some (item x)), prev, item x, item x⟩

/-- `head` is the only item, or `emptyListItem`. -/
def removeLastItem (s : IntrusiveList α) : IntrusiveList α where
  next := Function.update (Function.update s.next s.head none) emptyListItem (some emptyListItem)
  prev := Function.update (Function.update s.prev s.head none) emptyListItem (some emptyListItem)
  head := emptyListItem
  tail := emptyListItem

def popBack (s : IntrusiveList α) : Option (IntrusiveList α) :=
  if s.tail = s.head then some s.removeLastItem
  else do
    let p ← s.prev s.tail
    let next := Function.update s.next p (some emptyListItem)
    let prev := Function.update s.prev emptyListItem (some p)
    let prev := Function.update prev s.tail none
    let next := Function.update next s.tail none
    let tail ← prev emptyListItem
    some ⟨next, prev, s.head, tail⟩

def popFront (s : IntrusiveList α) : Option (IntrusiveList α) :=
  if s.tail = s.head then some s.removeLastItem
  else do
    let n ← s.next s.head
    let prev := Function.update s.prev n (some emptyListItem)
    let prev := Function.update prev s.head none
    let next := Function.update s.next emptyListItem (some n)
    let next := Function.update next s.head none
    let head ← next emptyListItem
    some ⟨next, prev, head, s.tail⟩

/-- Insert an item before a position. -/
def insert (s : IntrusiveList α) (position : ListItem α) (x : α) : Option (IntrusiveList α) :=
  if s.head = emptyListItem then
    some ⟨Function.update (Function.update s.next (item x) (some emptyListItem)) emptyListItem
        (some (item x)),
      Function.update (Function.update s.prev (item x) (some emptyListItem)) emptyListItem
        (some (item x)), item x, item x⟩
  else do
    let p ← s.prev position
    let next := Function.update (Function.update s.next (item x) (some position)) p (some (item x))
    let prev := Function.update (Function.update s.prev (item x) (some p)) position (some (item x))
    some ⟨next, prev, if prev (item x) = some emptyListItem then item x else s.head,
      if next (item x) = some emptyListItem then item x else s.tail⟩

/-- Remove the item at a position, and return the next position. The pointers of `emptyListItem` are never
null. -/
def erase (s : IntrusiveList α) (it : ListItem α) : IntrusiveList α × ListItem α :=
  match s.next it, s.prev it with
  | some n, some p =>
    if it = emptyListItem then (s, it)
    else
      let prev := Function.update (Function.update s.prev n (some p)) it none
      let next := Function.update (Function.update s.next p (some n)) it none
      (⟨next, prev, (next emptyListItem).getD emptyListItem, (prev emptyListItem).getD emptyListItem⟩, n)
  | _, _ => (s, it)

end Operations

/-! ## The items of a list -/

/-- The position of the first of some items. -/
def position (l : List α) : ListItem α := (l.map item).head?.getD emptyListItem

/-- The position of the last of some items. -/
def lastPosition (l : List α) : ListItem α := (l.map item).getLast?.getD emptyListItem

/-- The list has the items `l`. -/
structure Forms (s : IntrusiveList α) (l : List α) : Prop where
  links : DoublyLinked s.next s.prev emptyListItem (l.map item)
  head : s.head = position l
  tail : s.tail = lastPosition l

/-- An item in no list: its pointers are null. -/
def Unlinked (s : IntrusiveList α) (x : α) : Prop := s.next (item x) = none ∧ s.prev (item x) = none

/-- Only items of `l` have other pointers than before. -/
def KeepsOthers (s s' : IntrusiveList α) (l : List α) : Prop :=
  ∀ y, y ∉ l → s'.next (item y) = s.next (item y) ∧ s'.prev (item y) = s.prev (item y)

/-- The list has the items `l`, and the items that are not in it have null pointers. -/
structure IsList (s : IntrusiveList α) (l : List α) : Prop where
  links : DoublyLinked s.next s.prev emptyListItem (l.map item)
  head : s.head = position l
  tail : s.tail = lastPosition l
  free : ∀ x, x ∉ l → s.next (item x) = none ∧ s.prev (item x) = none

variable {s s' : IntrusiveList α} {l a b : List α} {x y : α}

@[simp] theorem position_nil : position ([] : List α) = emptyListItem := rfl

@[simp] theorem position_cons (x : α) (l : List α) : position (x :: l) = item x := rfl

@[simp] theorem lastPosition_nil : lastPosition ([] : List α) = emptyListItem := rfl

@[simp] theorem lastPosition_concat (l : List α) (x : α) : lastPosition (l ++ [x]) = item x := by
  simp [lastPosition]

theorem lastPosition_append_cons (a b : List α) (x : α) :
    lastPosition (a ++ x :: b) = lastPosition (x :: b) := by
  rw [lastPosition, List.map_append, List.getLast?_append_of_ne_nil _ (by simp)]
  rfl

theorem lastPosition_cons_cons (x y : α) (l : List α) :
    lastPosition (x :: y :: l) = lastPosition (y :: l) := by
  simp [lastPosition]

/-- The circle is cut after `a`: what comes before the cut. -/
theorem exists_last (a : List α) : ∃ c, emptyListItem :: a.map item = c ++ [lastPosition a] := by
  obtain rfl | ⟨a, x, rfl⟩ := a.eq_nil_or_concat
  · exact ⟨[], rfl⟩
  · exact ⟨emptyListItem :: a.map item, by simp⟩

/-- The circle is cut before `b`: what comes after the cut. -/
theorem exists_first (b : List α) : ∃ d, b.map item ++ [emptyListItem] = position b :: d := by
  cases b with
  | nil => exact ⟨[], rfl⟩
  | cons x b => exact ⟨b.map item ++ [emptyListItem], rfl⟩

theorem position_eq_emptyListItem : position l = emptyListItem ↔ l = [] := by
  cases l <;> simp

theorem notMem_items (hx : x ∉ l) : item x ∉ emptyListItem :: l.map item := by
  simpa using hx

theorem ne_position (hx : x ∉ l) : item x ≠ position l := by
  cases l with
  | nil => nofun
  | cons y l => simpa using ne_of_mem_of_not_mem List.mem_cons_self hx |>.symm

theorem ne_lastPosition (hx : x ∉ l) : item x ≠ lastPosition l := by
  obtain rfl | ⟨l, y, rfl⟩ := l.eq_nil_or_concat
  · nofun
  · rw [List.concat_eq_append, lastPosition_concat]
    rintro ⟨⟩
    exact hx (by simp)

theorem lastPosition_eq_emptyListItem : lastPosition l = emptyListItem ↔ l = [] := by
  obtain rfl | ⟨l, y, rfl⟩ := l.eq_nil_or_concat <;> simp

theorem position_append : position (a ++ b) = if a = [] then position b else position a := by
  cases a <;> simp

theorem lastPosition_append : lastPosition (a ++ b) = if b = [] then lastPosition a else lastPosition b := by
  cases b with
  | nil => simp
  | cons y b => rw [lastPosition_append_cons, if_neg (List.cons_ne_nil y b)]

namespace Forms

theorem nodup (h : s.Forms l) : l.Nodup := List.Nodup.of_map _ (List.nodup_cons.1 h.links.nodup).2

/-- The item is in neither part of the list that is around it. -/
theorem notMem_split (h : s.Forms (a ++ x :: b)) : x ∉ a ++ b :=
  (List.nodup_cons.1 (List.nodup_middle.1 h.nodup)).1

/-- **The two positions at a cut** point to each other. -/
theorem adjacent (h : s.Forms (a ++ b)) :
    s.next (lastPosition a) = some (position b) ∧ s.prev (position b) = some (lastPosition a) := by
  obtain ⟨c, hc⟩ := exists_last a
  obtain ⟨d, hd⟩ := exists_first b
  have hlinks : DoublyLinked s.next s.prev emptyListItem (a.map item ++ b.map item) := by
    simpa using h.links
  exact ⟨hlinks.next_eq hc hd, hlinks.prev_eq hc hd⟩

theorem next_eq (h : s.Forms (a ++ x :: b)) : s.next (item x) = some (position b) := by
  have hcut : s.Forms ((a ++ [x]) ++ b) := by simpa using h
  simpa using hcut.adjacent.1

theorem prev_eq (h : s.Forms (a ++ b)) : s.prev (position b) = some (lastPosition a) := h.adjacent.2

theorem next_end (h : s.Forms l) : s.next emptyListItem = some (position l) :=
  Forms.adjacent (a := []) h |>.1

theorem prev_end (h : s.Forms l) : s.prev emptyListItem = some (lastPosition l) :=
  Forms.adjacent (b := []) (by rwa [List.append_nil]) |>.2

theorem isEmpty_iff [DecidableEq α] (h : s.Forms l) : s.isEmpty = true ↔ l = [] := by
  simp only [isEmpty, decide_eq_true_eq, h.head, position_eq_emptyListItem]

end Forms

namespace IsList

theorem forms (h : s.IsList l) : s.Forms l := ⟨h.links, h.head, h.tail⟩

theorem nodup (h : s.IsList l) : l.Nodup := h.forms.nodup

theorem next_eq (h : s.IsList (a ++ x :: b)) : s.next (item x) = some (position b) := h.forms.next_eq

theorem prev_eq (h : s.IsList (a ++ b)) : s.prev (position b) = some (lastPosition a) := h.forms.prev_eq

theorem next_end (h : s.IsList l) : s.next emptyListItem = some (position l) := h.forms.next_end

theorem isEmpty_iff [DecidableEq α] (h : s.IsList l) : s.isEmpty = true ↔ l = [] := h.forms.isEmpty_iff

end IsList

theorem KeepsOthers.unlinked (h : s.KeepsOthers s' l) (hy : y ∉ l) (hu : s.Unlinked y) : s'.Unlinked y :=
  ⟨(h y hy).1.trans hu.1, (h y hy).2.trans hu.2⟩

variable [DecidableEq α]

theorem forms_construct (next prev : ListItem α → Option (ListItem α)) : (construct next prev).Forms [] where
  links := DoublyLinked.nil (by simp [construct]) (by simp [construct])
  head := rfl
  tail := rfl

/-! ## What the operations do -/

/-- The list with an item linked between `a` and `b`. -/
def linked (s : IntrusiveList α) (a : List α) (x : α) (b : List α) : IntrusiveList α where
  next := Function.update (Function.update s.next (item x) (some (position b))) (lastPosition a)
    (some (item x))
  prev := Function.update (Function.update s.prev (item x) (some (lastPosition a))) (position b)
    (some (item x))
  head := position (a ++ x :: b)
  tail := lastPosition (a ++ x :: b)

/-- **An item is linked between `a` and `b`**, and the ends are set. -/
theorem Forms.linked (h : s.Forms (a ++ b)) (hx : x ∉ a ++ b) :
    (s.linked a x b).Forms (a ++ x :: b) ∧ s.KeepsOthers (s.linked a x b) (a ++ x :: b) := by
  refine ⟨⟨?_, rfl, rfl⟩, fun y hy => ?_⟩
  · obtain ⟨c, hc⟩ := exists_last a
    obtain ⟨d, hd⟩ := exists_first b
    have hlinks : DoublyLinked s.next s.prev emptyListItem (a.map item ++ b.map item) := by
      simpa using h.links
    have hnot : item x ∉ emptyListItem :: (a.map item ++ b.map item) := by simpa using hx
    simpa [IntrusiveList.linked] using hlinks.insert hnot hc hd
  · simp only [List.mem_append, List.mem_cons, not_or] at hy
    obtain ⟨hya, hyx, hyb⟩ := hy
    have hne : item y ≠ item x := fun he => hyx (ListItem.item.inj he)
    simp only [IntrusiveList.linked, Function.update_of_ne (ne_lastPosition hya),
      Function.update_of_ne (ne_position hyb), Function.update_of_ne hne, and_self]

theorem Forms.insert_eq (h : s.Forms (a ++ b)) (hx : x ∉ a ++ b) :
    s.insert (position b) x = some (s.linked a x b) := by
  have hxa : x ∉ a := fun hm => hx (List.mem_append_left _ hm)
  have hxb : x ∉ b := fun hm => hx (List.mem_append_right _ hm)
  unfold IntrusiveList.insert
  by_cases hnil : a ++ b = []
  · obtain ⟨rfl, rfl⟩ := List.append_eq_nil_iff.1 hnil
    rw [if_pos (show s.head = emptyListItem from h.head)]
    rfl
  · rw [if_neg (by rwa [h.head, position_eq_emptyListItem]), h.prev_eq, h.head, h.tail]
    simp only [Option.bind_eq_bind, Option.bind_some, Function.update_of_ne (ne_lastPosition hxa),
      Function.update_of_ne (ne_position hxb), Function.update_self, Option.some.injEq,
      lastPosition_eq_emptyListItem, position_eq_emptyListItem, IntrusiveList.linked]
    rw [position_append, position_append (b := x :: b), lastPosition_append, lastPosition_append_cons]
    congr 1
    · by_cases ha : a = [] <;> simp [ha]
    · cases b with
      | nil => simp [lastPosition]
      | cons y b => simp [lastPosition_cons_cons]

theorem Forms.pushBack_eq (h : s.Forms l) : s.pushBack x = s.linked l x [] := by
  unfold IntrusiveList.pushBack
  rw [h.head, h.tail, IntrusiveList.linked]
  cases l with
  | nil => rfl
  | cons y l => rw [if_neg (by simp), lastPosition_concat]; rfl

theorem Forms.pushFront_eq (h : s.Forms l) : s.pushFront x = s.linked [] x l := by
  unfold IntrusiveList.pushFront
  rw [h.head, h.tail, IntrusiveList.linked]
  cases l with
  | nil => rfl
  | cons y l => rw [if_pos (by simp)]; rfl

/-- The list with the item between `a` and `b` removed. -/
def unlinked (s : IntrusiveList α) (a : List α) (x : α) (b : List α) : IntrusiveList α where
  next := Function.update (Function.update s.next (lastPosition a) (some (position b))) (item x) none
  prev := Function.update (Function.update s.prev (position b) (some (lastPosition a))) (item x) none
  head := position (a ++ b)
  tail := lastPosition (a ++ b)

/-- **The item between `a` and `b` is removed**: its pointers are null. -/
theorem Forms.unlinked (h : s.Forms (a ++ x :: b)) : (s.unlinked a x b).Forms (a ++ b) ∧
    (s.unlinked a x b).Unlinked x ∧ s.KeepsOthers (s.unlinked a x b) (a ++ x :: b) := by
  refine ⟨⟨?_, rfl, rfl⟩, ⟨Function.update_self _ _ _, Function.update_self _ _ _⟩, fun y hy => ?_⟩
  · obtain ⟨c, hc⟩ := exists_last a
    obtain ⟨d, hd⟩ := exists_first b
    have hlinks : DoublyLinked s.next s.prev emptyListItem (a.map item ++ item x :: b.map item) := by
      simpa using h.links
    refine DoublyLinked.congr (by simpa using hlinks.remove hc hd) (fun y hy => ?_) fun y hy => ?_
    all_goals
      refine Function.update_of_ne ?_ _ _
      rintro rfl
      exact notMem_items h.notMem_split hy
  · simp only [List.mem_append, List.mem_cons, not_or] at hy
    obtain ⟨hya, hyx, hyb⟩ := hy
    have hne : item y ≠ item x := fun he => hyx (ListItem.item.inj he)
    simp only [IntrusiveList.unlinked, Function.update_of_ne hne,
      Function.update_of_ne (ne_lastPosition hya), Function.update_of_ne (ne_position hyb), and_self]

theorem Forms.erase_eq (h : s.Forms (a ++ x :: b)) :
    s.erase (item x) = (s.unlinked a x b, position b) := by
  have hprev : s.prev (item x) = some (lastPosition a) := h.prev_eq (b := x :: b)
  have hfirst := h.unlinked.1.next_end
  have hlast := h.unlinked.1.prev_end
  simp only [IntrusiveList.unlinked] at hfirst hlast
  simp only [IntrusiveList.erase, h.next_eq, hprev, reduceCtorEq, if_false, hfirst, hlast,
    Option.getD_some, IntrusiveList.unlinked]

/-- The only item is removed. -/
theorem Forms.removeLastItem_eq (h : s.Forms [x]) : s.removeLastItem = s.unlinked [] x [] := by
  have hne : item x ≠ emptyListItem := nofun
  rw [removeLastItem, IntrusiveList.unlinked, h.head]
  simp only [position_cons, position_nil, lastPosition_nil, List.append_nil,
    Function.update_comm hne]

theorem Forms.popBack_eq (h : s.Forms (l ++ [x])) : s.popBack = some (s.unlinked l x []) := by
  rw [popBack, h.head, h.tail, lastPosition_concat]
  by_cases hl : l = []
  · subst hl
    rw [if_pos (show item x = position ([] ++ [x]) from rfl), Forms.removeLastItem_eq h]
  · have hx : x ∉ l := by simpa using h.notMem_split
    have hpos : position (l ++ [x]) = position l := by rw [position_append, if_neg hl]
    have hprev : s.prev (item x) = some (lastPosition l) := h.prev_eq (b := [x])
    rw [hpos, if_neg (ne_position hx), hprev]
    simp [IntrusiveList.unlinked]

theorem Forms.popFront_eq (h : s.Forms (x :: l)) : s.popFront = some (s.unlinked [] x l) := by
  rw [popFront, h.head, h.tail, position_cons]
  by_cases hl : l = []
  · subst hl
    rw [if_pos (show lastPosition [x] = item x from rfl), Forms.removeLastItem_eq h]
  · have hx : x ∉ l := Forms.notMem_split (a := []) h
    have hlast : lastPosition (x :: l) = lastPosition l := by
      rw [← List.singleton_append, lastPosition_append, if_neg hl]
    have hnext : s.next (item x) = some (position l) := Forms.next_eq (a := []) h
    rw [hlast, if_neg (ne_lastPosition hx).symm, hnext]
    simp [IntrusiveList.unlinked]

/-- Nothing is removed from a list without items. -/
theorem Forms.pop_nil (h : s.Forms []) : s.popBack = some s ∧ s.popFront = some s := by
  have hsame : s.removeLastItem = s := by
    have hhead : s.head = emptyListItem := h.head
    have htail : s.tail = emptyListItem := h.tail
    have hnext := h.next_end
    have hprev := h.prev_end
    rw [position_nil] at hnext
    rw [lastPosition_nil] at hprev
    rw [removeLastItem, hhead, Function.update_idem, Function.update_idem]
    nth_rewrite 1 [← hnext]
    nth_rewrite 1 [← hprev]
    rw [Function.update_eq_self, Function.update_eq_self, ← hhead]
    nth_rewrite 2 [hhead]
    rw [← htail]
  have hends : s.tail = s.head := h.tail.trans h.head.symm
  exact ⟨by rw [popBack, if_pos hends, hsame], by rw [popFront, if_pos hends, hsame]⟩

/-- Erasing the end changes nothing. -/
theorem Forms.erase_end (h : s.Forms l) : s.erase emptyListItem = (s, emptyListItem) := by
  simp [erase, h.next_end, h.prev_end]

/-- Erasing an item that is in no list changes nothing. -/
theorem Unlinked.erase_eq (h : s.Unlinked x) : s.erase (item x) = (s, item x) := by
  rw [erase, h.1]

/-! ## Lists with null pointers outside -/

namespace IsList

/-- The items that are not in the list keep their null pointers. -/
theorem of_forms (h : s.IsList l) (hf : s'.Forms a) (hk : s.KeepsOthers s' b) (hl : l ⊆ b)
    (hu : ∀ y ∈ b, y ∉ a → s'.Unlinked y) : s'.IsList a where
  links := hf.links
  head := hf.head
  tail := hf.tail
  free y hy := by
    by_cases hb : y ∈ b
    · exact hu y hb hy
    · exact hk.unlinked hb (h.free y fun hyl => hb (hl hyl))

theorem linked (h : s.IsList (a ++ b)) (hx : x ∉ a ++ b) : (s.linked a x b).IsList (a ++ x :: b) := by
  obtain ⟨hf, hk⟩ := h.forms.linked hx
  exact h.of_forms hf hk (by simp) fun y hy hny => absurd hy hny

theorem insert (h : s.IsList (a ++ b)) (hx : x ∉ a ++ b) :
    ∃ s', s.insert (position b) x = some s' ∧ s'.IsList (a ++ x :: b) :=
  ⟨_, h.forms.insert_eq hx, h.linked hx⟩

theorem pushBack (h : s.IsList l) (hx : x ∉ l) : (s.pushBack x).IsList (l ++ [x]) := by
  rw [h.forms.pushBack_eq]
  exact IsList.linked (by simpa using h) (by simpa using hx)

theorem pushFront (h : s.IsList l) (hx : x ∉ l) : (s.pushFront x).IsList (x :: l) := by
  rw [h.forms.pushFront_eq]
  exact IsList.linked (a := []) h hx

theorem erase (h : s.IsList (a ++ x :: b)) :
    ∃ s', s.erase (item x) = (s', position b) ∧ s'.IsList (a ++ b) := by
  obtain ⟨hf, hu, hk⟩ := h.forms.unlinked
  refine ⟨_, h.forms.erase_eq, h.of_forms hf hk (List.Subset.refl _) fun y hy hny => ?_⟩
  obtain rfl : y = x := by
    simp only [List.mem_append, List.mem_cons, not_or] at hy hny
    tauto
  exact hu

end IsList

theorem isList_new : (new : IntrusiveList α).IsList [] where
  links := DoublyLinked.nil rfl rfl
  head := rfl
  tail := rfl
  free _ _ := ⟨rfl, rfl⟩

end IntrusiveList

end Miosix
