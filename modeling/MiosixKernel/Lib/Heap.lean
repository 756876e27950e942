import Mathlib.Order.WithBot
import Mathlib.Data.List.Perm.Basic
import Mathlib.Data.List.Nodup
import Mathlib.Tactic.SplitIfs

/-!
# Binary heaps in arrays

The heap operations of the C++ standard library, on a list that stands for the range and a key to compare
the elements by. A place past the end of the range has the key `⊥`, so that the order of a heap can be
stated without bounds.

* `IsHeap`: no element has a larger key than its parent;
* `siftUp`, `siftDown`: move one element to where it belongs;
* **`isHeap_pushHeap`**, **`isHeap_popHeap`**, **`isHeap_makeHeap`**: the operations make heaps of
  permutations of the range, and the front of a heap has the largest key.
-/

namespace Lib

variable {α P : Type}

/-! ## The order -/

/-- The key at a place of the range. -/
def keyAt (key : α → P) (l : List α) (i : ℕ) : WithBot P := l[i]?.elim ⊥ fun x => (key x : WithBot P)

theorem keyAt_of_le {key : α → P} {l : List α} {i : ℕ} (h : l.length ≤ i) : keyAt key l i = ⊥ := by
  simp [keyAt, List.getElem?_eq_none h]

theorem keyAt_of_lt {key : α → P} {l : List α} {i : ℕ} (h : i < l.length) : keyAt key l i = key l[i] := by
  simp [keyAt, List.getElem?_eq_getElem h]

theorem keyAt_swap {key : α → P} {l : List α} {i j : ℕ} (hi : i < l.length) (hj : j < l.length)
    (k : ℕ) : keyAt key (l.swap i j) k =
      if k = i then keyAt key l j else if k = j then keyAt key l i else keyAt key l k := by
  by_cases hk : k < l.length
  · rw [keyAt_of_lt (by simpa using hk), List.getElem_swap]
    split_ifs <;> simp_all [keyAt_of_lt]
  · rw [keyAt_of_le (by simpa using hk), if_neg (by omega), if_neg (by omega),
      keyAt_of_le (by simpa using hk)]

theorem keyAt_append_of_lt {key : α → P} {l : List α} {i : ℕ} {x : α} (h : i < l.length) :
    keyAt key (l ++ [x]) i = keyAt key l i := by
  simp [keyAt, List.getElem?_append_left h]

theorem keyAt_dropLast_of_lt {key : α → P} {l : List α} {i : ℕ} (h : i < l.length - 1) :
    keyAt key l.dropLast i = keyAt key l i := by
  rw [keyAt, keyAt, List.getElem?_dropLast, if_pos h]

variable [LinearOrder P] {key : α → P} {l : List α} {a : ℕ → WithBot P} {i k : ℕ}

/-- The key at a place is less than that at another one. -/
def lessAt (key : α → P) (l : List α) (i j : ℕ) : Bool :=
  match l[i]?, l[j]? with
  | some x, some y => key x < key y
  | none, some _ => true
  | _, none => false

theorem lessAt_iff {i j : ℕ} : lessAt key l i j = true ↔ keyAt key l i < keyAt key l j := by
  unfold lessAt keyAt
  cases l[i]? <;> cases l[j]? <;> simp

/-- From place `k` on, no element has a larger key than its parent. -/
def OrderedFrom (k : ℕ) (a : ℕ → WithBot P) : Prop :=
  ∀ j, 0 < j → k ≤ (j - 1) / 2 → a j ≤ a ((j - 1) / 2)

/-- The range is a heap. -/
def IsHeap (key : α → P) (l : List α) : Prop := OrderedFrom 0 (keyAt key l)

theorem lt_length_of_lessAt {i j : ℕ} (h : lessAt key l i j = true) : j < l.length := by
  by_contra hj
  rw [lessAt_iff, keyAt_of_le (not_lt.1 hj)] at h
  exact not_lt_bot h

theorem isHeap_nil : IsHeap key ([] : List α) := fun j _ _ => by
  rw [keyAt_of_le (Nat.zero_le j)]
  exact bot_le

/-- The front of a heap has the largest key. -/
theorem IsHeap.le_front (h : IsHeap key l) : ∀ i, keyAt key l i ≤ keyAt key l 0
  | 0 => le_rfl
  | i + 1 => (h (i + 1) (Nat.succ_pos i) (Nat.zero_le _)).trans (le_front h ((i + 1 - 1) / 2))

theorem IsHeap.key_le_front {x y : α} {l : List α} (h : IsHeap key (x :: l)) (hy : y ∈ x :: l) :
    key y ≤ key x := by
  obtain ⟨i, hi, rfl⟩ := List.getElem_of_mem hy
  have := h.le_front i
  rw [keyAt_of_lt hi, keyAt_of_lt (Nat.succ_pos _)] at this
  exact WithBot.coe_le_coe.1 this

theorem IsHeap.congr {key' : α → P} (h : IsHeap key l) (heq : ∀ x ∈ l, key' x = key x) :
    IsHeap key' l := by
  have hkey : keyAt key' l = keyAt key l := by
    funext i
    unfold keyAt
    cases hi : l[i]? with
    | none => rfl
    | some x => simp [heq x (List.mem_of_getElem? hi)]
  rw [IsHeap, hkey]
  exact h

/-! ## Moving up -/

/-- Move the element at a place up until its parent has a key that is not less. -/
def siftUp (key : α → P) : ℕ → List α → ℕ → List α
  | 0, l, _ => l
  | fuel + 1, l, i =>
    if i ≠ 0 ∧ lessAt key l ((i - 1) / 2) i then siftUp key fuel (l.swap i ((i - 1) / 2)) ((i - 1) / 2)
    else l

/-- Only the element at `i` may have a larger key than its parent. -/
structure OrderedBut (a : ℕ → WithBot P) (i : ℕ) : Prop where
  except : ∀ j, 0 < j → j ≠ i → a j ≤ a ((j - 1) / 2)
  grand : 0 < i → ∀ j, 0 < j → (j - 1) / 2 = i → a j ≤ a ((i - 1) / 2)

/-- The keys after two elements were exchanged. -/
def swapped (a : ℕ → WithBot P) (i j : ℕ) (k : ℕ) : WithBot P :=
  if k = i then a j else if k = j then a i else a k

omit [LinearOrder P] in
theorem keyAt_swap_eq {j : ℕ} (hi : i < l.length) (hj : j < l.length) :
    keyAt key (l.swap i j) = swapped (keyAt key l) i j :=
  funext fun k => keyAt_swap hi hj k

theorem OrderedBut.move (h : OrderedBut a i) (h0 : 0 < i) (hless : a ((i - 1) / 2) < a i) :
    OrderedBut (swapped a i ((i - 1) / 2)) ((i - 1) / 2) := by
  constructor
  · intro j hj hjp
    unfold swapped
    have h1 := h.except j hj
    have h2 := h.grand h0 j hj
    by_cases hji : j = i
    · rw [if_pos hji, if_neg (by omega), if_pos (by rw [hji])]
      exact hless.le
    · rw [if_neg hji, if_neg hjp]
      split_ifs with hpi hpp
      · exact h2 hpi
      · exact (h1 hji).trans (hpp ▸ hless.le)
      · exact h1 hji
  · intro hp j hj hjp
    have hup := h.except ((i - 1) / 2) hp (by omega)
    unfold swapped
    rw [if_neg (c := ((i - 1) / 2 - 1) / 2 = i) (by omega),
      if_neg (c := ((i - 1) / 2 - 1) / 2 = (i - 1) / 2) (by omega), if_neg (c := j = (i - 1) / 2) (by omega)]
    split_ifs with hji
    · exact hup
    · exact (hjp ▸ h.except j hj hji).trans hup

theorem siftUp_perm (key : α → P) : ∀ (fuel : ℕ) (l : List α) (i : ℕ), (siftUp key fuel l i).Perm l
  | 0, l, _ => .refl l
  | fuel + 1, l, i => by
    rw [siftUp]
    split_ifs
    · exact (siftUp_perm key fuel _ _).trans (l.swap_perm i ((i - 1) / 2))
    · exact .refl l

theorem isHeap_siftUp : ∀ (fuel : ℕ) {l : List α} {i : ℕ}, i ≤ fuel → i < l.length →
    OrderedBut (keyAt key l) i → IsHeap key (siftUp key fuel l i)
  | 0, l, i, hi, _, h => fun j hj _ => h.except j hj (by omega)
  | fuel + 1, l, i, hi, hil, h => by
    rw [siftUp]
    split_ifs with hc
    · obtain ⟨h0, hless⟩ := hc
      rw [lessAt_iff] at hless
      have hpl : (i - 1) / 2 < l.length := by omega
      refine isHeap_siftUp fuel (by omega) (by simpa using hpl) ?_
      rw [keyAt_swap_eq hil hpl]
      exact h.move (by omega) hless
    · intro j hj _
      by_cases hji : j = i
      · subst hji
        rw [not_and, lessAt_iff, not_lt] at hc
        exact hc (by omega)
      · exact h.except j hj hji

/-! ## Moving down -/

/-- The child with the larger key. -/
def largerChild (key : α → P) (l : List α) (i : ℕ) : ℕ :=
  if lessAt key l (2 * i + 1) (2 * i + 2) then 2 * i + 2 else 2 * i + 1

/-- Move the element at a place down until no child has a larger key. -/
def siftDown (key : α → P) : ℕ → List α → ℕ → List α
  | 0, l, _ => l
  | fuel + 1, l, i =>
    if lessAt key l i (largerChild key l i) then
      siftDown key fuel (l.swap i (largerChild key l i)) (largerChild key l i)
    else l

/-- From place `k` on, only the element at `i` may have a smaller key than a child. -/
structure OrderedFromBut (k : ℕ) (a : ℕ → WithBot P) (i : ℕ) : Prop where
  except : ∀ j, 0 < j → k ≤ (j - 1) / 2 → (j - 1) / 2 ≠ i → a j ≤ a ((j - 1) / 2)
  grand : 0 < i → k ≤ (i - 1) / 2 → ∀ j, 0 < j → (j - 1) / 2 = i → a j ≤ a ((i - 1) / 2)

theorem OrderedFromBut.move {c : ℕ} (h : OrderedFromBut k a i) (hk : k ≤ i) (hc : 0 < c)
    (hci : (c - 1) / 2 = i) (hmax : ∀ j, 0 < j → (j - 1) / 2 = i → a j ≤ a c) (hless : a i < a c) :
    OrderedFromBut k (swapped a i c) c := by
  constructor
  · intro j hj hkj hjc
    unfold swapped
    rw [if_neg (c := (j - 1) / 2 = c) hjc]
    by_cases hji : (j - 1) / 2 = i
    · rw [if_pos hji, if_neg (by omega)]
      split_ifs
      · exact hless.le
      · exact hmax j hj hji
    · rw [if_neg (c := (j - 1) / 2 = i) hji]
      split_ifs with h1 h2
      · subst h1
        exact h.grand hj hkj c hc hci
      · subst h2
        exact absurd hci hji
      · exact h.except j hj hkj hji
  · intro _ _ j hj hjc
    unfold swapped
    rw [hci, if_pos rfl, if_neg (by omega), if_neg (by omega), ← hjc]
    exact h.except j hj (by omega) (by omega)

theorem largerChild_spec (key : α → P) (l : List α) (i : ℕ) :
    0 < largerChild key l i ∧ (largerChild key l i - 1) / 2 = i ∧
      ∀ j, 0 < j → (j - 1) / 2 = i → keyAt key l j ≤ keyAt key l (largerChild key l i) := by
  unfold largerChild
  split_ifs with h
  · rw [lessAt_iff] at h
    refine ⟨by omega, by omega, fun j hj hji => ?_⟩
    obtain rfl | rfl : j = 2 * i + 1 ∨ j = 2 * i + 2 := by omega
    · exact h.le
    · exact le_rfl
  · rw [lessAt_iff, not_lt] at h
    refine ⟨by omega, by omega, fun j hj hji => ?_⟩
    obtain rfl | rfl : j = 2 * i + 1 ∨ j = 2 * i + 2 := by omega
    · exact le_rfl
    · exact h

theorem siftDown_perm (key : α → P) :
    ∀ (fuel : ℕ) (l : List α) (i : ℕ), (siftDown key fuel l i).Perm l
  | 0, l, _ => .refl l
  | fuel + 1, l, i => by
    rw [siftDown]
    split_ifs
    · exact (siftDown_perm key fuel _ _).trans (l.swap_perm i _)
    · exact .refl l

theorem orderedFrom_siftDown : ∀ (fuel : ℕ) {l : List α} {i : ℕ}, l.length ≤ fuel + i → k ≤ i →
    OrderedFromBut k (keyAt key l) i → OrderedFrom k (keyAt key (siftDown key fuel l i))
  | 0, l, i, hl, hk, h => fun j hj hkj => by
    by_cases hji : (j - 1) / 2 = i
    · rw [siftDown, keyAt_of_le (by omega)]
      exact bot_le
    · exact h.except j hj hkj hji
  | fuel + 1, l, i, hl, hk, h => by
    obtain ⟨hc, hci, hmax⟩ := largerChild_spec key l i
    rw [siftDown]
    split_ifs with hless
    · have hcl := lt_length_of_lessAt hless
      rw [lessAt_iff] at hless
      refine orderedFrom_siftDown fuel (by simp only [List.length_swap]; omega) (by omega) ?_
      rw [keyAt_swap_eq (by omega) hcl]
      exact h.move hk hc hci hmax hless
    · rw [lessAt_iff, not_lt] at hless
      intro j hj hkj
      by_cases hji : (j - 1) / 2 = i
      · rw [hji]
        exact (hmax j hj hji).trans hless
      · exact h.except j hj hkj hji

/-! ## The operations -/

/-- `std::push_heap`: the last element of the range is new. -/
def pushHeap (key : α → P) (l : List α) : List α := siftUp key l.length l (l.length - 1)

/-- `std::pop_heap`: the front of the range goes to its end, and the rest is a heap again. -/
def popHeap (key : α → P) (l : List α) : List α :=
  match l with
  | [] => []
  | x :: _ => siftDown key l.length (l.swap 0 (l.length - 1)).dropLast 0 ++ [x]

/-- The loop of `std::make_heap`, over the places that have children. -/
def makeHeapFrom (key : α → P) : ℕ → List α → List α
  | 0, l => l
  | k + 1, l => makeHeapFrom key k (siftDown key l.length l k)

/-- `std::make_heap`. -/
def makeHeap (key : α → P) (l : List α) : List α := makeHeapFrom key (l.length / 2) l

theorem pushHeap_perm (key : α → P) (l : List α) : (pushHeap key l).Perm l := siftUp_perm key _ _ _

theorem isHeap_pushHeap (h : IsHeap key l) (x : α) : IsHeap key (pushHeap key (l ++ [x])) := by
  refine isHeap_siftUp _ (by simp) (by simp) ⟨fun j hj hjl => ?_, fun _ j hj hjl => ?_⟩
  · simp only [List.length_append, List.length_singleton, Nat.add_sub_cancel] at hjl
    by_cases hlt : j < l.length
    · rw [keyAt_append_of_lt hlt, keyAt_append_of_lt (by omega)]
      exact h j hj (Nat.zero_le _)
    · rw [keyAt_of_le (by simp only [List.length_append, List.length_singleton]; omega)]
      exact bot_le
  · rw [keyAt_of_le]
    · exact bot_le
    · simp only [List.length_append, List.length_singleton] at hjl ⊢
      omega

theorem makeHeapFrom_perm (key : α → P) : ∀ (k : ℕ) (l : List α), (makeHeapFrom key k l).Perm l
  | 0, l => .refl l
  | k + 1, _ => (makeHeapFrom_perm key k _).trans (siftDown_perm key _ _ _)

theorem makeHeap_perm (key : α → P) (l : List α) : (makeHeap key l).Perm l := makeHeapFrom_perm key _ l

theorem isHeap_makeHeapFrom : ∀ (k : ℕ) {l : List α}, OrderedFrom k (keyAt key l) →
    IsHeap key (makeHeapFrom key k l)
  | 0, _, h => h
  | k + 1, _, h => by
    refine isHeap_makeHeapFrom k (orderedFrom_siftDown _ (by omega) le_rfl ⟨?_, ?_⟩)
    · exact fun j hj hkj hjk => h j hj (by omega)
    · exact fun _ hk => by omega

theorem isHeap_makeHeap (key : α → P) (l : List α) : IsHeap key (makeHeap key l) := by
  refine isHeap_makeHeapFrom _ fun j hj hk => ?_
  rw [keyAt_of_le (by omega)]
  exact bot_le

omit [LinearOrder P] in
theorem dropLast_swap_concat (x : α) (l : List α) :
    ((x :: l).swap 0 l.length).dropLast ++ [x] = (x :: l).swap 0 l.length := by
  have hne : (x :: l).swap 0 l.length ≠ [] := List.ne_nil_of_length_pos (by simp)
  have hlast : ((x :: l).swap 0 l.length).getLast hne = x := by
    simp [List.getLast_eq_getElem]
  conv_rhs => rw [← List.dropLast_append_getLast hne, hlast]

theorem popHeap_perm (key : α → P) (x : α) (l : List α) :
    (popHeap key (x :: l)).dropLast.Perm l := by
  rw [popHeap, List.dropLast_concat]
  refine (siftDown_perm key _ _ _).trans (List.Perm.cons_inv (a := x) ?_)
  refine (List.perm_append_singleton x _).symm.trans ?_
  rw [List.length_cons, Nat.add_sub_cancel, dropLast_swap_concat]
  exact List.swap_perm _ _ _

theorem isHeap_popHeap {x : α} (h : IsHeap key (x :: l)) :
    IsHeap key (popHeap key (x :: l)).dropLast := by
  rw [popHeap, List.dropLast_concat, List.length_cons, Nat.add_sub_cancel]
  have hkey : ∀ i, 0 < i → i < l.length →
      keyAt key ((x :: l).swap 0 l.length).dropLast i = keyAt key (x :: l) i := by
    intro i h0 hi
    rw [keyAt_dropLast_of_lt (by simpa using hi), keyAt_swap (by simp) (by simp), if_neg (by omega),
      if_neg (by omega)]
  refine orderedFrom_siftDown _ (by simp) le_rfl ⟨fun j hj _ hj0 => ?_, fun h0 => absurd h0 (lt_irrefl 0)⟩
  by_cases hlt : j < l.length
  · rw [hkey j hj hlt, hkey _ (by omega) (by omega)]
    exact h j hj (Nat.zero_le _)
  · rw [keyAt_of_le (by simpa using hlt)]
    exact bot_le

end Lib
