import MiosixKernel.Lib.Circular
import MiosixKernel.Sched.Model

/-!
# The priority scheduler: one list

A list that holds `w` has the first element of `w` as its head, and is searched from the second one
on: the head is the thread that was selected last.

* `links`, `Holds`: what a list holds;
* `Changes`: what an operation on a list leaves alone;
* `insert_spec`, `remove_spec`, `purgeList_spec`, `findIn_spec`: the operations, which return for
  every large enough fuel.
-/

namespace Miosix

namespace PriorityScheduler

open Lib

variable {T : Type}

/-- The links between the threads. -/
def links (s : PriorityScheduler T) (t : T) : Option T := (s.mem t).bind Thread.next

/-- The list of priority `i` holds the threads `w`, from the head on. -/
def Holds (s : PriorityScheduler T) (i : ℕ) : List T → Prop
  | [] => s.threadList i = none
  | h :: m => s.threadList i = some h ∧ Circular s.links h m

/-- The flags of a thread say that it is to be removed. -/
def deleted (s : PriorityScheduler T) (t : T) : Bool := (s.mem t).any Thread.isDeleted

def ready (s : PriorityScheduler T) (t : T) : Bool := (s.mem t).any Thread.isReady

def priorityOf (s : PriorityScheduler T) (t : T) : Option ℕ := (s.mem t).map Thread.priority

/-- What no operation on the lists changes. -/
def env (s : PriorityScheduler T) : T × T × ℕ := (s.idle, s.cur, s.kernelRunning)

def flagsOf (s : PriorityScheduler T) (t : T) : Option ℕ := (s.mem t).map Thread.flags

theorem deleted_eq_flagsOf (s : PriorityScheduler T) (t : T) :
    s.deleted t = (s.flagsOf t).any fun f => f &&& 0x14 == 0x14 := by
  unfold deleted flagsOf
  cases s.mem t <;> rfl

theorem ready_eq_flagsOf (s : PriorityScheduler T) (t : T) :
    s.ready t = (s.flagsOf t).any fun f => f &&& 0x67 == 0 := by
  unfold ready flagsOf
  cases s.mem t <;> rfl

/-! ## Memory -/

section Memory

variable {s : PriorityScheduler T} {t n : T} {o : Thread T}

theorem load_eq (h : s.mem t = some o) : s.load t = .ok o := by rw [load, h]

theorem links_eq_some (h : s.links t = some n) : ∃ o, s.mem t = some o ∧ o.next = some n :=
  Option.bind_eq_some_iff.mp h

theorem next_eq (h : s.links t = some n) : s.next t = .ok n := by
  obtain ⟨o, ho, hn⟩ := links_eq_some h
  rw [next, load_eq ho]
  simp [hn]

theorem links_of_mem_eq {s' : PriorityScheduler T} (h : s'.mem t = s.mem t) :
    s'.links t = s.links t := by rw [links, links, h]

/-- `s` with another link after `t`. -/
def link [DecidableEq T] (s : PriorityScheduler T) (t n : T) : PriorityScheduler T :=
  { s with mem := Function.update s.mem t ((s.mem t).map fun o => { o with next := some n }) }

variable [DecidableEq T]

theorem modify_eq (h : s.mem t = some o) (f : Thread T → Thread T) :
    s.modify t f = .ok { s with mem := Function.update s.mem t (some (f o)) } := by
  rw [modify, load_eq h]
  rfl

theorem setNext_eq (h : s.mem t = some o) (n : T) : s.setNext t n = .ok (s.link t n) := by
  rw [setNext, modify_eq h, link, h]
  rfl

theorem links_link (h : s.mem t = some o) (n : T) :
    (s.link t n).links = Function.update s.links t (some n) := by
  funext u
  by_cases hu : u = t
  · subst hu
    simp [links, link, h]
  · simp [links, link, hu]

end Memory

/-! ## What an operation leaves alone -/

/-- `s'` differs from `s` in the head of the list `i`, in the links of the threads `l`, and in that
the threads `freed` were freed. -/
structure Changes (s s' : PriorityScheduler T) (i : ℕ) (l freed : List T) : Prop where
  threadList_eq : ∀ j, j ≠ i → s'.threadList j = s.threadList j
  mem_eq : ∀ u, u ∉ l → s'.mem u = s.mem u
  freed_eq : ∀ u ∈ freed, s'.mem u = none
  data_eq : ∀ u, u ∉ freed →
    (s'.mem u).map (fun o => (o.priority, o.flags)) = (s.mem u).map fun o => (o.priority, o.flags)
  env_eq : s'.env = s.env

namespace Changes

variable {s s' s'' : PriorityScheduler T} {i : ℕ} {l l' f f' : List T}

theorem refl (s : PriorityScheduler T) (i : ℕ) (l : List T) : Changes s s i l [] :=
  ⟨fun _ _ => rfl, fun _ _ => rfl, by simp, fun _ _ => rfl, rfl⟩

theorem trans (h : Changes s s' i l f) (h' : Changes s' s'' i l' f') (hl : l' ⊆ l) :
    Changes s s'' i l (f ++ f') where
  threadList_eq j hj := (h'.threadList_eq j hj).trans (h.threadList_eq j hj)
  mem_eq u hu := (h'.mem_eq u fun hu' => hu (hl hu')).trans (h.mem_eq u hu)
  freed_eq u hu := by
    by_cases hf' : u ∈ f'
    · exact h'.freed_eq u hf'
    · have hf : u ∈ f := (List.mem_append.mp hu).resolve_right hf'
      have hd := h'.data_eq u hf'
      rw [h.freed_eq u hf] at hd
      exact Option.map_eq_none_iff.mp hd
  data_eq u hu := by
    obtain ⟨hf, hf'⟩ := not_or.mp (List.mem_append.not.mp hu)
    exact (h'.data_eq u hf').trans (h.data_eq u hf)
  env_eq := h'.env_eq.trans h.env_eq

theorem priorityOf_eq (h : Changes s s' i l f) {u : T} (hu : u ∉ f) :
    s'.priorityOf u = s.priorityOf u := by
  have hd := congrArg (Option.map Prod.fst) (h.data_eq u hu)
  simpa [Option.map_map, Function.comp_def, priorityOf] using hd

theorem flagsOf_eq (h : Changes s s' i l f) {u : T} (hu : u ∉ f) : s'.flagsOf u = s.flagsOf u := by
  have hd := congrArg (Option.map Prod.snd) (h.data_eq u hu)
  simpa [Option.map_map, Function.comp_def, flagsOf] using hd

theorem deleted_eq (h : Changes s s' i l f) {u : T} (hu : u ∉ f) : s'.deleted u = s.deleted u := by
  rw [deleted_eq_flagsOf, deleted_eq_flagsOf, h.flagsOf_eq hu]

theorem setHead (s : PriorityScheduler T) (i : ℕ) (h : Option T) (l : List T) :
    Changes s (s.setHead i h) i l [] :=
  ⟨fun _ hj => Function.update_of_ne hj _ _, fun _ _ => rfl, by simp, fun _ _ => rfl,
    rfl⟩

variable [DecidableEq T]

theorem link (s : PriorityScheduler T) (i : ℕ) {t : T} (n : T) (ht : t ∈ l) :
    Changes s (s.link t n) i l [] := by
  refine ⟨fun _ _ => rfl, fun u hu => ?_, by simp, fun u _ => ?_, rfl⟩
  · exact Function.update_of_ne (fun heq => hu (by rwa [heq])) _ _
  · by_cases hut : u = t
    · subst hut
      simp [PriorityScheduler.link, Function.comp_def]
    · simp [PriorityScheduler.link, hut]

theorem free (s : PriorityScheduler T) (i : ℕ) {t : T} (ht : t ∈ l) :
    Changes s (s.free t) i l [t] := by
  refine ⟨fun _ _ => rfl, fun u hu => ?_, fun u hu => ?_, fun u hu => ?_, rfl⟩
  · exact Function.update_of_ne (fun heq => hu (by rwa [heq])) _ _
  · rw [List.mem_singleton.mp hu]
    exact Function.update_self _ _ _
  · have hut : u ≠ t := fun heq => hu (List.mem_singleton.mpr heq)
    simp [PriorityScheduler.free, hut]

end Changes

/-! ## The operations -/

theorem Holds.nodup {s : PriorityScheduler T} {i : ℕ} {w : List T} (hw : s.Holds i w) : w.Nodup := by
  cases w with
  | nil => exact List.nodup_nil
  | cons h m => exact hw.2.nodup

theorem isDeleted_eq {s : PriorityScheduler T} {x : T} {o : Thread T} (ho : s.mem x = some o) :
    o.isDeleted = s.deleted x := by
  rw [deleted, ho]
  rfl

theorem isReady_eq {s : PriorityScheduler T} {x : T} {o : Thread T} (ho : s.mem x = some o) :
    o.isReady = s.ready x := by
  rw [ready, ho]
  rfl

/-- A list that an operation did not touch. -/
theorem Holds.congr {s s' : PriorityScheduler T} {i : ℕ} {w : List T} (hw : s.Holds i w)
    (hhead : s'.threadList i = s.threadList i) (hlinks : ∀ u ∈ w, s'.links u = s.links u) :
    s'.Holds i w := by
  cases w with
  | nil => exact hhead.trans hw
  | cons h m => exact ⟨hhead.trans hw.1, hw.2.congr hlinks⟩

/-- The thread that is selected becomes the head. -/
theorem holds_setHead {s : PriorityScheduler T} {i : ℕ} {x : T} {a b : List T}
    (hw : s.Holds i (a ++ x :: b)) :
    (s.setHead i (some x)).Holds i (x :: (b ++ a)) := by
  refine ⟨Function.update_self _ _ _, ?_⟩
  cases a with
  | nil =>
    rw [List.append_nil]
    exact hw.2
  | cons h a => exact hw.2.rotate

/-- The threads that survive are those that survive once the first dead ones are gone. -/
theorem filter_dropWhile_dead (dead : T → Bool) (l : List T) :
    l.filter (!dead ·) = (l.dropWhile dead).filter (!dead ·) ∧
      l.filter dead = l.takeWhile dead ++ (l.dropWhile dead).filter dead := by
  induction l with
  | nil => exact ⟨rfl, rfl⟩
  | cons x l ih =>
    by_cases hx : dead x = true
    · simp [hx, ih.1, ih.2]
    · simp [hx]

/-- The order in which a list is searched. -/
def searchOrder (w : List T) : List T := w.tail ++ w.head?.toList

variable [DecidableEq T] {s : PriorityScheduler T} {i fuel : ℕ} {w : List T} {x h : T} {m : List T}

/-- Insertion after the head. -/
def afterHead (x : T) : List T → List T
  | [] => [x]
  | h :: m => h :: x :: m

/-- **Insertion.** -/
theorem insert_spec (hw : s.Holds i w) (hx : x ∉ w) {o : Thread T} (ho : s.mem x = some o) :
    ∃ s', s.insert x i = .ok s' ∧ s'.Holds i (afterHead x w) ∧ Changes s s' i (x :: w) [] := by
  cases w with
  | nil =>
    have hhead : s.threadList i = none := hw
    have ho' : (s.setHead i (some x)).mem x = some o := ho
    refine ⟨(s.setHead i (some x)).link x x, ?_, ⟨Function.update_self _ _ _, ?_⟩, ?_⟩
    · rw [insert, hhead]
      exact setNext_eq ho' x
    · refine Circular.singleton ?_
      rw [links_link ho', Function.update_self]
    · exact (Changes.setHead s i (some x) [x]).trans (Changes.link _ i x List.mem_cons_self)
        (List.Subset.refl _)
  | cons h m =>
    obtain ⟨hhead, hc⟩ := hw
    obtain ⟨n, hn⟩ := hc.exists_next List.mem_cons_self
    obtain ⟨oh, hoh, -⟩ := links_eq_some hn
    have hhx : h ≠ x := fun heq => hx (heq ▸ List.mem_cons_self)
    have hoh' : (s.link x n).mem h = some oh := (Function.update_of_ne hhx _ _).trans hoh
    refine ⟨(s.link x n).link h x, ?_, ⟨hhead, ?_⟩, ?_⟩
    · rw [insert, hhead]
      dsimp only
      rw [next_eq hn, ok_bind, setNext_eq ho, ok_bind, setNext_eq hoh']
    · rw [links_link hoh', links_link ho, ← hn]
      exact hc.cons hx
    · exact (Changes.link s i n List.mem_cons_self).trans
        (Changes.link _ i x (List.mem_cons_of_mem _ List.mem_cons_self)) (List.Subset.refl _)

/-- The walk to the tail of the list. -/
theorem findTail_spec (hc : Circular s.links h m) (hf : m.length < fuel) :
    ∃ p c, h :: m = c ++ [p] ∧ s.findTail fuel h = .ok p := by
  suffices hwalk : ∀ d c tail fuel, h :: m = c ++ tail :: d → d.length < fuel →
      ∃ p c, h :: m = c ++ [p] ∧ forever .diverges (s.tailStep h) fuel tail = .ok p from
    hwalk m [] h fuel rfl hf
  intro d
  induction d with
  | nil =>
    rintro c tail (_ | fuel) hs hf
    · cases hf
    · refine ⟨tail, c, hs, forever_done ?_⟩
      have hn : s.links tail = some h := hc.next_eq hs
      simp [tailStep, next_eq hn]
  | cons y d ih =>
    rintro c tail (_ | fuel) hs hf
    · cases hf
    · have hn : s.links tail = some y := hc.next_eq hs
      have hyh : y ≠ h := hc.ne_head hs List.mem_cons_self
      have hstep : s.tailStep h tail = .ok (.next y) := by simp [tailStep, next_eq hn, hyh]
      rw [forever_next hstep]
      exact ih (c ++ [tail]) y fuel (by simpa using hs) (by simpa using hf)

/-- The walk to the thread before `x`, which is not the head, and its removal. -/
theorem unlink_spec {a b : List T} (hc : Circular s.links h (a ++ x :: b))
    (hf : a.length < fuel) :
    ∃ s', forever .diverges (s.unlinkStep h x) fuel h = .ok s' ∧ Circular s'.links h (a ++ b) ∧
      s'.threadList = s.threadList ∧ Changes s s' i (h :: (a ++ x :: b)) [] := by
  suffices hwalk : ∀ d c temp fuel, h :: a = c ++ temp :: d → d.length < fuel →
      ∃ s', forever .diverges (s.unlinkStep h x) fuel temp = .ok s' ∧
        Circular s'.links h (a ++ b) ∧ s'.threadList = s.threadList ∧
        Changes s s' i (h :: (a ++ x :: b)) [] from hwalk a [] h fuel rfl hf
  have hxh : x ≠ h := hc.ne_head (List.nil_append _).symm (by simp)
  intro d
  induction d with
  | nil =>
    rintro c temp (_ | fuel) hs hf
    · cases hf
    · have hs' : h :: (a ++ x :: b) = c ++ temp :: x :: b := by
        rw [← List.cons_append, hs]
        simp
      have hn : s.links temp = some x := hc.next_eq hs'
      obtain ⟨o, ho, -⟩ := links_eq_some hn
      obtain ⟨y, hy⟩ := hc.exists_next (x := x) (by simp)
      have hmem : temp ∈ h :: (a ++ x :: b) := by rw [hs']; simp
      have hstep : s.unlinkStep h x temp = .ok (.done (s.link temp y)) := by
        simp [unlinkStep, next_eq hn, hxh, next_eq hy, setNext_eq ho]
      refine ⟨s.link temp y, forever_done hstep, ?_, rfl, Changes.link s i y hmem⟩
      rw [links_link ho, ← hy]
      exact hc.unlink hs
  | cons z d ih =>
    rintro c temp (_ | fuel) hs hf
    · cases hf
    · have hs' : h :: (a ++ x :: b) = c ++ temp :: (z :: d ++ x :: b) := by
        rw [← List.cons_append, hs]
        simp
      have hn : s.links temp = some z := hc.next_eq hs'
      have hzh : z ≠ h := hc.ne_head hs' (by simp)
      have hzx : z ≠ x := by
        rintro rfl
        have hnd := hc.nodup
        rw [hs', List.nodup_append, List.nodup_cons, List.cons_append, List.nodup_cons] at hnd
        exact hnd.2.1.2.1 (by simp)
      have hstep : s.unlinkStep h x temp = .ok (.next z) := by
        simp [unlinkStep, next_eq hn, hzh, hzx]
      rw [forever_next hstep]
      exact ih (c ++ [temp]) z fuel (by simpa using hs) (by simpa using hf)

/-- Removal of the head. The walk to the tail starts at the head, and cannot end there. -/
theorem holds_link_tail {y p : T} {c : List T} (hc : Circular s.links h (y :: m))
    (hp : h :: y :: m = c ++ [p]) :
    (s.setHead i (some y)).setNext p y = .ok ((s.setHead i (some y)).link p y) ∧
      ((s.setHead i (some y)).link p y).Holds i (y :: m) ∧ p ∈ y :: m := by
  cases c with
  | nil => cases hp
  | cons z c =>
    obtain ⟨rfl, hp'⟩ := List.cons_eq_cons.mp hp
    have hmem : p ∈ y :: m := by rw [hp']; simp
    obtain ⟨n, hn⟩ := hc.exists_next (List.mem_cons_of_mem _ hmem)
    obtain ⟨o, ho, -⟩ := links_eq_some hn
    have ho' : (s.setHead i (some y)).mem p = some o := ho
    refine ⟨setNext_eq ho' y, ⟨Function.update_self _ _ _, ?_⟩, hmem⟩
    rw [links_link ho']
    exact hc.unlink_head hp'

/-- **Removal.** -/
theorem remove_spec (hw : s.Holds i w) (hx : x ∈ w) (hf : w.length < fuel) :
    ∃ s', s.remove fuel x i = .ok s' ∧ s'.Holds i (w.erase x) ∧ Changes s s' i w [] := by
  cases w with
  | nil => cases hx
  | cons h m =>
    obtain ⟨hhead, hc⟩ := hw
    unfold remove
    rw [hhead]
    dsimp only
    by_cases hhx : h = x
    · subst hhx
      rw [if_pos rfl, List.erase_cons_head]
      cases m with
      | nil =>
        have hn : s.links h = some h := hc.next_head
        refine ⟨s.setHead i none, ?_, Function.update_self _ _ _, Changes.setHead s i none _⟩
        rw [next_eq hn, ok_bind, if_pos rfl]
        rfl
      | cons y m =>
        have hn : s.links h = some y := hc.next_head
        have hyh : y ≠ h := hc.ne_head (List.nil_append _).symm List.mem_cons_self
        have hlen : (y :: m).length < fuel := by simp only [List.length_cons] at hf ⊢; omega
        obtain ⟨p, c, hp, htail⟩ := findTail_spec hc hlen
        obtain ⟨hset, hholds, hmem⟩ := holds_link_tail (i := i) hc hp
        refine ⟨_, ?_, hholds, ?_⟩
        · rw [next_eq hn, ok_bind, if_neg hyh, htail, ok_bind, hset]
        · exact (Changes.setHead s i (some y) _).trans
            (Changes.link _ i y (List.mem_cons_of_mem _ hmem)) (List.Subset.refl _)
    · have hxm : x ∈ m := (List.mem_cons.mp hx).resolve_left (Ne.symm hhx)
      obtain ⟨a, b, hxa, rfl, herase⟩ := List.exists_erase_eq hxm
      have hlen : a.length < fuel := by simp at hf; omega
      obtain ⟨s', hrun, hc', hhead', hch⟩ := unlink_spec (i := i) hc hlen
      rw [if_neg hhx, List.erase_cons_tail (by simpa using hhx), herase]
      exact ⟨s', hrun, ⟨hhead' ▸ hhead, hc'⟩, hch⟩

/-! ## The dead threads -/

variable (dead : T → Bool)

/-- The removal of the deleted threads at the head. The tail, once calculated, stays the last thread
of the list. -/
theorem purgeHead_spec (hw : s.Holds i (h :: m)) (hdead : ∀ u ∈ h :: m, s.deleted u = dead u)
    (tail : Option T) (htail : ∀ p ∈ tail, ∃ c, h :: m = c ++ [p]) {n : ℕ} (hf : m.length < fuel)
    (hn : m.length < n) :
    ∃ s', forever .diverges (purgeHeadStep fuel i) n (s, tail) = .ok s' ∧
      s'.Holds i ((h :: m).dropWhile dead) ∧
      Changes s s' i (h :: m) ((h :: m).takeWhile dead) := by
  induction m generalizing s h tail n with
  | nil =>
    obtain ⟨n, rfl⟩ := Nat.exists_eq_succ_of_ne_zero (Nat.ne_zero_of_lt hn)
    obtain ⟨hhead, hc⟩ := hw
    have hnext : s.links h = some h := hc.next_head
    obtain ⟨o, ho, -⟩ := links_eq_some hnext
    have hdel := (isDeleted_eq ho).trans (hdead h List.mem_cons_self)
    cases hd : dead h with
    | false =>
      refine ⟨s, forever_done ?_, ?_, ?_⟩
      · simp [purgeHeadStep, hhead, load_eq ho, hdel, hd]
      · rw [List.dropWhile_cons_of_neg (by simp [hd])]
        exact ⟨hhead, hc⟩
      · rw [List.takeWhile_cons_of_neg (by simp [hd])]
        exact Changes.refl s i _
    | true =>
      refine ⟨(s.free h).setHead i none, forever_done ?_, ?_, ?_⟩
      · simp [purgeHeadStep, hhead, load_eq ho, hdel, hd, next_eq hnext]
      · rw [List.dropWhile_cons_of_pos hd]
        exact Function.update_self _ _ _
      · rw [List.takeWhile_cons_of_pos hd]
        exact (Changes.free s i List.mem_cons_self).trans (Changes.setHead _ i none _)
          (List.Subset.refl _)
  | cons y m ih =>
    obtain ⟨n, rfl⟩ := Nat.exists_eq_succ_of_ne_zero (Nat.ne_zero_of_lt hn)
    obtain ⟨hhead, hc⟩ := hw
    have hnext : s.links h = some y := hc.next_head
    obtain ⟨o, ho, -⟩ := links_eq_some hnext
    have hdel := (isDeleted_eq ho).trans (hdead h List.mem_cons_self)
    have hyh : y ≠ h := hc.ne_head (List.nil_append _).symm List.mem_cons_self
    have hhm : h ∉ y :: m := (List.nodup_cons.mp hc.nodup).1
    cases hd : dead h with
    | false =>
      refine ⟨s, forever_done ?_, ?_, ?_⟩
      · simp [purgeHeadStep, hhead, load_eq ho, hdel, hd]
      · rw [List.dropWhile_cons_of_neg (by simp [hd])]
        exact ⟨hhead, hc⟩
      · rw [List.takeWhile_cons_of_neg (by simp [hd])]
        exact Changes.refl s i _
    | true =>
      -- the tail is the one that was calculated before, or is calculated now
      obtain ⟨p, c, hp, hfind, hknown⟩ : ∃ p c, h :: y :: m = c ++ [p] ∧
          (tail = none → s.findTail fuel h = .ok p) ∧ ∀ q, tail = some q → q = p := by
        cases tail with
        | none =>
          obtain ⟨p, c, hp, hfind⟩ := findTail_spec hc hf
          exact ⟨p, c, hp, fun _ => hfind, by simp⟩
        | some p =>
          obtain ⟨c, hp⟩ := htail p rfl
          exact ⟨p, c, hp, by simp, fun q hq => (Option.some.inj hq).symm⟩
      obtain ⟨hset, hholds, hmem⟩ := holds_link_tail (i := i) hc hp
      set s₁ := (s.setHead i (some y)).link p y with hs₁
      have hch₁ : Changes s s₁ i (h :: y :: m) [] :=
        (Changes.setHead s i (some y) _).trans
          (Changes.link _ i y (List.mem_cons_of_mem _ hmem)) (List.Subset.refl _)
      have hch₂ := hch₁.trans (Changes.free s₁ i List.mem_cons_self) (List.Subset.refl _)
      have hholds₂ : (s₁.free h).Holds i (y :: m) := by
        refine hholds.congr rfl fun u hu => links_of_mem_eq ?_
        have huh : u ≠ h := fun heq => hhm (heq ▸ hu)
        exact Function.update_of_ne huh _ _
      have hdead₂ : ∀ u ∈ y :: m, (s₁.free h).deleted u = dead u := by
        intro u hu
        have huh : u ≠ h := fun heq => hhm (heq ▸ hu)
        rw [hch₂.deleted_eq (by simpa using huh)]
        exact hdead u (List.mem_cons_of_mem _ hu)
      have htail₂ : ∀ q ∈ some p, ∃ c, y :: m = c ++ [q] := by
        rintro q ⟨⟩
        cases c with
        | nil => cases hp
        | cons z c => exact ⟨c, (List.cons_eq_cons.mp hp).2⟩
      have hf₂ : m.length < fuel := (Nat.lt_succ_self _).trans hf
      obtain ⟨s', hrun, hholds', hch'⟩ := ih hholds₂ hdead₂ (some p) htail₂ hf₂ (Nat.lt_of_succ_lt_succ hn)
      have hstep : purgeHeadStep fuel i (s, tail) = .ok (.next (s₁.free h, some p)) := by
        cases tail with
        | none =>
          simp [purgeHeadStep, hhead, load_eq ho, hdel, hd, next_eq hnext, hyh, hfind rfl, hset]
        | some q =>
          obtain rfl := hknown q rfl
          simp [purgeHeadStep, hhead, load_eq ho, hdel, hd, next_eq hnext, hyh, hset]
      refine ⟨s', ?_, ?_, ?_⟩
      · rw [forever_next hstep, hrun]
      · rw [List.dropWhile_cons_of_pos hd]
        exact hholds'
      · rw [List.takeWhile_cons_of_pos hd]
        exact hch₂.trans hch' (List.subset_cons_self _ _)

/-- The removal of the deleted threads after `temp`, those before it being done. -/
theorem purgeRest_spec {c d : List T} {temp : T} (hw : s.Holds i (h :: m))
    (hs : h :: m = c ++ temp :: d) (hdead : ∀ u ∈ d, s.deleted u = dead u) (hf : d.length < fuel) :
    ∃ s', forever .diverges (purgeRestStep h) fuel (s, temp) = .ok s' ∧
      s'.Holds i (c ++ temp :: d.filter (!dead ·)) ∧ Changes s s' i (h :: m) (d.filter dead) := by
  induction d generalizing s m c temp fuel with
  | nil =>
    obtain ⟨n, rfl⟩ := Nat.exists_eq_succ_of_ne_zero (Nat.ne_zero_of_lt hf)
    have hnext : s.links temp = some h := hw.2.next_eq hs
    refine ⟨s, forever_done ?_, ?_, Changes.refl s i _⟩
    · simp [purgeRestStep, next_eq hnext]
    · exact hs ▸ hw
  | cons y d ih =>
    obtain ⟨n, rfl⟩ := Nat.exists_eq_succ_of_ne_zero (Nat.ne_zero_of_lt hf)
    obtain ⟨hhead, hc⟩ := hw
    have hnext : s.links temp = some y := hc.next_eq hs
    have hyh : y ≠ h := hc.ne_head hs List.mem_cons_self
    have hs' : h :: m = (c ++ [temp]) ++ y :: d := by simpa using hs
    obtain ⟨z, hz⟩ := hc.exists_next (x := y) (by rw [hs]; simp)
    obtain ⟨o, ho, -⟩ := links_eq_some hz
    obtain ⟨ot, hot, -⟩ := links_eq_some hnext
    have hdel := (isDeleted_eq ho).trans (hdead y List.mem_cons_self)
    have hyd : y ∉ d := by
      have hnd := hc.nodup
      rw [hs', List.nodup_append, List.nodup_cons] at hnd
      exact hnd.2.1.1
    cases hd : dead y with
    | false =>
      obtain ⟨s', hrun, hholds, hch⟩ := ih ⟨hhead, hc⟩ hs'
        (fun u hu => hdead u (List.mem_cons_of_mem _ hu)) (Nat.lt_of_succ_lt_succ hf)
      have hstep : purgeRestStep h (s, temp) = .ok (.next (s, y)) := by
        simp [purgeRestStep, next_eq hnext, hyh, load_eq ho, hdel, hd]
      refine ⟨s', by rw [forever_next hstep, hrun], ?_, ?_⟩
      · simpa [hd] using hholds
      · simpa [hd] using hch
    | true =>
      obtain ⟨a, ha, hm⟩ : ∃ a, h :: a = c ++ [temp] ∧ m = a ++ y :: d := by
        cases c with
        | nil =>
          obtain ⟨rfl, hm⟩ := List.cons_eq_cons.mp hs
          exact ⟨[], rfl, hm⟩
        | cons z c =>
          obtain ⟨rfl, hm⟩ := List.cons_eq_cons.mp hs'
          exact ⟨c ++ [temp], rfl, hm⟩
      have hmem : temp ∈ h :: m := by rw [hs]; simp
      have hymem : y ∈ h :: m := by rw [hs]; simp
      have hsub : h :: (a ++ d) ⊆ h :: m := by
        rw [hm]
        intro u hu
        simp only [List.mem_cons, List.mem_append] at hu ⊢
        tauto
      have hcut : Circular (s.link temp z).links h (a ++ d) := by
        rw [links_link hot, ← hz]
        exact (hm ▸ hc).unlink ha
      have hyrest : ∀ u ∈ h :: (a ++ d), u ≠ y := by
        rintro u hu rfl
        have hnd := hc.nodup
        rw [hm, ← List.cons_append, List.nodup_append, List.nodup_cons] at hnd
        rw [← List.cons_append] at hu
        rcases List.mem_append.mp hu with hu | hu
        · exact hnd.2.2 u hu u List.mem_cons_self rfl
        · exact hyd hu
      have hch₂ : Changes s ((s.link temp z).free y) i (h :: m) [y] :=
        (Changes.link s i z hmem).trans (Changes.free _ i hymem) (List.Subset.refl _)
      have hholds₂ : ((s.link temp z).free y).Holds i (h :: (a ++ d)) := by
        refine Holds.congr (s := s.link temp z) ⟨hhead, hcut⟩ rfl fun u hu => links_of_mem_eq ?_
        exact Function.update_of_ne (hyrest u hu) _ _
      have hdead₂ : ∀ u ∈ d, ((s.link temp z).free y).deleted u = dead u := by
        intro u hu
        have huy : u ≠ y := fun heq => hyd (heq ▸ hu)
        rw [hch₂.deleted_eq (by simpa using huy)]
        exact hdead u (List.mem_cons_of_mem _ hu)
      have hs₂ : h :: (a ++ d) = c ++ temp :: d := by
        rw [← List.cons_append, ha]
        simp
      obtain ⟨s', hrun, hholds, hch⟩ := ih hholds₂ hs₂ hdead₂ (Nat.lt_of_succ_lt_succ hf)
      have hstep : purgeRestStep h (s, temp) = .ok (.next ((s.link temp z).free y, temp)) := by
        simp [purgeRestStep, next_eq hnext, hyh, load_eq ho, hdel, hd, next_eq hz, setNext_eq hot]
      refine ⟨s', by rw [forever_next hstep, hrun], ?_, ?_⟩
      · simpa [hd] using hholds
      · simpa [hd] using hch₂.trans hch hsub

/-- **The dead threads** of a list are removed and freed. -/
theorem purgeList_spec (hw : s.Holds i w) (hf : w.length < fuel) :
    ∃ s', s.purgeList fuel i = .ok s' ∧ s'.Holds i (w.filter (!s.deleted ·)) ∧
      Changes s s' i w (w.filter s.deleted) := by
  cases w with
  | nil =>
    have hhead : s.threadList i = none := hw
    refine ⟨s, ?_, hw, Changes.refl s i []⟩
    rw [purgeList, hhead]
    rfl
  | cons h m =>
    have hlen : m.length < fuel := (Nat.lt_succ_self _).trans hf
    obtain ⟨s₁, hrun₁, hw₁, hch₁⟩ := purgeHead_spec s.deleted hw (fun _ _ => rfl) none (by simp)
      hlen hlen
    obtain ⟨halive, hfreed⟩ := filter_dropWhile_dead s.deleted (h :: m)
    have hnd := hw.nodup
    rw [← List.takeWhile_append_dropWhile (p := s.deleted) (l := h :: m)] at hnd
    unfold purgeList
    rw [hw.1]
    dsimp only
    rw [hrun₁, ok_bind]
    cases hdrop : (h :: m).dropWhile s.deleted with
    | nil =>
      rw [hdrop] at hw₁ halive hfreed
      have hhead₁ : s₁.threadList i = none := hw₁
      rw [hhead₁]
      refine ⟨s₁, rfl, ?_, ?_⟩
      · rw [halive]
        exact hw₁
      · rw [hfreed, List.filter_nil, List.append_nil]
        exact hch₁
    | cons y r =>
      rw [hdrop] at hw₁ halive hfreed hnd
      have hy : s.deleted y = false := by
        have := List.head?_dropWhile_not s.deleted (h :: m)
        rw [hdrop] at this
        simpa using this
      have hsub : y :: r ⊆ h :: m := hdrop ▸ List.dropWhile_subset _
      have hdead₁ : ∀ u ∈ r, s₁.deleted u = s.deleted u := by
        intro u hu
        refine hch₁.deleted_eq fun hmem => ?_
        exact (List.nodup_append.mp hnd).2.2 u hmem u (List.mem_cons_of_mem _ hu) rfl
      have hlen₁ : r.length < fuel := by
        have h1 := (List.dropWhile_sublist s.deleted (l := h :: m)).length_le
        rw [hdrop] at h1
        simp only [List.length_cons] at h1 hf
        omega
      obtain ⟨s₂, hrun₂, hw₂, hch₂⟩ := purgeRest_spec s.deleted hw₁ (List.nil_append _).symm
        hdead₁ hlen₁
      rw [hw₁.1]
      refine ⟨s₂, hrun₂, ?_, ?_⟩
      · rw [halive, List.filter_cons_of_pos (by simp [hy])]
        exact hw₂
      · rw [hfreed, List.filter_cons_of_neg (by simp [hy])]
        exact hch₁.trans hch₂ hsub

/-! ## Selection -/

/-- **The search** finds the first ready thread after the head. -/
theorem findIn_spec (hw : s.Holds i w) (hf : w.length < fuel) :
    s.findIn fuel i = .ok ((searchOrder w).find? s.ready) := by
  cases w with
  | nil =>
    have hhead : s.threadList i = none := hw
    rw [findIn, hhead]
    rfl
  | cons h m =>
    obtain ⟨hhead, hc⟩ := hw
    obtain ⟨first, hfirst⟩ := hc.exists_next List.mem_cons_self
    have hnd : (m ++ [h]).Nodup := (List.perm_append_singleton h m).nodup_iff.mpr hc.nodup
    -- the threads from `temp` on are still to be looked at
    have hwalk : ∀ d c temp fuel, m ++ [h] = c ++ temp :: d → d.length < fuel →
        forever .diverges (s.findStep h) fuel temp = .ok ((temp :: d).find? s.ready) := by
      intro d
      induction d with
      | nil =>
        rintro c temp (_ | fuel) hs hf
        · cases hf
        · obtain ⟨rfl, hlast⟩ := List.append_inj' hs rfl
          obtain rfl : h = temp := by simpa using hlast
          obtain ⟨o, ho, -⟩ := links_eq_some hfirst
          have hready := isReady_eq ho
          refine forever_done ?_
          cases hr : s.ready h <;>
            simp [findStep, load_eq ho, hready, hr, next_eq hfirst]
      | cons y d ih =>
        rintro c temp (_ | fuel) hs hf
        · cases hf
        · have hn := hc.next_of_after_head hs
          obtain ⟨o, ho, -⟩ := links_eq_some hn
          have hready := isReady_eq ho
          cases hr : s.ready temp with
          | true =>
            rw [List.find?_cons_of_pos hr]
            refine forever_done ?_
            simp [findStep, load_eq ho, hready, hr]
          | false =>
            have hy : y ≠ first := by
              rintro rfl
              have hhd := hc.next_head
              rw [hfirst, hs] at hhd
              rw [hs] at hnd
              cases c with
              | nil =>
                obtain rfl : y = temp := by simpa using hhd
                exact (List.nodup_cons.mp hnd).1 List.mem_cons_self
              | cons z c =>
                obtain rfl : y = z := by simpa using hhd
                exact (List.nodup_cons.mp hnd).1 (by simp)
            have hstep : s.findStep h temp = .ok (.next y) := by
              simp [findStep, load_eq ho, hready, hr, next_eq hn, next_eq hfirst, hy]
            rw [List.find?_cons_of_neg (by simp [hr]), forever_next hstep]
            exact ih (c ++ [temp]) y fuel (by simpa using hs) (Nat.lt_of_succ_lt_succ hf)
    rw [findIn, hhead]
    dsimp only
    rw [next_eq hfirst, ok_bind]
    have hhd := hc.next_head
    rw [hfirst] at hhd
    cases hm : m ++ [h] with
    | nil => simp at hm
    | cons z d =>
      rw [hm] at hhd
      obtain rfl : first = z := by simpa using hhd
      have hlen := congrArg List.length hm
      simp only [List.length_append, List.length_cons, List.length_nil] at hlen hf
      rw [hwalk d [] first fuel hm (by omega)]
      exact congrArg (fun l => Except.ok (l.find? s.ready)) hm.symm

/-! ## Search -/

/-- **The search for a thread** finds it when it is in the list and not dead. -/
theorem existsIn_spec {thread : T} (hc : Circular s.links h m) (hf : m.length < fuel) :
    forever .diverges (s.existsStep h thread) fuel h =
      .ok (decide (thread ∈ h :: m) && !s.deleted thread) := by
  -- the threads from `temp` on are still to be looked at
  have hwalk : ∀ d c temp fuel, h :: m = c ++ temp :: d → d.length < fuel →
      forever .diverges (s.existsStep h thread) fuel temp =
        .ok (decide (thread ∈ temp :: d) && !s.deleted thread) := by
    intro d
    induction d with
    | nil =>
      rintro c temp (_ | fuel) hs hf
      · cases hf
      · have hn : s.links temp = some h := hc.next_eq hs
        obtain ⟨o, ho, -⟩ := links_eq_some hn
        have hdead := isDeleted_eq ho
        refine forever_done ?_
        by_cases htt : temp = thread
        · subst htt
          cases hd : s.deleted temp <;> simp [existsStep, load_eq ho, hdead, hd, next_eq hn]
        · simp [existsStep, htt, Ne.symm htt, load_eq ho, next_eq hn]
    | cons y d ih =>
      rintro c temp (_ | fuel) hs hf
      · cases hf
      · have hn : s.links temp = some y := hc.next_eq hs
        obtain ⟨o, ho, -⟩ := links_eq_some hn
        have hdead := isDeleted_eq ho
        have hnd : (c ++ temp :: y :: d).Nodup := hs ▸ hc.nodup
        have hy : y ≠ h := by
          rintro rfl
          cases c with
          | nil =>
            obtain rfl : y = temp := by simpa using (List.cons.inj hs).1
            simp at hnd
          | cons z c =>
            obtain rfl : y = z := (List.cons.inj hs).1
            simp at hnd
        by_cases hhit : temp = thread ∧ s.deleted temp = false
        · obtain ⟨rfl, hd⟩ := hhit
          refine forever_done ?_
          simp [existsStep, load_eq ho, hdead, hd]
        · have hstep : s.existsStep h thread temp = .ok (.next y) := by
            by_cases htt : temp = thread
            · subst htt
              have hd : s.deleted temp = true := by simpa using hhit
              simp [existsStep, load_eq ho, hdead, hd, next_eq hn, hy]
            · simp [existsStep, htt, load_eq ho, next_eq hn, hy]
          rw [forever_next hstep, ih (c ++ [temp]) y fuel (by simpa using hs)
            (Nat.lt_of_succ_lt_succ hf)]
          by_cases htt : temp = thread
          · subst htt
            have hd : s.deleted temp = true := by simpa using hhit
            simp [hd]
          · simp [Ne.symm htt]
  exact hwalk m [] h fuel rfl hf

end PriorityScheduler

end Miosix
