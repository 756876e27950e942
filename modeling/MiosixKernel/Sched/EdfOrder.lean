import MiosixKernel.Sched.Edf
import Mathlib.Data.List.Sort

/-!
# The EDF scheduler: the order of the threads

* `Holds`: the threads that the list has, in the order of their deadlines;
* `Relinked`: only the links between the threads change;
* `add_spec`, `remove_spec`: insertion and removal of a thread;
* `pkRemoveDeadThreads_spec`, `find_spec`: the loops over the list;
* `Inv`, **`run_sorted`**: every run.
-/

namespace Miosix

open Lib

namespace EDFScheduler

variable {T : Type} {s s' s'' : EDFScheduler T} {l a b gone : List T} {t u x walk : T} {o : EDFThread T} {fuel : ℕ}

/-- The links between the threads. -/
def links (s : EDFScheduler T) (t : T) : Option T := (s.mem t).bind EDFThread.next

/-- The fields of a thread but for its link. -/
def dataOf (s : EDFScheduler T) (t : T) : Option (ℕ × EDFSchedulerPriority) :=
  (s.mem t).map fun o => (o.flags, o.deadline)

def deadlineOf (s : EDFScheduler T) (t : T) : ℤ := ((s.dataOf t).map fun d => d.2.deadline).getD 0

def ready (s : EDFScheduler T) (t : T) : Bool := (s.dataOf t).any fun d => ThreadFlags.isReady d.1

def deleted (s : EDFScheduler T) (t : T) : Bool := (s.dataOf t).any fun d => ThreadFlags.isDeleted d.1

/-- The list has the threads `l`, in the order of their deadlines. -/
structure Holds (s : EDFScheduler T) (l : List T) : Prop where
  linked : Linked s.links s.head l
  nodup : l.Nodup
  alive : ∀ t ∈ l, ∃ o, s.mem t = some o
  sorted : l.Pairwise fun t u => s.deadlineOf t ≤ s.deadlineOf u

/-- The threads are linked as in `l`, and nothing else changes. -/
structure Relinked (s s' : EDFScheduler T) (l : List T) : Prop where
  linked : Linked s'.links s'.head l
  data : ∀ t, s'.dataOf t = s.dataOf t
  cur : s'.cur = s.cur
  kernelRunning : s'.kernelRunning = s.kernelRunning

theorem load_eq (h : s.mem t = some o) : s.load t = .ok o := by rw [load, h]

theorem links_eq (h : s.mem t = some o) : s.links t = o.next := by rw [links, h]; rfl

theorem dataOf_eq (h : s.mem t = some o) : s.dataOf t = some (o.flags, o.deadline) := by rw [dataOf, h]; rfl

theorem deadlineOf_eq (h : s.mem t = some o) : s.deadlineOf t = o.deadline.deadline := by
  rw [deadlineOf, dataOf_eq h]
  rfl

theorem ready_eq (h : s.mem t = some o) : s.ready t = ThreadFlags.isReady o.flags := by
  rw [ready, dataOf_eq h]
  rfl

theorem deleted_eq (h : s.mem t = some o) : s.deleted t = ThreadFlags.isDeleted o.flags := by
  rw [deleted, dataOf_eq h]
  rfl

theorem exists_mem_of_data (hd : s'.dataOf t = s.dataOf t) (ho : s.mem t = some o) : ∃ o', s'.mem t = some o' := by
  rw [dataOf, dataOf, ho] at hd
  obtain ⟨o', ho', -⟩ := Option.map_eq_some_iff.mp hd
  exact ⟨o', ho'⟩

namespace Relinked

theorem deadlineOf_eq (h : Relinked s s' l) : s'.deadlineOf = s.deadlineOf := by
  funext t
  rw [deadlineOf, deadlineOf, h.data]

/-- The threads `l` are alive and in the order of their deadlines. -/
theorem holds (h : Relinked s s' l) (hnd : l.Nodup) (halive : ∀ t ∈ l, ∃ o, s.mem t = some o)
    (hsorted : l.Pairwise fun t u => s.deadlineOf t ≤ s.deadlineOf u) : s'.Holds l where
  linked := h.linked
  nodup := hnd
  alive t ht := by
    obtain ⟨o, ho⟩ := halive t ht
    exact exists_mem_of_data (h.data t) ho
  sorted := by rwa [h.deadlineOf_eq]

end Relinked

/-! ## Links -/

section Links

variable [DecidableEq T]

/-- `s` with another link after `t`. -/
def link (s : EDFScheduler T) (t : T) (n : Option T) : EDFScheduler T :=
  { s with mem := Function.update s.mem t ((s.mem t).map fun o => { o with next := n }) }

theorem modify_next_eq (h : s.mem t = some o) (n : Option T) :
    (s.modify t fun o => { o with next := n }) = .ok (s.link t n) := by
  rw [modify, load_eq h, link, h]
  rfl

theorem links_link (h : s.mem t = some o) (n : Option T) : (s.link t n).links = Function.update s.links t n := by
  funext u
  by_cases hu : u = t
  · subst hu
    simp [links, link, h]
  · simp [links, link, hu]

theorem dataOf_link (s : EDFScheduler T) (t : T) (n : Option T) (u : T) : (s.link t n).dataOf u = s.dataOf u := by
  by_cases hu : u = t
  · subst hu
    simp [dataOf, link, Function.comp_def]
  · simp [dataOf, link, hu]

theorem relinked_link (h : s.mem t = some o) {n : Option T} (hl : Linked (Function.update s.links t n) s.head l) :
    Relinked s (s.link t n) l :=
  ⟨by rw [links_link h]; exact hl, dataOf_link s t n, rfl, rfl⟩

/-- The thread `t` goes after `walk`. -/
theorem insertAfter_spec (h : s.Holds (a ++ walk :: b)) (ho : s.mem t = some o) (ht : t ∉ a ++ walk :: b) :
    ∃ s', s.insertAfter walk t = .ok s' ∧ Relinked s s' (a ++ walk :: t :: b) := by
  obtain ⟨ow, how⟩ := h.alive walk (by simp)
  have hw : ∃ o', (s.link t ow.next).mem walk = some o' := exists_mem_of_data (dataOf_link s t _ walk) how
  obtain ⟨ow', how'⟩ := hw
  refine ⟨(s.link t ow.next).link walk (some t), ?_, ?_, fun u => ?_, rfl, rfl⟩
  · rw [insertAfter, load_eq how, ok_bind, modify_next_eq ho, ok_bind, modify_next_eq how']
  · rw [links_link how', links_link ho, ← links_eq how]
    exact h.linked.insertAfter h.nodup ht
  · rw [dataOf_link, dataOf_link]

end Links

/-! ## Insertion -/

section Insertion

variable [DecidableEq T]

/-- The list after the thread was added: it goes before the first one with a deadline that is not earlier. -/
def inserted (s : EDFScheduler T) (t : T) (l : List T) : List T :=
  l.orderedInsert (fun t u => s.deadlineOf t ≤ s.deadlineOf u) t

omit [DecidableEq T] in
theorem inserted_perm (s : EDFScheduler T) (t : T) (l : List T) : (s.inserted t l).Perm (t :: l) :=
  List.perm_orderedInsert _ t l

omit [DecidableEq T] in
theorem inserted_cons (s : EDFScheduler T) (t x : T) (l : List T) :
    s.inserted t (x :: l) = if s.deadlineOf t ≤ s.deadlineOf x then t :: x :: l else x :: s.inserted t l := rfl

omit [DecidableEq T] in
theorem inserted_sorted (h : l.Pairwise fun t u => s.deadlineOf t ≤ s.deadlineOf u) (t : T) :
    (s.inserted t l).Pairwise fun t u => s.deadlineOf t ≤ s.deadlineOf u := by
  have : Std.Total fun t u : T => s.deadlineOf t ≤ s.deadlineOf u := ⟨fun t u => le_total _ _⟩
  have : IsTrans T fun t u => s.deadlineOf t ≤ s.deadlineOf u := ⟨fun _ _ _ => le_trans⟩
  exact h.orderedInsert t l

/-- The walk over the list. -/
theorem addStep_spec (h : s.Holds (a ++ walk :: b)) (ho : s.mem t = some o) (ht : t ∉ a ++ walk :: b)
    (hf : b.length < fuel) :
    ∃ s', forever .diverges (s.addStep t (s.deadlineOf t)) fuel walk = .ok s' ∧
      Relinked s s' (a ++ walk :: s.inserted t b) := by
  induction b generalizing a walk fuel with
  | nil =>
    obtain ⟨n, rfl⟩ : ∃ n, fuel = n + 1 := ⟨fuel - 1, by simp at hf; omega⟩
    obtain ⟨ow, how⟩ := h.alive walk (by simp)
    have hnext : ow.next = none := (links_eq how).symm.trans h.linked.next_eq
    obtain ⟨s', hins, hs'⟩ := insertAfter_spec h ho ht
    refine ⟨s', forever_done ?_, hs'⟩
    simp [addStep, load_eq how, hnext, hins]
  | cons x b ih =>
    obtain ⟨n, rfl⟩ : ∃ n, fuel = n + 1 := ⟨fuel - 1, by simp at hf; omega⟩
    obtain ⟨ow, how⟩ := h.alive walk (by simp)
    obtain ⟨ox, hox⟩ := h.alive x (by simp)
    have hnext : ow.next = some x := (links_eq how).symm.trans h.linked.next_eq
    rw [inserted_cons]
    by_cases hle : s.deadlineOf t ≤ s.deadlineOf x
    · obtain ⟨s', hins, hs'⟩ := insertAfter_spec h ho ht
      refine ⟨s', forever_done ?_, by rwa [if_pos hle]⟩
      rw [deadlineOf_eq hox] at hle
      simp [addStep, load_eq how, hnext, load_eq hox, hle, hins]
    · have hsplit : a ++ walk :: x :: b = (a ++ [walk]) ++ x :: b := by simp
      have hstep : s.addStep t (s.deadlineOf t) walk = .ok (.next x) := by
        rw [deadlineOf_eq hox] at hle
        simp [addStep, load_eq how, hnext, load_eq hox, hle]
      rw [if_neg hle, forever_next hstep]
      obtain ⟨s', hs', hrel⟩ := ih (hsplit ▸ h) (hsplit ▸ ht) (by simpa using hf)
      exact ⟨s', hs', by simpa using hrel⟩

theorem add_spec (h : s.Holds l) (ho : s.mem t = some o) (ht : t ∉ l) (hn : l = [] → o.next = none)
    (hf : l.length < fuel) :
    ∃ s', s.add t fuel = .ok s' ∧ Relinked s s' (s.inserted t l) := by
  rw [add, load_eq ho, ok_bind, ← deadlineOf_eq ho]
  cases l with
  | nil =>
    have hhead : s.head = none := h.linked
    rw [hhead]
    refine ⟨_, rfl, ⟨rfl, ?_⟩, fun _ => rfl, rfl, rfl⟩
    exact (links_eq ho).trans (hn rfl)
  | cons x l =>
    obtain ⟨ox, hox⟩ := h.alive x List.mem_cons_self
    have hhead : s.head = some x := h.linked.1
    rw [hhead, inserted_cons]
    simp only [load_eq hox, ok_bind, ← deadlineOf_eq hox]
    split_ifs with hle
    · rw [modify_next_eq ho, ok_bind]
      have hpush := h.linked.push ht
      rw [hhead, ← links_link ho] at hpush
      exact ⟨_, rfl, hpush, dataOf_link s t _, rfl, rfl⟩
    · have hlt : l.length < fuel := by
        simp only [List.length_cons] at hf
        omega
      exact addStep_spec (a := []) h ho ht hlt

end Insertion

/-! ## Removal -/

/-- Some threads of the list, with the same fields, are in the same order. -/
theorem Holds.of_sublist {l' : List T} (h : s.Holds l) (hlinked : Linked s'.links s'.head l') (hsub : l'.Sublist l)
    (hdata : ∀ t ∈ l', s'.dataOf t = s.dataOf t) : s'.Holds l' where
  linked := hlinked
  nodup := h.nodup.sublist hsub
  alive t ht := by
    obtain ⟨o, ho⟩ := h.alive t (hsub.subset ht)
    exact exists_mem_of_data (hdata t ht) ho
  sorted := by
    refine (h.sorted.sublist hsub).imp_of_mem fun {t u} ht hu hle => ?_
    rwa [deadlineOf, deadlineOf, hdata t ht, hdata u hu]

section Removal

variable [DecidableEq T]

/-- The walk over the list. -/
theorem removeStep_spec {c : List T} (h : s.Holds (a ++ walk :: (c ++ t :: b))) (hf : c.length < fuel) :
    ∃ s', forever .diverges (s.removeStep t) fuel walk = .ok s' ∧ Relinked s s' (a ++ walk :: (c ++ b)) ∧
      s'.links t = s.links t := by
  induction c generalizing a walk fuel with
  | nil =>
    obtain ⟨n, rfl⟩ : ∃ n, fuel = n + 1 := ⟨fuel - 1, by simp at hf; omega⟩
    obtain ⟨ow, how⟩ := h.alive walk (by simp)
    obtain ⟨ot, hot⟩ := h.alive t (by simp)
    have hnext : ow.next = some t := (links_eq how).symm.trans h.linked.next_eq
    have hne : t ≠ walk := by
      have hnd := (List.nodup_append.mp h.nodup).2.1
      rintro rfl
      exact (List.nodup_cons.mp hnd).1 (by simp)
    refine ⟨s.link walk ot.next, forever_done ?_, relinked_link how ?_, ?_⟩
    · simp [removeStep, load_eq how, hnext, load_eq hot, modify_next_eq how]
    · rw [← links_eq hot]
      exact h.linked.unlink h.nodup
    · rw [links_link how, Function.update_of_ne hne]
  | cons x c ih =>
    obtain ⟨n, rfl⟩ : ∃ n, fuel = n + 1 := ⟨fuel - 1, by simp at hf; omega⟩
    obtain ⟨ow, how⟩ := h.alive walk (by simp)
    have hnext : ow.next = some x := (links_eq how).symm.trans h.linked.next_eq
    have hxt : x ≠ t := by
      have hnd := (List.nodup_cons.mp (List.nodup_append.mp h.nodup).2.1).2
      rintro rfl
      exact (List.nodup_cons.mp hnd).1 (by simp)
    have hstep : s.removeStep t walk = .ok (.next x) := by simp [removeStep, load_eq how, hnext, hxt]
    have hsplit : a ++ walk :: (x :: c ++ t :: b) = (a ++ [walk]) ++ x :: (c ++ t :: b) := by simp
    rw [forever_next hstep]
    obtain ⟨s', hs', hrel, hlink⟩ := ih (hsplit ▸ h) (by simpa using hf)
    exact ⟨s', hs', by simpa using hrel, hlink⟩

theorem remove_spec (h : s.Holds (a ++ t :: b)) (hf : a.length < fuel) :
    ∃ s', s.remove t fuel = .ok s' ∧ Relinked s s' (a ++ b) ∧ s'.links t = s.links t := by
  cases a with
  | nil =>
    obtain ⟨ot, hot⟩ := h.alive t (by simp)
    have hhead : s.head = some t := h.linked.1
    have htail := h.linked.2
    rw [links_eq hot] at htail
    exact ⟨{ s with head := ot.next }, by simp [remove, hhead, load_eq hot], ⟨htail, fun _ => rfl, rfl, rfl⟩, rfl⟩
  | cons x a =>
    have hhead : s.head = some x := h.linked.1
    have hxt : x ≠ t := by
      rintro rfl
      exact (List.nodup_cons.mp h.nodup).1 (by simp)
    have hlt : a.length < fuel := by
      simp only [List.length_cons] at hf
      omega
    obtain ⟨s', hs', hrel, hlink⟩ := removeStep_spec (a := []) h hlt
    exact ⟨s', by simpa [remove, hhead, hxt] using hs', hrel, hlink⟩

end Removal

/-! ## Removal of the dead threads -/

/-- The threads `gone` are freed, and the others only get other links. -/
structure Removed (s s' : EDFScheduler T) (gone : List T) : Prop where
  freed : ∀ t ∈ gone, s'.mem t = none
  data : ∀ t, t ∉ gone → s'.dataOf t = s.dataOf t
  cur : s'.cur = s.cur
  kernelRunning : s'.kernelRunning = s.kernelRunning

theorem Removed.refl (s : EDFScheduler T) : Removed s s [] := ⟨by simp, fun _ _ => rfl, rfl, rfl⟩

theorem Removed.trans {gone' : List T} (h : Removed s s' gone) (h' : Removed s' s'' gone') :
    Removed s s'' (gone ++ gone') where
  freed t ht := by
    by_cases hg : t ∈ gone'
    · exact h'.freed t hg
    · have hd := h'.data t hg
      rw [dataOf, dataOf, h.freed t ((List.mem_append.mp ht).resolve_right hg)] at hd
      exact Option.map_eq_none_iff.mp hd
  data t ht := by
    obtain ⟨hg, hg'⟩ := not_or.mp (List.mem_append.not.mp ht)
    exact (h'.data t hg').trans (h.data t hg)
  cur := h'.cur.trans h.cur
  kernelRunning := h'.kernelRunning.trans h.kernelRunning

theorem Removed.deleted_eq (h : Removed s s' gone) (ht : t ∉ gone) : s'.deleted t = s.deleted t := by
  rw [deleted, deleted, h.data t ht]

section Dead

variable [DecidableEq T] {dead : T → Bool}

theorem links_dispose (s : EDFScheduler T) (hu : u ≠ t) : (s.dispose t).links u = s.links u := by
  simp [links, dispose, hu]

theorem removed_dispose (s : EDFScheduler T) (t : T) : Removed s (s.dispose t) [t] := by
  refine ⟨fun u hu => ?_, fun u hu => ?_, rfl, rfl⟩
  · rw [List.mem_singleton.mp hu]
    exact Function.update_self _ _ _
  · have hut : u ≠ t := fun heq => hu (List.mem_singleton.mpr heq)
    simp [dataOf, dispose, hut]

/-- The first thread leaves the list and is freed. -/
theorem Holds.disposeHead (h : s.Holds (t :: l)) (ho : s.mem t = some o) :
    ({ s with head := o.next }.dispose t).Holds l ∧ Removed s ({ s with head := o.next }.dispose t) [t] := by
  have hdispose := removed_dispose { s with head := o.next } t
  have hrem : Removed s ({ s with head := o.next }.dispose t) [t] := ⟨hdispose.freed, hdispose.data, rfl, rfl⟩
  have hne : ∀ u ∈ l, u ≠ t := by
    rintro u hu rfl
    exact (List.nodup_cons.mp h.nodup).1 hu
  have hlinked : Linked ({ s with head := o.next }.dispose t).links o.next l := by
    have htail := h.linked.2
    rw [links_eq ho] at htail
    exact htail.congr fun u hu => links_dispose _ (hne u hu)
  exact ⟨h.of_sublist hlinked (List.sublist_cons_self t l) fun u hu => hrem.data u (by simpa using hne u hu), hrem⟩

/-- The threads at the beginning of the list. One of all threads is not deleted. -/
theorem removeHead_spec (h : s.Holds l) (hd : ∀ t ∈ l, s.deleted t = dead t) (hlive : ∃ t ∈ l, dead t = false)
    (hf : l.length < fuel) :
    ∃ s' x c, forever .diverges removeHeadStep fuel s = .ok (s', x) ∧ l.dropWhile dead = x :: c ∧
      s'.Holds (x :: c) ∧ Removed s s' (l.takeWhile dead) := by
  induction l generalizing s fuel with
  | nil => simp at hlive
  | cons t l ih =>
    obtain ⟨n, rfl⟩ : ∃ n, fuel = n + 1 := ⟨fuel - 1, by simp at hf; omega⟩
    obtain ⟨o, ho⟩ := h.alive t List.mem_cons_self
    have hhead : s.head = some t := h.linked.1
    have hdt : ThreadFlags.isDeleted o.flags = dead t := (deleted_eq ho).symm.trans (hd t List.mem_cons_self)
    cases hdead : dead t with
    | false =>
      refine ⟨s, t, l, forever_done ?_, List.dropWhile_cons_of_neg (by simp [hdead]), h, ?_⟩
      · simp [removeHeadStep, hhead, load_eq ho, hdt, hdead]
      · rw [List.takeWhile_cons_of_neg (by simp [hdead])]
        exact .refl s
    | true =>
      obtain ⟨hholds, hrem⟩ := h.disposeHead ho
      have hnot : ∀ u ∈ l, u ∉ [t] := by
        intro u hu hm
        rw [List.mem_singleton.mp hm] at hu
        exact (List.nodup_cons.mp h.nodup).1 hu
      have hlive₁ : ∃ u ∈ l, dead u = false := by
        obtain ⟨u, hu, hdu⟩ := hlive
        refine ⟨u, (List.mem_cons.mp hu).resolve_left ?_, hdu⟩
        rintro rfl
        rw [hdead] at hdu
        cases hdu
      obtain ⟨s', x, c, hrun, hdrop, hholds', hrem'⟩ := ih hholds
        (fun u hu => (hrem.deleted_eq (hnot u hu)).trans (hd u (List.mem_cons_of_mem _ hu))) hlive₁ (by simpa using hf)
      have hstep : s.removeHeadStep = .ok (.next ({ s with head := o.next }.dispose t)) := by
        simp [removeHeadStep, hhead, load_eq ho, hdt, hdead]
      refine ⟨s', x, c, (forever_next hstep).trans hrun, by rwa [List.dropWhile_cons_of_pos hdead], hholds', ?_⟩
      rw [List.takeWhile_cons_of_pos hdead]
      exact hrem.trans hrem'

/-- The other threads. -/
theorem removeRest_spec (h : s.Holds (a ++ walk :: b)) (hd : ∀ t ∈ b, s.deleted t = dead t) (hf : b.length < fuel) :
    ∃ s', forever .diverges removeRestStep fuel (s, walk) = .ok s' ∧
      s'.Holds (a ++ walk :: b.filter (!dead ·)) ∧ Removed s s' (b.filter dead) := by
  induction b generalizing s a walk fuel with
  | nil =>
    obtain ⟨n, rfl⟩ : ∃ n, fuel = n + 1 := ⟨fuel - 1, by simp at hf; omega⟩
    obtain ⟨ow, how⟩ := h.alive walk (by simp)
    have hnext : ow.next = none := (links_eq how).symm.trans h.linked.next_eq
    exact ⟨s, forever_done (by simp [removeRestStep, load_eq how, hnext]), h, .refl s⟩
  | cons x b ih =>
    obtain ⟨n, rfl⟩ : ∃ n, fuel = n + 1 := ⟨fuel - 1, by simp at hf; omega⟩
    obtain ⟨ow, how⟩ := h.alive walk (by simp)
    obtain ⟨ox, hox⟩ := h.alive x (by simp)
    have hnext : ow.next = some x := (links_eq how).symm.trans h.linked.next_eq
    have hdx : ThreadFlags.isDeleted ox.flags = dead x := (deleted_eq hox).symm.trans (hd x List.mem_cons_self)
    have hsplit : a ++ walk :: x :: b = (a ++ [walk]) ++ x :: b := by simp
    cases hdead : dead x with
    | false =>
      have hstep : removeRestStep (s, walk) = .ok (.next (s, x)) := by
        simp [removeRestStep, load_eq how, hnext, load_eq hox, hdx, hdead]
      obtain ⟨s', hs', hholds, hrem⟩ := ih (hsplit ▸ h) (fun u hu => hd u (List.mem_cons_of_mem _ hu)) (by simpa using hf)
      refine ⟨s', (forever_next hstep).trans hs', ?_, ?_⟩
      · rw [List.filter_cons_of_pos (by simp [hdead])]
        simpa using hholds
      · rwa [List.filter_cons_of_neg (by simp [hdead])]
    | true =>
      set s₁ : EDFScheduler T := (s.link walk ox.next).dispose x with hs₁
      have hrem : Removed s s₁ [x] := by
        have hdispose := removed_dispose (s.link walk ox.next) x
        exact ⟨hdispose.freed, fun u hu => (hdispose.data u hu).trans (dataOf_link s walk _ u), rfl, rfl⟩
      have hxab : x ∉ a ++ walk :: b := by
        have hnd := h.nodup
        rw [hsplit, List.nodup_middle, List.nodup_cons] at hnd
        simpa using hnd.1
      have hne : ∀ u ∈ a ++ walk :: b, u ≠ x := by
        rintro u hu rfl
        exact hxab hu
      have hnot : ∀ u ∈ a ++ walk :: b, u ∉ [x] := fun u hu => by simpa using hne u hu
      have hlinked : Linked s₁.links s₁.head (a ++ walk :: b) := by
        have hunlink := h.linked.unlink h.nodup
        rw [links_eq hox, ← links_link how] at hunlink
        exact hunlink.congr fun u hu => links_dispose _ (hne u hu)
      have hholds : s₁.Holds (a ++ walk :: b) := by
        refine h.of_sublist hlinked ?_ fun u hu => hrem.data u (hnot u hu)
        exact (List.Sublist.refl a).append ((List.sublist_cons_self x b).cons_cons walk)
      have hd₁ : ∀ u ∈ b, s₁.deleted u = dead u := fun u hu =>
        (hrem.deleted_eq (hnot u (by simp [hu]))).trans (hd u (List.mem_cons_of_mem _ hu))
      obtain ⟨s', hs', hholds', hrem'⟩ := ih hholds hd₁ (by simpa using hf)
      have hstep : removeRestStep (s, walk) = .ok (.next (s₁, walk)) := by
        simp [removeRestStep, load_eq how, hnext, load_eq hox, hdx, hdead, modify_next_eq how, hs₁]
      refine ⟨s', (forever_next hstep).trans hs', ?_, ?_⟩
      · rwa [List.filter_cons_of_neg (by simp [hdead])]
      · rw [List.filter_cons_of_pos hdead]
        exact hrem.trans hrem'

/-- `PKremoveDeadThreads` removes exactly the deleted threads, if there is another one. -/
theorem pkRemoveDeadThreads_spec (h : s.Holds l) (hlive : ∃ t ∈ l, s.deleted t = false) (hf : l.length < fuel) :
    ∃ s', s.pkRemoveDeadThreads fuel = .ok s' ∧ s'.Holds (l.filter (!s.deleted ·)) ∧
      Removed s s' (l.filter s.deleted) := by
  obtain ⟨s₁, x, c, hrun, hdrop, hholds, hrem⟩ := removeHead_spec h (fun _ _ => rfl) hlive hf
  have hlc : (x :: c).length ≤ l.length := by
    rw [← hdrop]
    exact (List.dropWhile_sublist _).length_le
  have hd : ∀ t ∈ c, s₁.deleted t = s.deleted t := by
    intro t ht
    refine hrem.deleted_eq fun htake => ?_
    have hnd := h.nodup
    rw [← List.takeWhile_append_dropWhile (p := s.deleted) (l := l), hdrop] at hnd
    exact (List.nodup_append.mp hnd).2.2 t htake t (List.mem_cons_of_mem _ ht) rfl
  have hlt : c.length < fuel := by
    simp only [List.length_cons] at hlc
    omega
  obtain ⟨s', hs', hholds', hrem'⟩ := removeRest_spec (a := []) hholds hd hlt
  have hx : s.deleted x = false := by
    have hhead := List.head?_dropWhile_not s.deleted l
    rwa [hdrop] at hhead
  obtain ⟨halive, hfreed⟩ := PriorityScheduler.filter_dropWhile_dead s.deleted l
  rw [hdrop, List.filter_cons_of_pos (by simp [hx])] at halive
  rw [hdrop, List.filter_cons_of_neg (by simp [hx])] at hfreed
  rw [halive, hfreed]
  refine ⟨s', ?_, hholds', hrem.trans hrem'⟩
  rw [pkRemoveDeadThreads, hrun, ok_bind]
  exact hs'

/-- An empty list is wrong. -/
theorem pkRemoveDeadThreads_error (h : s.Holds l) (hdead : ∀ t ∈ l, s.deleted t = true) (hf : l.length < fuel) :
    s.pkRemoveDeadThreads fuel = .error .unexpected := by
  have hhead : forever .diverges removeHeadStep fuel s = .error .unexpected := by
    induction l generalizing s fuel with
    | nil =>
      obtain ⟨n, rfl⟩ : ∃ n, fuel = n + 1 := ⟨fuel - 1, by simp at hf; omega⟩
      have hnone : s.head = none := h.linked
      simp only [forever, removeHeadStep, hnone]
      rfl
    | cons t l ih =>
      obtain ⟨n, rfl⟩ : ∃ n, fuel = n + 1 := ⟨fuel - 1, by simp at hf; omega⟩
      obtain ⟨o, ho⟩ := h.alive t List.mem_cons_self
      have hfirst : s.head = some t := h.linked.1
      have hdt : ThreadFlags.isDeleted o.flags = true := (deleted_eq ho).symm.trans (hdead t List.mem_cons_self)
      have hstep : s.removeHeadStep = .ok (.next ({ s with head := o.next }.dispose t)) := by
        simp [removeHeadStep, hfirst, load_eq ho, hdt]
      obtain ⟨hholds, hrem⟩ := h.disposeHead ho
      rw [forever_next hstep]
      refine ih hholds (fun u hu => ?_) (by simpa using hf)
      have hut : u ∉ [t] := by
        rintro hm
        rw [List.mem_singleton.mp hm] at hu
        exact (List.nodup_cons.mp h.nodup).1 hu
      rw [hrem.deleted_eq hut]
      exact hdead u (List.mem_cons_of_mem _ hu)
  rw [pkRemoveDeadThreads, hhead]
  rfl

end Dead

/-! ## The thread to run -/

/-- A ready thread with the earliest deadline of all ready threads. -/
def Earliest (s : EDFScheduler T) (l : List T) (t : T) : Prop :=
  t ∈ l ∧ s.ready t = true ∧ ∀ u ∈ l, s.ready u = true → s.deadlineOf t ≤ s.deadlineOf u

/-- The walk over the list. The threads before are not ready. -/
theorem findStep_spec (h : s.Holds (a ++ b)) (ha : ∀ t ∈ a, s.ready t = false) (hr : ∃ t ∈ b, s.ready t = true)
    (hf : b.length ≤ fuel) :
    ∃ t, forever .diverges s.findStep fuel b.head? = .ok { s with cur := some t } ∧ s.Earliest (a ++ b) t := by
  induction b generalizing a fuel with
  | nil => simp at hr
  | cons x b ih =>
    obtain ⟨n, rfl⟩ : ∃ n, fuel = n + 1 := ⟨fuel - 1, by simp at hf; omega⟩
    obtain ⟨ox, hox⟩ := h.alive x (by simp)
    have hready : ThreadFlags.isReady ox.flags = s.ready x := (ready_eq hox).symm
    by_cases hx : s.ready x = true
    · refine ⟨x, forever_done (by simp [findStep, load_eq hox, hready, hx]), by simp, hx, fun u hu hur => ?_⟩
      have hsorted := (List.pairwise_append.mp h.sorted).2.1
      rcases List.mem_append.mp hu with hua | hub
      · rw [ha u hua] at hur
        cases hur
      · rcases List.mem_cons.mp hub with rfl | hub
        · exact le_rfl
        · exact (List.pairwise_cons.mp hsorted).1 u hub
    · have hnext : ox.next = b.head? := (links_eq hox).symm.trans h.linked.next_eq
      have hstep : s.findStep (some x) = .ok (.next b.head?) := by simp [findStep, load_eq hox, hready, hx, hnext]
      have hsplit : a ++ x :: b = (a ++ [x]) ++ b := by simp
      have hr' : ∃ t ∈ b, s.ready t = true := by
        obtain ⟨t, ht, htr⟩ := hr
        refine ⟨t, (List.mem_cons.mp ht).resolve_left ?_, htr⟩
        rintro rfl
        exact hx htr
      have ha' : ∀ t ∈ a ++ [x], s.ready t = false := by
        intro t ht
        rcases List.mem_append.mp ht with hta | htx
        · exact ha t hta
        · rw [List.mem_singleton.mp htx]
          simpa using hx
      obtain ⟨t, ht, hearliest⟩ := ih (hsplit ▸ h) ha' hr' (by simpa using hf)
      exact ⟨t, (forever_next hstep).trans ht, hsplit ▸ hearliest⟩

theorem find_spec (h : s.Holds l) (hr : ∃ t ∈ l, s.ready t = true) (hk : s.kernelRunning = 0) (hf : l.length ≤ fuel) :
    ∃ t, s.irqFindNextThread fuel = .ok { s with cur := some t } ∧ s.Earliest l t := by
  rw [irqFindNextThread, if_neg (by simp [hk])]
  have hwalk := findStep_spec (a := []) h (by simp) hr hf
  rwa [← h.linked.first_eq] at hwalk

theorem find_error (h : s.Holds l) (hr : ∀ t ∈ l, s.ready t = false) (hk : s.kernelRunning = 0) (hf : l.length < fuel) :
    s.irqFindNextThread fuel = .error .unexpected := by
  suffices hwalk : ∀ b first n, Linked s.links first b → b ⊆ l → b.length < n →
      forever .diverges s.findStep n first = .error .unexpected by
    rw [irqFindNextThread, if_neg (by simp [hk])]
    exact hwalk l s.head fuel h.linked (List.Subset.refl l) hf
  intro b
  induction b with
  | nil =>
    rintro first (_ | n) hl - hn
    · cases hn
    · obtain rfl : first = none := hl
      rfl
  | cons x b ih =>
    rintro first (_ | n) ⟨rfl, hl⟩ hsub hn
    · cases hn
    · obtain ⟨ox, hox⟩ := h.alive x (hsub List.mem_cons_self)
      have hx : ThreadFlags.isReady ox.flags = false := (ready_eq hox).symm.trans (hr x (hsub List.mem_cons_self))
      have hstep : s.findStep (some x) = .ok (.next ox.next) := by simp [findStep, load_eq hox, hx]
      rw [links_eq hox] at hl
      rw [forever_next hstep]
      exact ih ox.next n hl (List.subset_of_cons_subset hsub) (by simpa using hn)

/-! ## The invariant -/

/-- The list has the threads `l`, which are all threads in memory. The idle thread, once it is in memory, is
ready and has the deadline that is reserved for it. -/
structure Inv (idle : T) (s : EDFScheduler T) (l : List T) : Prop where
  holds : s.Holds l
  stored : ∀ t o, s.mem t = some o → t ∈ l
  idle_data : ∀ d, s.dataOf idle = some d → d = (0, idleDeadline)

/-- A memory that agrees on the threads of the list. -/
theorem Holds.congr (h : s.Holds l) (heq : ∀ t ∈ l, s'.mem t = s.mem t) (hhead : s'.head = s.head) : s'.Holds l := by
  refine h.of_sublist ?_ (List.Sublist.refl l) fun t ht => by rw [dataOf, dataOf, heq t ht]
  rw [hhead]
  exact h.linked.congr fun t ht => by rw [links, links, heq t ht]

section Steps

variable [DecidableEq T] {idle : T}

/-- The thread `t`, which is in no list, is added. -/
theorem Inv.add (hholds : s.Holds l) (ho : s.mem t = some o) (ht : t ∉ l) (hn : l = [] → o.next = none)
    (hstored : ∀ u o, s.mem u = some o → u = t ∨ u ∈ l) (hidle : ∀ d, s.dataOf idle = some d → d = (0, idleDeadline))
    (hf : l.length < fuel) :
    ∃ s', s.add t fuel = .ok s' ∧ s'.Inv idle (s.inserted t l) := by
  obtain ⟨s', hadd, hrel⟩ := add_spec hholds ho ht hn hf
  have hperm := s.inserted_perm t l
  refine ⟨s', hadd, hrel.holds ?_ (fun u hu => ?_) (inserted_sorted hholds.sorted t), fun u ou hu => ?_, fun d hd => ?_⟩
  · exact hperm.nodup_iff.mpr (List.nodup_cons.mpr ⟨ht, hholds.nodup⟩)
  · rcases List.mem_cons.mp (hperm.mem_iff.mp hu) with rfl | hul
    · exact ⟨o, ho⟩
    · exact hholds.alive u hul
  · obtain ⟨ou', hou'⟩ := exists_mem_of_data (hrel.data u).symm hu
    exact hperm.mem_iff.mpr (List.mem_cons.mpr (hstored u ou' hou'))
  · exact hidle d ((hrel.data idle).symm.trans hd)

/-- A new thread. -/
theorem Inv.create (h : s.Inv idle l) (ht : s.mem t = none) (priority : EDFSchedulerPriority)
    (hidle : t = idle → priority = idleDeadline) (hf : l.length < fuel) :
    ∃ s' l', (s.create t).pkAddThread t priority fuel = .ok s' ∧ s'.Inv idle l' ∧ l'.Perm (t :: l) := by
  set o : EDFThread T := ⟨none, 0, priority⟩ with ho
  set s₁ : EDFScheduler T := { s with mem := Function.update s.mem t (some o) } with hs₁
  have hself : s₁.mem t = some o := Function.update_self _ _ _
  have hother : ∀ u, u ≠ t → s₁.mem u = s.mem u := fun u hu => Function.update_of_ne hu _ _
  have hne : ∀ u ∈ l, u ≠ t := by
    rintro u hu rfl
    obtain ⟨ou, hou⟩ := h.holds.alive u hu
    rw [ht] at hou
    cases hou
  have hholds : s₁.Holds l := h.holds.congr (fun u hu => hother u (hne u hu)) rfl
  have hstored : ∀ u ou, s₁.mem u = some ou → u = t ∨ u ∈ l := by
    intro u ou hu
    by_cases hut : u = t
    · exact .inl hut
    · exact .inr (h.stored u ou ((hother u hut).symm.trans hu))
  have hdata : ∀ d, s₁.dataOf idle = some d → d = (0, idleDeadline) := by
    intro d hd
    by_cases hti : t = idle
    · subst hti
      rw [dataOf_eq hself] at hd
      obtain rfl := Option.some.inj hd
      rw [ho, hidle rfl]
    · refine h.idle_data d ?_
      rwa [dataOf, hother idle (Ne.symm hti)] at hd
  obtain ⟨s', hadd, hinv⟩ := Inv.add hholds hself (fun hm => hne t hm rfl) (fun _ => rfl) hstored hdata hf
  refine ⟨s', s₁.inserted t l, ?_, hinv, s₁.inserted_perm t l⟩
  have hmodify : ((s.create t).modify t fun o => { o with deadline := priority }) = .ok s₁ := by
    simp [modify, EDFScheduler.create, load, hs₁, ho]
  rw [pkAddThread, hmodify, ok_bind, hadd]

theorem Inv.setPriority (h : s.Inv idle l) (ho : s.mem t = some o) (hti : t ≠ idle) (priority : EDFSchedulerPriority)
    (hf : l.length < fuel) :
    ∃ s' l', s.pkSetPriority t priority fuel = .ok s' ∧ s'.Inv idle l' ∧ l'.Perm l := by
  obtain ⟨a, b, rfl⟩ := List.append_of_mem (h.stored t o ho)
  have hnd := h.holds.nodup
  rw [List.nodup_middle, List.nodup_cons] at hnd
  have hne : ∀ u ∈ a ++ b, u ≠ t := by
    rintro u hu rfl
    exact hnd.1 hu
  have hlt : a.length < fuel ∧ (a ++ b).length < fuel := by
    simp only [List.length_append, List.length_cons] at hf ⊢
    omega
  obtain ⟨s₁, hremove, hrel, hlinks⟩ := remove_spec h.holds hlt.1
  obtain ⟨o₁, ho₁⟩ := exists_mem_of_data (hrel.data t) ho
  have hsub : (a ++ b).Sublist (a ++ t :: b) := (List.Sublist.refl a).append (List.sublist_cons_self t b)
  have hholds₁ : s₁.Holds (a ++ b) := h.holds.of_sublist hrel.linked hsub fun u _ => hrel.data u
  -- the deadline changes while the thread is in no list
  set s₂ : EDFScheduler T := { s₁ with mem := Function.update s₁.mem t (some { o₁ with deadline := priority }) } with hs₂
  have hself : s₂.mem t = some { o₁ with deadline := priority } := Function.update_self _ _ _
  have hother : ∀ u, u ≠ t → s₂.mem u = s₁.mem u := fun u hu => Function.update_of_ne hu _ _
  have hstored : ∀ u ou, s₂.mem u = some ou → u = t ∨ u ∈ a ++ b := by
    intro u ou hu
    by_cases hut : u = t
    · exact .inl hut
    · obtain ⟨ou', hou'⟩ := exists_mem_of_data (hrel.data u).symm ((hother u hut).symm.trans hu)
      exact .inr (by simpa [hut] using h.stored u ou' hou')
  have hnext : a ++ b = [] → o₁.next = none := by
    intro hnil
    obtain ⟨rfl, rfl⟩ := List.append_eq_nil_iff.mp hnil
    rw [← links_eq ho₁, hlinks]
    exact h.holds.linked.next_eq (a := [])
  obtain ⟨s', hadd, hinv⟩ := Inv.add (hholds₁.congr (fun u hu => hother u (hne u hu)) rfl) hself hnd.1 hnext hstored
    (fun d hd => h.idle_data d (by rwa [dataOf, hother idle hti.symm, ← dataOf, hrel.data] at hd))
    hlt.2
  refine ⟨s', s₂.inserted t (a ++ b), ?_, hinv, (s₂.inserted_perm t _).trans List.perm_middle.symm⟩
  have hmodify : (s₁.modify t fun o => { o with deadline := priority }) = .ok s₂ := by
    rw [modify, load_eq ho₁]
    rfl
  rw [pkSetPriority, hremove, ok_bind, hmodify, ok_bind, hadd]

theorem Inv.setFlags (h : s.Inv idle l) (ho : s.mem t = some o) (hti : t ≠ idle) (flags : ℕ) :
    ∃ s', (s.modify t fun o => { o with flags := flags }) = .ok s' ∧ s'.Inv idle l := by
  refine ⟨{ s with mem := Function.update s.mem t (some { o with flags := flags }) },
    by rw [modify, load_eq ho]; rfl, ?_⟩
  set s' : EDFScheduler T := { s with mem := Function.update s.mem t (some { o with flags := flags }) } with hs'
  have hself : s'.mem t = some { o with flags := flags } := Function.update_self _ _ _
  have hother : ∀ u, u ≠ t → s'.mem u = s.mem u := fun u hu => Function.update_of_ne hu _ _
  have hlinks : s'.links = s.links := by
    funext u
    by_cases hut : u = t
    · rw [hut, links_eq hself, links_eq ho]
    · rw [links, links, hother u hut]
  have hdeadline : s'.deadlineOf = s.deadlineOf := by
    funext u
    by_cases hut : u = t
    · rw [hut, deadlineOf_eq hself, deadlineOf_eq ho]
    · rw [deadlineOf, deadlineOf, dataOf, dataOf, hother u hut]
  refine ⟨⟨by rw [hlinks]; exact h.holds.linked, h.holds.nodup, fun u hu => ?_, by rw [hdeadline]; exact h.holds.sorted⟩,
    fun u ou hu => ?_, fun d hd => h.idle_data d (by rwa [dataOf, hother idle hti.symm] at hd)⟩
  · by_cases hut : u = t
    · exact ⟨_, by rw [hut]; exact hself⟩
    · obtain ⟨ou, hou⟩ := h.holds.alive u hu
      exact ⟨ou, (hother u hut).trans hou⟩
  · by_cases hut : u = t
    · rw [hut]
      exact h.stored t o ho
    · exact h.stored u ou ((hother u hut).symm.trans hu)

omit [DecidableEq T] in
theorem Inv.idle_live (h : s.Inv idle l) (hi : idle ∈ l) :
    s.deadlineOf idle = 2 ^ 63 - 2 ∧ s.ready idle = true ∧ s.deleted idle = false := by
  obtain ⟨o, ho⟩ := h.holds.alive idle hi
  have hd := h.idle_data _ (dataOf_eq ho)
  rw [deadlineOf, ready, deleted, dataOf_eq ho, hd]
  exact ⟨rfl, rfl, rfl⟩

theorem Inv.removeDead (h : s.Inv idle l) (hlive : ∃ t ∈ l, s.deleted t = false) (hf : l.length < fuel) :
    ∃ s', s.pkRemoveDeadThreads fuel = .ok s' ∧ s'.Inv idle (l.filter (!s.deleted ·)) := by
  obtain ⟨s', hs', hholds, hrem⟩ := pkRemoveDeadThreads_spec h.holds hlive hf
  refine ⟨s', hs', hholds, fun u ou hu => ?_, fun d hd => ?_⟩
  · have hug : u ∉ l.filter s.deleted := by
      intro hg
      rw [hrem.freed u hg] at hu
      cases hu
    obtain ⟨ou', hou'⟩ := exists_mem_of_data (hrem.data u hug).symm hu
    have hul := h.stored u ou' hou'
    rw [List.mem_filter, not_and] at hug
    exact List.mem_filter.mpr ⟨hul, by simpa using hug hul⟩
  · refine h.idle_data d ?_
    by_cases hg : idle ∈ l.filter s.deleted
    · rw [dataOf, hrem.freed idle hg] at hd
      cases hd
    · rwa [hrem.data idle hg] at hd

/-- A step keeps the invariant, or there is no idle thread yet and a branch that is wrong is reached. -/
theorem Inv.step (h : s.Inv idle l) (e : EDFEvent T) (hf : l.length < fuel) :
    (∃ s' l', s.step idle fuel e = .ok s' ∧ s'.Inv idle l' ∧ l'.length ≤ l.length + 1 ∧
      (idle ∈ l ∨ e = .setIdle → idle ∈ l')) ∨
    (s.step idle fuel e = .error .unexpected ∧ idle ∉ l ∧ e ≠ .setIdle) := by
  have hsame : ∀ s' : EDFScheduler T, s'.Inv idle l → (e = .setIdle → idle ∈ l) →
      ∃ s'' l', (Except.ok s' : Except Fault (EDFScheduler T)) = .ok s'' ∧
      s''.Inv idle l' ∧ l'.length ≤ l.length + 1 ∧ (idle ∈ l ∨ e = .setIdle → idle ∈ l') :=
    fun s' hs' he => ⟨s', l, rfl, hs', Nat.le_succ _, fun hor => hor.elim id he⟩
  cases e with
  | add t priority =>
    left
    rw [EDFScheduler.step]
    split
    case isTrue => exact hsame s h nofun
    case isFalse hadd =>
      obtain ⟨ht, hti⟩ := not_or.mp hadd
      obtain ⟨s', l', hs', hinv, hperm⟩ := h.create (by simpa using ht) priority (fun heq => absurd heq hti) hf
      refine ⟨s', l', hs', hinv, hperm.length_eq.le, fun hor => ?_⟩
      exact hperm.mem_iff.mpr (List.mem_cons_of_mem _ (hor.resolve_right nofun))
  | setIdle =>
    left
    rw [EDFScheduler.step]
    split
    case isTrue hsome =>
      obtain ⟨o, ho⟩ := Option.isSome_iff_exists.mp hsome
      exact hsame s h fun _ => h.stored idle o ho
    case isFalse hsome =>
      obtain ⟨s', l', hs', hinv, hperm⟩ := h.create (by simpa using hsome) idleDeadline (fun _ => rfl) hf
      exact ⟨s', l', hs', hinv, hperm.length_eq.le, fun _ => hperm.mem_iff.mpr List.mem_cons_self⟩
  | setPriority t priority =>
    left
    rw [EDFScheduler.step]
    split
    case isTrue => exact hsame s h nofun
    case isFalse hskip =>
      obtain ⟨ht, hti⟩ := not_or.mp hskip
      obtain ⟨o, ho⟩ := Option.ne_none_iff_exists'.mp (by simpa using ht)
      obtain ⟨s', l', hs', hinv, hperm⟩ := h.setPriority ho hti priority hf
      refine ⟨s', l', hs', hinv, hperm.length_eq.le.trans (Nat.le_succ _), fun hor => ?_⟩
      exact hperm.mem_iff.mpr (hor.resolve_right nofun)
  | setFlags t flags =>
    left
    rw [EDFScheduler.step]
    split
    case isTrue => exact hsame s h nofun
    case isFalse hskip =>
      obtain ⟨ht, hti⟩ := not_or.mp hskip
      obtain ⟨o, ho⟩ := Option.ne_none_iff_exists'.mp (by simpa using ht)
      obtain ⟨s', hs', hinv⟩ := h.setFlags ho hti flags
      rw [hs']
      exact hsame s' hinv nofun
  | removeDead =>
    rw [EDFScheduler.step]
    by_cases hlive : ∃ t ∈ l, s.deleted t = false
    · left
      obtain ⟨s', hs', hinv⟩ := h.removeDead hlive hf
      refine ⟨s', _, hs', hinv, (List.length_filter_le _ _).trans (Nat.le_succ _), fun hor => ?_⟩
      have hi := hor.resolve_right nofun
      exact List.mem_filter.mpr ⟨hi, by simp [(h.idle_live hi).2.2]⟩
    · right
      have hdead : ∀ t ∈ l, s.deleted t = true := by simpa using hlive
      exact ⟨pkRemoveDeadThreads_error h.holds hdead hf, fun hi => hlive ⟨idle, hi, (h.idle_live hi).2.2⟩, nofun⟩
  | find =>
    rw [EDFScheduler.step]
    by_cases hk : s.kernelRunning = 0
    · by_cases hr : ∃ t ∈ l, s.ready t = true
      · left
        obtain ⟨t, ht, -⟩ := find_spec h.holds hr hk hf.le
        rw [ht]
        exact hsame _ { h with holds := { h.holds with linked := h.holds.linked } } nofun
      · right
        have hnone : ∀ t ∈ l, s.ready t = false := by simpa using hr
        exact ⟨find_error h.holds hnone hk hf, fun hi => hr ⟨idle, hi, (h.idle_live hi).2.1⟩, nofun⟩
    · left
      rw [irqFindNextThread, if_pos hk]
      exact hsame s h nofun
  | pause kernelRunning =>
    left
    exact hsame _ { h with holds := { h.holds with linked := h.holds.linked } } nofun

/-- A run keeps the invariant, or a branch that is wrong is reached before the idle thread is in the list. -/
theorem Inv.run (h : s.Inv idle l) (es : List (EDFEvent T)) (hf : l.length + es.length < fuel) :
    (∃ s' l', s.run idle fuel es = .ok s' ∧ s'.Inv idle l' ∧ l'.length ≤ l.length + es.length ∧
      (idle ∈ l ∨ .setIdle ∈ es → idle ∈ l')) ∨
    (s.run idle fuel es = .error .unexpected ∧ idle ∉ l ∧
      ∃ before after, es = before ++ after ∧ .setIdle ∉ before ∧ s.run idle fuel before = .error .unexpected) := by
  induction es generalizing s l with
  | nil => exact .inl ⟨s, l, rfl, h, le_rfl, fun hor => hor.resolve_right List.not_mem_nil⟩
  | cons e es ih =>
    have hlt : l.length < fuel := by
      simp only [List.length_cons] at hf
      omega
    rcases h.step e hlt with ⟨s₁, l₁, hs₁, hinv₁, hlen₁, hidle₁⟩ | ⟨herr, hno, hne⟩
    · have hrun : ∀ es', s.run idle fuel (e :: es') = s₁.run idle fuel es' := by
        intro es'
        rw [EDFScheduler.run, hs₁, ok_bind]
      rw [hrun]
      rcases ih hinv₁ (by simp only [List.length_cons] at hf; omega) with
        ⟨s', l', hs', hinv', hlen', hidle'⟩ | ⟨herr, hno, before, after, rfl, hbefore, hrunb⟩
      · refine .inl ⟨s', l', hs', hinv', by simp only [List.length_cons]; omega, fun hor => hidle' ?_⟩
        rcases hor with hi | hmem
        · exact .inl (hidle₁ (.inl hi))
        · rcases List.mem_cons.mp hmem with heq | hmem
          · exact .inl (hidle₁ (.inr heq.symm))
          · exact .inr hmem
      · refine .inr ⟨herr, fun hi => hno (hidle₁ (.inl hi)), e :: before, after, rfl, ?_, (hrun before).trans hrunb⟩
        intro hmem
        rcases List.mem_cons.mp hmem with heq | hmem
        · exact hno (hidle₁ (.inr heq.symm))
        · exact hbefore hmem
    · have hrun : ∀ es', s.run idle fuel (e :: es') = .error .unexpected := by
        intro es'
        rw [EDFScheduler.run, herr]
        rfl
      exact .inr ⟨hrun es, hno, [e], es, rfl, by simpa using hne.symm, hrun []⟩

omit [DecidableEq T] in
theorem inv_initial (idle : T) : (initial : EDFScheduler T).Inv idle [] where
  holds := ⟨rfl, List.nodup_nil, by simp, List.Pairwise.nil⟩
  stored _ _ ho := nomatch ho
  idle_data _ hd := nomatch hd

/-- **The list of threads**: every run reaches a state, unless a branch that is wrong is reached before the idle
thread is set. The threads in memory are in the list, once each and in the order of their deadlines.
`PKremoveDeadThreads` removes exactly the deleted ones, and `IRQfindNextThread` selects a ready thread with the
earliest deadline of all. -/
theorem run_sorted (idle : T) (es : List (EDFEvent T)) :
    ∃ n, ∀ fuel ≥ n,
      (∃ s l, (initial : EDFScheduler T).run idle fuel es = .ok s ∧ s.Holds l ∧ (∀ t, t ∈ l ↔ (s.mem t).isSome) ∧
        (.setIdle ∈ es → idle ∈ l ∧ s.deadlineOf idle = 2 ^ 63 - 2 ∧ s.ready idle = true ∧ s.deleted idle = false) ∧
        ((∃ t ∈ l, s.deleted t = false) → ∃ s', s.pkRemoveDeadThreads fuel = .ok s' ∧
          s'.Holds (l.filter (!s.deleted ·)) ∧ ∀ t ∈ l, s'.mem t = none ↔ s.deleted t = true) ∧
        ((∃ t ∈ l, s.ready t = true) → s.kernelRunning = 0 → ∃ t, s.irqFindNextThread fuel = .ok { s with cur := some t } ∧
          s.Earliest l t)) ∨
      ((initial : EDFScheduler T).run idle fuel es = .error .unexpected ∧ ∃ before after, es = before ++ after ∧
        .setIdle ∉ before ∧ (initial : EDFScheduler T).run idle fuel before = .error .unexpected) := by
  refine ⟨es.length + 1, fun fuel hfuel => ?_⟩
  have hlt : ([] : List T).length + es.length < fuel := by
    simp only [List.length_nil]
    omega
  rcases (inv_initial idle).run es hlt with ⟨s, l, hs, hinv, hlen, hidle⟩ | ⟨herr, -, hbefore⟩
  · left
    have hlf : l.length < fuel := by
      simp only [List.length_nil] at hlen
      omega
    refine ⟨s, l, hs, hinv.holds, fun t => ⟨fun ht => ?_, fun ht => ?_⟩, fun hmem => ?_, fun hlive => ?_, fun hr hk => ?_⟩
    · exact Option.isSome_iff_exists.mpr (hinv.holds.alive t ht)
    · obtain ⟨o, ho⟩ := Option.isSome_iff_exists.mp ht
      exact hinv.stored t o ho
    · exact ⟨hidle (.inr hmem), hinv.idle_live (hidle (.inr hmem))⟩
    · obtain ⟨s', hs', hholds, hrem⟩ := pkRemoveDeadThreads_spec hinv.holds hlive hlf
      refine ⟨s', hs', hholds, fun t ht => ⟨fun hn => ?_, fun hd => hrem.freed t (List.mem_filter.mpr ⟨ht, hd⟩)⟩⟩
      by_contra hd
      obtain ⟨o, ho⟩ := hholds.alive t (List.mem_filter.mpr ⟨ht, by simpa using hd⟩)
      rw [hn] at ho
      cases ho
    · exact find_spec hinv.holds hr hk hlf.le
  · exact .inr ⟨herr, hbefore⟩

/-- Threads with equal deadlines: the one that was added last runs. -/
example : ((initial : EDFScheduler ℕ).run 9 9 [.add 1 ⟨5⟩, .setIdle, .add 2 ⟨7⟩, .add 3 ⟨5⟩, .setPriority 1 ⟨7⟩,
    .setFlags 3 1, .find]).toOption.map (·.cur) = some (some 1) := by
  decide

end Steps

end EDFScheduler

end Miosix
