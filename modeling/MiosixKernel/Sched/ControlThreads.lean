import MiosixKernel.Sched.Control
import Mathlib.Tactic.Ring

/-!
# The control based scheduler: the list of threads

* `Holds`: the threads that the list has, in order, its length and the round time;
* `Keeps`: what an operation leaves of the threads that it does not free;
* `visit_eq`, `pkAddThread_spec`, `removeDeleted_spec`: the operations;
* `Followed`, **`pkRemoveDeadThreads_iff`**: `PKremoveDeadThreads` removes exactly the deleted threads if and
  only if each one, after those at the head of the list, is followed by one that is not deleted.
-/

namespace Miosix

open Lib

namespace ControlList

variable {T : Type} {s s' s'' : ControlList T} {l gone : List T} {t x it : T} {o : ControlThread T} {fuel : ℕ}

/-- The links between the threads. -/
def links (s : ControlList T) (t : T) : Option T := (s.mem t).bind ControlThread.next

def deleted (s : ControlList T) (t : T) : Bool := (s.mem t).any fun o => ThreadFlags.isDeleted o.flags

def ready (s : ControlList T) (t : T) : Bool := (s.mem t).any fun o => ThreadFlags.isReady o.flags

/-- The fields of a thread but for its link. -/
def dataOf (s : ControlList T) (t : T) : Option (ℕ × ControlSchedulerPriority × Bool) :=
  (s.mem t).map fun o => (o.flags, o.priority, o.lastReadyStatus)

/-- The list has the threads `l`. -/
structure Holds (s : ControlList T) (l : List T) : Prop where
  linked : Linked s.links s.threadList l
  nodup : l.Nodup
  alive : ∀ t ∈ l, ∃ o, s.mem t = some o
  size : s.threadListSize = l.length
  round : s.spTr = bNominal * l.length

/-- The threads `gone` are freed, and the others only get other links. -/
structure Keeps (s s' : ControlList T) (gone : List T) : Prop where
  freed : ∀ t ∈ gone, s'.mem t = none
  data : ∀ t, t ∉ gone → s'.dataOf t = s.dataOf t

theorem deleted_eq_dataOf (s : ControlList T) (t : T) :
    s.deleted t = (s.dataOf t).any fun d => ThreadFlags.isDeleted d.1 := by
  unfold deleted dataOf
  cases s.mem t <;> rfl

theorem ready_eq_dataOf (s : ControlList T) (t : T) :
    s.ready t = (s.dataOf t).any fun d => ThreadFlags.isReady d.1 := by
  unfold ready dataOf
  cases s.mem t <;> rfl

namespace Keeps

theorem deleted_eq (h : Keeps s s' gone) (ht : t ∉ gone) : s'.deleted t = s.deleted t := by
  rw [deleted_eq_dataOf, deleted_eq_dataOf, h.data t ht]

theorem ready_eq (h : Keeps s s' gone) (ht : t ∉ gone) : s'.ready t = s.ready t := by
  rw [ready_eq_dataOf, ready_eq_dataOf, h.data t ht]

theorem refl (s : ControlList T) : Keeps s s [] := ⟨by simp, fun _ _ => rfl⟩

theorem trans {gone' : List T} (h : Keeps s s' gone) (h' : Keeps s' s'' gone') : Keeps s s'' (gone ++ gone') where
  freed t ht := by
    by_cases hg : t ∈ gone'
    · exact h'.freed t hg
    · have hd := h'.data t hg
      have hn := h.freed t ((List.mem_append.mp ht).resolve_right hg)
      rw [dataOf, dataOf, hn] at hd
      exact Option.map_eq_none_iff.mp hd
  data t ht := by
    obtain ⟨hg, hg'⟩ := not_or.mp (List.mem_append.not.mp ht)
    exact (h'.data t hg').trans (h.data t hg)

/-- A thread that is not freed stays in memory. -/
theorem exists_mem (h : Keeps s s' gone) (ht : t ∉ gone) (ho : s.mem t = some o) : ∃ o', s'.mem t = some o' := by
  have hd := h.data t ht
  rw [dataOf, dataOf, ho] at hd
  obtain ⟨o', ho', -⟩ := Option.map_eq_some_iff.mp hd
  exact ⟨o', ho'⟩

end Keeps

/-! ## Memory -/

theorem load_eq (h : s.mem t = some o) : s.load t = .ok o := by rw [load, h]

theorem links_eq (h : s.mem t = some o) : s.links t = o.next := by rw [links, h]; rfl

theorem deleted_eq (h : s.mem t = some o) : s.deleted t = ThreadFlags.isDeleted o.flags := by
  rw [deleted, h]
  rfl

theorem ready_eq (h : s.mem t = some o) : s.ready t = ThreadFlags.isReady o.flags := by
  rw [ready, h]
  rfl

section Memory

variable [DecidableEq T]

/-- `s` with another link after `t`. -/
def link (s : ControlList T) (t : T) (n : Option T) : ControlList T :=
  { s with mem := Function.update s.mem t ((s.mem t).map fun o => { o with next := n }) }

theorem modify_next_eq (h : s.mem t = some o) (n : Option T) :
    (s.modify t fun o => { o with next := n }) = .ok (s.link t n) := by
  rw [modify, load_eq h, link, h]
  rfl

theorem links_link (h : s.mem t = some o) (n : Option T) : (s.link t n).links = Function.update s.links t n := by
  funext u
  by_cases hu : u = t
  · subst hu
    simp [links, link, h]
  · simp [links, link, hu]

theorem keeps_link (s : ControlList T) (t : T) (n : Option T) : Keeps s (s.link t n) [] := by
  refine ⟨by simp, fun u _ => ?_⟩
  by_cases hu : u = t
  · subst hu
    simp [dataOf, link, Function.comp_def]
  · simp [dataOf, link, hu]

theorem keeps_dispose (s : ControlList T) (t : T) : Keeps s (s.dispose t) [t] := by
  refine ⟨fun u hu => ?_, fun u hu => ?_⟩
  · rw [List.mem_singleton.mp hu]
    exact Function.update_self _ _ _
  · have hut : u ≠ t := fun heq => hu (List.mem_singleton.mpr heq)
    simp [dataOf, dispose, hut]

end Memory

/-! ## Loops that only read -/

/-- The threads of the list with their fields. -/
def visited (s : ControlList T) (l : List T) : List (T × ControlThread T) :=
  l.filterMap fun t => (s.mem t).map (Prod.mk t)

theorem visited_cons (h : s.mem t = some o) : s.visited (t :: l) = (t, o) :: s.visited l := by
  simp [visited, h]

theorem visit_eq (h : s.Holds l) (hf : l.length < fuel) : s.visit fuel = .ok (s.visited l) := by
  suffices hwalk : ∀ l first acc fuel, Linked s.links first l → (∀ t ∈ l, ∃ o, s.mem t = some o) →
      l.length < fuel → forever .diverges s.visitStep fuel (first, acc) = .ok (acc.reverse ++ s.visited l) from
    hwalk l _ [] fuel h.linked h.alive hf
  intro l
  induction l with
  | nil =>
    rintro first acc (_ | fuel) hl - hf
    · cases hf
    · obtain rfl : first = none := hl
      exact forever_done (by simp [visitStep, visited])
  | cons t l ih =>
    rintro first acc (_ | fuel) ⟨rfl, hl⟩ halive hf
    · cases hf
    · obtain ⟨o, ho⟩ := halive t List.mem_cons_self
      rw [links_eq ho] at hl
      have hstep : s.visitStep (some t, acc) = .ok (.next (o.next, (t, o) :: acc)) := by
        simp [visitStep, load_eq ho]
      rw [forever_next hstep, ih o.next _ fuel hl (fun u hu => halive u (List.mem_cons_of_mem _ hu))
        (by simpa using hf), visited_cons ho]
      simp

theorem visited_filter (h : ∀ t ∈ l, ∃ o, s.mem t = some o) (p : ℕ → Bool) :
    ((s.visited l).filter fun q => p q.2.flags).map Prod.fst =
      l.filter fun t => (s.mem t).any fun o => p o.flags := by
  induction l with
  | nil => rfl
  | cons t l ih =>
    obtain ⟨o, ho⟩ := h t List.mem_cons_self
    have htail := ih fun u hu => h u (List.mem_cons_of_mem _ hu)
    rw [visited_cons ho]
    cases hp : p o.flags with
    | true => simp [ho, hp, htail]
    | false => simp [ho, hp, htail]

theorem map_fst_visited (h : ∀ t ∈ l, ∃ o, s.mem t = some o) : (s.visited l).map Prod.fst = l := by
  have hall := visited_filter h fun _ => true
  rw [List.filter_eq_self.mpr fun _ _ => rfl] at hall
  rw [hall, List.filter_eq_self]
  intro t ht
  obtain ⟨o, ho⟩ := h t ht
  simp [ho]

/-! ## Insertion -/

variable [DecidableEq T]

theorem pkAddThread_spec (h : s.Holds l) (ho : s.mem t = some o) (ht : t ∉ l) (priority : ControlSchedulerPriority) :
    ∃ s', s.pkAddThread t priority = .ok s' ∧ s'.Holds (t :: l) ∧
      s'.mem = Function.update s.mem t (some { o with priority := priority, next := s.threadList }) := by
  refine ⟨_, by rw [pkAddThread, modify, load_eq ho]; rfl, ?_, rfl⟩
  set mem := Function.update s.mem t (some { o with priority := priority, next := s.threadList }) with hmem
  have hlinks : (fun u => (mem u).bind ControlThread.next) = Function.update s.links t s.threadList := by
    funext u
    by_cases hu : u = t
    · subst hu
      simp [hmem]
    · simp [hmem, links, hu]
  refine {
    linked := ?_
    nodup := List.nodup_cons.mpr ⟨ht, h.nodup⟩
    alive := fun u hu => ?_
    size := ?_
    round := ?_ }
  · have hpush := h.linked.push ht
    rw [← hlinks] at hpush
    exact hpush
  · by_cases hut : u = t
    · exact ⟨_, by rw [hut]; exact Function.update_self _ _ _⟩
    · obtain ⟨o', ho'⟩ := h.alive u ((List.mem_cons.mp hu).resolve_left hut)
      exact ⟨o', (Function.update_of_ne hut _ _).trans ho'⟩
  · simp [h.size]
  · simp only [h.round, List.length_cons, Nat.cast_add, Nat.cast_one]
    ring

/-! ## Removal -/

/-- The first thread leaves the list and is freed. -/
theorem Holds.disposeHead (h : s.Holds (t :: l)) (ho : s.mem t = some o) :
    Holds ({ s with threadList := o.next }.dispose t) l := by
  obtain ⟨ht, hnd⟩ := List.nodup_cons.mp h.nodup
  have hlinked : Linked s.links o.next l := by
    have := h.linked.2
    rwa [links_eq ho] at this
  have hne : ∀ u ∈ l, u ≠ t := by
    rintro u hu rfl
    exact ht hu
  refine {
    linked := hlinked.congr fun u hu => ?_
    nodup := hnd
    alive := fun u hu => ?_
    size := ?_
    round := ?_ }
  · simp [links, dispose, hne u hu]
  · obtain ⟨o', ho'⟩ := h.alive u (List.mem_cons_of_mem _ hu)
    exact ⟨o', (Function.update_of_ne (hne u hu) _ _).trans ho'⟩
  · simp [dispose, h.size]
  · simp only [dispose, h.round, List.length_cons, Nat.cast_add, Nat.cast_one]
    ring

/-- The thread `x` after `t` leaves the list and is freed. -/
theorem Holds.disposeAfter {a b : List T} {o' : ControlThread T} (h : s.Holds (a ++ t :: x :: b))
    (ho : s.mem t = some o) (ho' : s.mem x = some o') :
    Holds ((s.link t o'.next).dispose x) (a ++ t :: b) := by
  have hsplit : a ++ t :: x :: b = (a ++ [t]) ++ x :: b := by simp
  have hxab : x ∉ a ++ t :: b := by
    have hnd := h.nodup
    rw [hsplit, List.nodup_middle, List.nodup_cons] at hnd
    simpa using hnd.1
  have hnd : (a ++ t :: b).Nodup := by
    have hnd := h.nodup
    rw [hsplit, List.nodup_middle, List.nodup_cons] at hnd
    simpa using hnd.2
  have hunlink := h.linked.unlink h.nodup
  rw [links_eq ho'] at hunlink
  have hne : ∀ u ∈ a ++ t :: b, u ≠ x := by
    rintro u hu rfl
    exact hxab hu
  refine {
    linked := hunlink.congr fun u hu => ?_
    nodup := hnd
    alive := fun u hu => ?_
    size := ?_
    round := ?_ }
  · have hdisp : ((s.link t o'.next).dispose x).links u = (s.link t o'.next).links u := by
      simp [links, dispose, hne u hu]
    rw [hdisp, links_link ho]
  · obtain ⟨ou, hou⟩ := h.alive u (by
      simp only [List.mem_append, List.mem_cons] at hu ⊢
      tauto)
    obtain ⟨ou', hou'⟩ := (keeps_link s t o'.next).exists_mem List.not_mem_nil hou
    exact ⟨ou', (Function.update_of_ne (hne u hu) _ _).trans hou'⟩
  · simp only [dispose, link, h.size, List.length_append, List.length_cons, Nat.cast_add, Nat.cast_one]
    ring
  · simp only [dispose, link, h.round, List.length_append, List.length_cons, Nat.cast_add, Nat.cast_one]
    ring

/-- The loop over the threads at the head of the list. -/
theorem removeHead_spec {dead : T → Bool} (h : s.Holds l) (hd : ∀ t ∈ l, s.deleted t = dead t) (hf : l.length < fuel) :
    ∃ s', forever .diverges removeHeadStep fuel s = .ok s' ∧ s'.Holds (l.dropWhile dead) ∧
      Keeps s s' (l.takeWhile dead) := by
  induction l generalizing s fuel with
  | nil =>
    obtain ⟨n, rfl⟩ : ∃ n, fuel = n + 1 := ⟨fuel - 1, by simp at hf; omega⟩
    have hnone : s.threadList = none := h.linked
    exact ⟨s, forever_done (by simp [removeHeadStep, hnone]), h, .refl s⟩
  | cons t l ih =>
    obtain ⟨n, rfl⟩ : ∃ n, fuel = n + 1 := ⟨fuel - 1, by simp at hf; omega⟩
    obtain ⟨o, ho⟩ := h.alive t List.mem_cons_self
    have hfirst : s.threadList = some t := h.linked.1
    have hdt := (deleted_eq ho).symm.trans (hd t List.mem_cons_self)
    cases hdead : dead t with
    | true =>
      have hdispose := keeps_dispose { s with threadList := o.next } t
      have hkeep : Keeps s ({ s with threadList := o.next }.dispose t) [t] := ⟨hdispose.freed, hdispose.data⟩
      have hd' : ∀ u ∈ l, ({ s with threadList := o.next }.dispose t).deleted u = dead u := by
        intro u hu
        have hut : u ≠ t := by
          rintro rfl
          exact (List.nodup_cons.mp h.nodup).1 hu
        rw [hkeep.deleted_eq (by simpa using hut)]
        exact hd u (List.mem_cons_of_mem _ hu)
      obtain ⟨s', hrun, hholds, hkeep'⟩ := ih (h.disposeHead ho) hd' (Nat.lt_of_succ_lt_succ hf)
      have hstep : s.removeHeadStep = .ok (.next ({ s with threadList := o.next }.dispose t)) := by
        simp [removeHeadStep, hfirst, load_eq ho, hdt, hdead]
      refine ⟨s', by rw [forever_next hstep, hrun], by rwa [List.dropWhile_cons_of_pos hdead], ?_⟩
      · rw [List.takeWhile_cons_of_pos hdead]
        exact hkeep.trans hkeep'
    | false =>
      refine ⟨s, forever_done ?_, ?_, ?_⟩
      · simp [removeHeadStep, hfirst, load_eq ho, hdt, hdead]
      · rwa [List.dropWhile_cons_of_neg (by simp [hdead])]
      · rw [List.takeWhile_cons_of_neg (by simp [hdead])]
        exact .refl s

/-- The threads that the second loop leaves after the head. It does not test the thread that follows a deleted
one, and it follows a null pointer if there is none. -/
def survivors (dead : T → Bool) : List T → Option (List T)
  | [] => some []
  | [x] => if dead x then none else some [x]
  | x :: y :: rest =>
    if dead x then (survivors dead rest).map (y :: ·) else (survivors dead (y :: rest)).map (x :: ·)

/-- Each dead thread is followed by one that is not. -/
def Followed (dead : T → Bool) : List T → Prop
  | [] => True
  | x :: rest => (dead x = true → rest.head?.any (!dead ·) = true) ∧ Followed dead rest

omit [DecidableEq T] in
theorem survivors_eq_filter_iff (dead : T → Bool) (l : List T) :
    survivors dead l = some (l.filter (!dead ·)) ↔ Followed dead l := by
  induction l using survivors.induct dead with
  | case1 => simp [survivors, Followed]
  | case2 x hx => simp [survivors, Followed, hx]
  | case3 x hx => simp [survivors, Followed, hx]
  | case4 x y rest hx ih =>
    cases hy : dead y with
    | true =>
      have hne : ∀ k : List T, y :: k ≠ rest.filter (!dead ·) := by
        intro k hk
        have hmem : y ∈ rest.filter (!dead ·) := hk ▸ List.mem_cons_self
        simp [hy] at hmem
      simp [survivors, Followed, hx, hy, hne]
    | false => simp [survivors, Followed, hx, hy, ← ih]
  | case5 x y rest hx ih =>
    rw [Followed, ← ih]
    simp [survivors, hx]

omit [DecidableEq T] in
theorem survivors_subset (dead : T → Bool) {l k : List T} (h : survivors dead l = some k) : k ⊆ l := by
  induction l using survivors.induct dead generalizing k with
  | case1 => simp_all [survivors]
  | case2 x hx => simp [survivors, hx] at h
  | case3 x hx => simp_all [survivors]
  | case4 x y rest hx ih =>
    simp only [survivors, hx, if_true, Option.map_eq_some_iff] at h
    obtain ⟨k', hk', rfl⟩ := h
    exact List.subset_cons_of_subset x (List.cons_subset_cons y (ih hk'))
  | case5 x y rest hx ih =>
    simp only [survivors, hx, Bool.false_eq_true, if_false, Option.map_eq_some_iff] at h
    obtain ⟨k', hk', rfl⟩ := h
    exact List.cons_subset_cons x (ih hk')

omit [DecidableEq T] in
theorem Keeps.congr {gone' : List T} (h : Keeps s s' gone) (heq : ∀ t, t ∈ gone ↔ t ∈ gone') : Keeps s s' gone' :=
  ⟨fun t ht => h.freed t ((heq t).mpr ht), fun t ht => h.data t fun hcon => ht ((heq t).mp hcon)⟩

/-! The steps of the second loop: `it` is the last thread, or is followed by `x`. -/

theorem removeRestStep_last {a : List T} (h : s.Holds (a ++ [it])) :
    removeRestStep (s, some it) = .ok (.done s) := by
  obtain ⟨o, ho⟩ := h.alive it (by simp)
  have hnext : o.next = none := (links_eq ho).symm.trans h.linked.next_eq
  simp [removeRestStep, load_eq ho, hnext]

theorem removeRestStep_keep {a b : List T} (h : s.Holds (a ++ it :: x :: b)) (hx : s.deleted x = false) :
    removeRestStep (s, some it) = .ok (.next (s, some x)) := by
  obtain ⟨o, ho⟩ := h.alive it (by simp)
  obtain ⟨o', ho'⟩ := h.alive x (by simp)
  have hnext : o.next = some x := (links_eq ho).symm.trans h.linked.next_eq
  rw [deleted_eq ho'] at hx
  simp [removeRestStep, load_eq ho, hnext, load_eq ho', hx]

theorem removeRestStep_remove {a b : List T} (h : s.Holds (a ++ it :: x :: b)) (hx : s.deleted x = true) :
    ∃ s', removeRestStep (s, some it) = .ok (.next (s', b.head?)) ∧ s'.Holds (a ++ it :: b) ∧ Keeps s s' [x] := by
  obtain ⟨o, ho⟩ := h.alive it (by simp)
  obtain ⟨o', ho'⟩ := h.alive x (by simp)
  have hnext : o.next = some x := (links_eq ho).symm.trans h.linked.next_eq
  have hsplit : a ++ it :: x :: b = (a ++ [it]) ++ x :: b := by simp
  have hnext' : o'.next = b.head? := (links_eq ho').symm.trans (Linked.next_eq (hsplit ▸ h.linked))
  rw [deleted_eq ho'] at hx
  refine ⟨(s.link it o'.next).dispose x, ?_, h.disposeAfter ho ho', ?_⟩
  · simp [removeRestStep, load_eq ho, hnext, load_eq ho', hx, modify_next_eq ho, hnext']
  · exact (keeps_link s it o'.next).trans (keeps_dispose _ x)

/-- The loop over the threads that follow `it`. -/
theorem removeRest_spec {dead : T → Bool} {rest a : List T} (h : s.Holds (a ++ it :: rest))
    (hd : ∀ t ∈ rest, s.deleted t = dead t) (hf : rest.length < fuel) :
    match survivors dead rest with
    | none => forever .diverges removeRestStep fuel (s, some it) = .error .badAccess
    | some k => ∃ s' gone, forever .diverges removeRestStep fuel (s, some it) = .ok s' ∧
        s'.Holds (a ++ it :: k) ∧ Keeps s s' gone ∧ ∀ t, t ∈ gone ↔ t ∈ rest ∧ t ∉ k := by
  induction rest using survivors.induct dead generalizing s a it fuel with
  | case1 =>
    obtain ⟨n, rfl⟩ : ∃ n, fuel = n + 1 := ⟨fuel - 1, by simp at hf; omega⟩
    exact ⟨s, [], forever_done (removeRestStep_last h), h, .refl s, by simp⟩
  | case2 x hx =>
    obtain ⟨n, rfl⟩ : ∃ n, fuel = n + 2 := ⟨fuel - 2, by simp at hf; omega⟩
    obtain ⟨s', hstep, -, -⟩ := removeRestStep_remove h ((hd x (by simp)).trans hx)
    simp only [survivors, hx, if_true]
    rw [forever_next hstep]
    rfl
  | case3 x hx =>
    obtain ⟨n, rfl⟩ : ∃ n, fuel = n + 2 := ⟨fuel - 2, by simp at hf; omega⟩
    simp only [survivors, hx, Bool.false_eq_true, if_false]
    have hstep := removeRestStep_keep h ((hd x (by simp)).trans (by simpa using hx))
    refine ⟨s, [], ?_, h, .refl s, by simp⟩
    rw [forever_next hstep, forever_done (removeRestStep_last (a := a ++ [it]) (by simpa using h))]
  | case4 x y rest hx ih =>
    obtain ⟨n, rfl⟩ : ∃ n, fuel = n + 1 := ⟨fuel - 1, by simp at hf; omega⟩
    obtain ⟨s₁, hstep, h₁, hk₁⟩ := removeRestStep_remove h ((hd x (by simp)).trans hx)
    have hnd : (x :: y :: rest).Nodup := (List.nodup_cons.mp (List.nodup_append.mp h.nodup).2.1).2
    have hxr : ∀ t ∈ y :: rest, t ≠ x := by
      rintro t ht rfl
      exact (List.nodup_cons.mp hnd).1 ht
    have hd₁ : ∀ t ∈ rest, s₁.deleted t = dead t := by
      intro t ht
      rw [hk₁.deleted_eq (by simpa using hxr t (List.mem_cons_of_mem _ ht))]
      exact hd t (by simp [ht])
    have hrec := @ih s₁ y n (a ++ [it]) (by simpa using h₁) hd₁ (by simp at hf; omega)
    simp only [survivors, hx, if_true]
    rw [forever_next hstep]
    cases hs : survivors dead rest with
    | none =>
      rw [hs] at hrec
      exact hrec
    | some k =>
      rw [hs] at hrec
      obtain ⟨s', gone, hrun, hholds, hk, hgone⟩ := hrec
      refine ⟨s', x :: gone, hrun, by simpa using hholds, hk₁.trans hk, fun t => ?_⟩
      have hsub := survivors_subset dead hs
      have hyr : y ∉ rest := (List.nodup_cons.mp (List.nodup_cons.mp hnd).2).1
      simp only [List.mem_cons, hgone, not_or]
      constructor
      · rintro (rfl | ⟨ht, htk⟩)
        · exact ⟨.inl rfl, fun heq => hxr y (by simp) heq.symm, fun hcon => hxr t (by simp [hsub hcon]) rfl⟩
        · exact ⟨.inr (.inr ht), fun heq => hyr (heq ▸ ht), htk⟩
      · rintro ⟨rfl | rfl | ht, hty, htk⟩
        · exact .inl rfl
        · exact absurd rfl hty
        · exact .inr ⟨ht, htk⟩
  | case5 x y rest hx ih =>
    obtain ⟨n, rfl⟩ : ∃ n, fuel = n + 1 := ⟨fuel - 1, by simp at hf; omega⟩
    have hstep := removeRestStep_keep h ((hd x (by simp)).trans (by simpa using hx))
    have hrec := @ih s x n (a ++ [it]) (by simpa using h)
      (fun t ht => hd t (List.mem_cons_of_mem _ ht)) (by simp at hf ⊢; omega)
    simp only [survivors, hx, Bool.false_eq_true, if_false]
    rw [forever_next hstep]
    cases hs : survivors dead (y :: rest) with
    | none =>
      rw [hs] at hrec
      exact hrec
    | some k =>
      rw [hs] at hrec
      obtain ⟨s', gone, hrun, hholds, hk, hgone⟩ := hrec
      refine ⟨s', gone, hrun, by simpa using hholds, hk, fun t => ?_⟩
      have hnd : (x :: y :: rest).Nodup := (List.nodup_cons.mp (List.nodup_append.mp h.nodup).2.1).2
      have hxr : x ∉ y :: rest := (List.nodup_cons.mp hnd).1
      rw [hgone]
      constructor
      · rintro ⟨ht, htk⟩
        refine ⟨List.mem_cons_of_mem _ ht, ?_⟩
        rw [List.mem_cons, not_or]
        exact ⟨fun heq => hxr (heq ▸ ht), htk⟩
      · rintro ⟨ht, htk⟩
        rw [List.mem_cons, not_or] at htk
        exact ⟨(List.mem_cons.mp ht).resolve_left htk.1, htk.2⟩

/-- The deleted threads, and no others, are removed and freed, and the others stay in order. -/
def RemovesDeleted (s s' : ControlList T) (l : List T) : Prop :=
  s'.Holds (l.filter (!s.deleted ·)) ∧ Keeps s s' (l.filter s.deleted)

/-- **`PKremoveDeadThreads`**, in a list that holds `l`. -/
theorem pkRemoveDeadThreads_iff (h : s.Holds l) (hf : l.length < fuel) :
    (∃ s', s.pkRemoveDeadThreads fuel = .ok s' ∧ s.RemovesDeleted s' l) ↔
      Followed s.deleted (l.dropWhile s.deleted) := by
  obtain ⟨s₁, hrun, h₁, hk₁⟩ := removeHead_spec h (fun t _ => rfl) hf
  rw [pkRemoveDeadThreads, hrun, ok_bind]
  have hfilter := PriorityScheduler.filter_dropWhile_dead s.deleted l
  unfold RemovesDeleted
  rw [hfilter.1, hfilter.2]
  cases hl : l.dropWhile s.deleted with
  | nil =>
    rw [hl] at h₁
    have hnone : s₁.threadList = none := h₁.linked
    refine iff_of_true ⟨s₁, by simp [hnone], h₁, ?_⟩ trivial
    simpa using hk₁
  | cons it rest =>
    rw [hl] at h₁
    have hfirst : s₁.threadList = some it := h₁.linked.1
    have halive : s.deleted it = false := by
      have := List.head?_dropWhile_not s.deleted l
      simpa [hl] using this
    have hnd : (l.takeWhile s.deleted ++ it :: rest).Nodup := by
      rw [← hl, List.takeWhile_append_dropWhile]
      exact h.nodup
    have hd : ∀ t ∈ rest, s₁.deleted t = s.deleted t := by
      intro t ht
      refine hk₁.deleted_eq fun hcon => ?_
      exact (List.nodup_append.mp hnd).2.2 t hcon t (by simp [ht]) rfl
    have hlen : rest.length < fuel := by
      have := congrArg List.length (List.takeWhile_append_dropWhile (p := s.deleted) (l := l))
      simp only [hl, List.length_append, List.length_cons] at this
      omega
    have hrest := removeRest_spec (a := []) h₁ hd hlen
    have hitf : (it :: rest).filter (!s.deleted ·) = it :: rest.filter (!s.deleted ·) := by
      simp [halive]
    have hfollowed : Followed s.deleted (it :: rest) ↔ Followed s.deleted rest := by
      simp [Followed, halive]
    simp only [hfirst]
    rw [hfollowed, ← survivors_eq_filter_iff, hitf]
    cases hs : survivors s.deleted rest with
    | none =>
      rw [hs] at hrest
      refine iff_of_false ?_ (by simp)
      rintro ⟨s', hok, -⟩
      rw [hrest] at hok
      cases hok
    | some k =>
      rw [hs] at hrest
      obtain ⟨s', gone, hok, hholds, hk, hgone⟩ := hrest
      constructor
      · rintro ⟨s'', hok', hholds', -⟩
        obtain rfl := Except.ok.inj (hok.symm.trans hok')
        exact congrArg some (List.cons.inj (hholds.linked.unique hholds'.linked)).2
      · intro heq
        obtain rfl := Option.some.inj heq
        refine ⟨s', hok, hholds, (hk₁.trans hk).congr fun t => ?_⟩
        rw [List.mem_append, List.mem_append, hgone]
        refine or_congr_right ?_
        by_cases hdt : s.deleted t = true
        · have hti : t ≠ it := by
            rintro rfl
            rw [halive] at hdt
            cases hdt
          simp [hdt, hti]
        · rw [Bool.not_eq_true] at hdt
          have hno : t ∉ (it :: rest).filter s.deleted := by simp [hdt]
          refine iff_of_false (fun hcon => hcon.2 ?_) hno
          simp [hcon.1, hdt]

end ControlList

theorem ControlScheduler.irqRecalculateAlfa_eq {T D : Type} (reg : ControlRegulator T D) {s : ControlScheduler T D}
    {l : List T} {fuel : ℕ} (h : s.threads.Holds l) (hf : l.length < fuel) :
    s.irqRecalculateAlfa reg fuel = .ok { s with
      regulation := reg.recalculateAlfa (s.threads.visited l) (s.threads.visited l) s.regulation } := by
  rw [irqRecalculateAlfa, ControlList.visit_eq h hf]
  rfl

end Miosix
