import MiosixKernel.Sched.ControlThreads

/-!
# The control based scheduler: rounds

* `Inv`: the list, the thread at `curInRound`, and the threads that the round has still to come to;
* `Inv.add`, `Inv.setFlags`, `Inv.remove`, `Inv.find`: the steps keep it;
* **`run_rounds`**: every run.
-/

namespace Miosix

open Lib

/-- The deleted flag is one of those that a ready thread has not. -/
theorem ThreadFlags.not_isDeleted_of_isReady {flags : ℕ} (h : isReady flags = true) : isDeleted flags = false := by
  have hzero : flags &&& 0x67 = 0 := by simpa [isReady] using h
  have hand : flags &&& 0x14 &&& 0x67 = 0 := by
    rw [Nat.and_assoc, Nat.and_comm 0x14, ← Nat.and_assoc, hzero, Nat.zero_and]
  by_contra hd
  have hset : flags &&& 0x14 = 0x14 := by simpa [isDeleted] using hd
  rw [hset] at hand
  cases hand

/-! ## The list of threads, for the steps of a run -/

namespace ControlList

variable {T : Type} [DecidableEq T] {s s' : ControlList T} {l : List T} {t u : T} {o o' : ControlThread T} {fuel : ℕ}

/-- The fields of one thread change, but for its link. -/
theorem Holds.update (h : s.Holds l) (ho : s.mem t = some o) (hn : o'.next = o.next) :
    Holds { s with mem := Function.update s.mem t (some o') } l := by
  have hlinks : ∀ u, ({ s with mem := Function.update s.mem t (some o') } : ControlList T).links u = s.links u := by
    intro u
    by_cases hu : u = t
    · subst hu
      simp [links, ho, hn]
    · simp [links, hu]
  refine { h with
    linked := h.linked.congr fun u _ => hlinks u
    alive := fun u hu => ?_ }
  by_cases hut : u = t
  · exact ⟨o', by rw [hut]; exact Function.update_self _ _ _⟩
  · obtain ⟨ou, hou⟩ := h.alive u hu
    exact ⟨ou, (Function.update_of_ne hut _ _).trans hou⟩

omit [DecidableEq T] in
/-- A memory that agrees on the threads of the list. -/
theorem Holds.congr {mem : T → Option (ControlThread T)} (h : s.Holds l) (heq : ∀ t ∈ l, mem t = s.mem t) :
    Holds { s with mem := mem } l where
  linked := h.linked.congr fun t ht => by simp [links, heq t ht]
  nodup := h.nodup
  alive t ht := by simpa [heq t ht] using h.alive t ht
  size := h.size
  round := h.round

/-- Links that follow a list. -/
theorem linked_of_nodup {next : T → Option T} (hnd : l.Nodup)
    (hnext : ∀ t ∈ l, next t = (l.dropWhile (· ≠ t)).tail.head?) : Linked next l.head? l := by
  suffices h : ∀ b a, l = a ++ b → Linked next b.head? b from h l [] rfl
  intro b
  induction b with
  | nil => exact fun _ _ => rfl
  | cons x b ih =>
    intro a hl
    refine ⟨rfl, ?_⟩
    have hxa : ∀ y ∈ a, decide (y ≠ x) = true := by
      intro y hy
      rw [hl, List.nodup_append] at hnd
      simpa using hnd.2.2 y hy x List.mem_cons_self
    rw [hnext x (by simp [hl])]
    have hdrop : l.dropWhile (· ≠ x) = x :: b := by
      rw [hl, List.dropWhile_append_of_pos hxa, List.dropWhile_cons_of_neg (by simp)]
    rw [hdrop]
    exact ih (a ++ [x]) (by simp [hl])

/-- Exactly the deleted threads are removed. -/
theorem removeDeleted_spec (h : s.Holds l) (hf : l.length < fuel) :
    ∃ s', s.removeDeleted fuel = .ok s' ∧ s.RemovesDeleted s' l := by
  have hkept : ((s.visited l).filter fun p => !ThreadFlags.isDeleted p.2.flags).map Prod.fst =
      l.filter (!s.deleted ·) := by
    rw [visited_filter h.alive fun f => !ThreadFlags.isDeleted f]
    refine List.filter_congr fun t ht => ?_
    obtain ⟨o, ho⟩ := h.alive t ht
    simp [ho, deleted]
  refine ⟨_, by rw [removeDeleted, visit_eq h hf]; rfl, ?_⟩
  simp only [hkept, map_fst_visited h.alive]
  set kept := l.filter (!s.deleted ·) with hk
  have hnd : kept.Nodup := h.nodup.filter _
  have hmem : ∀ t, t ∈ kept ↔ t ∈ l ∧ s.deleted t = false := fun t => by simp [hk]
  constructor
  · refine ⟨linked_of_nodup hnd fun t ht => ?_, hnd, fun t ht => ?_, rfl, rfl⟩
    · obtain ⟨o, ho⟩ := h.alive t ((hmem t).mp ht).1
      simp [links, ht, ho]
    · obtain ⟨o, ho⟩ := h.alive t ((hmem t).mp ht).1
      have htk : t ∈ kept := ht
      exact ⟨_, (if_pos htk).trans (by rw [ho]; rfl)⟩
  · refine ⟨fun t ht => ?_, fun t ht => ?_⟩
    · obtain ⟨htl, hd⟩ := List.mem_filter.mp ht
      have hno : t ∉ kept := by simp [hmem, hd]
      simp [hno, htl]
    · rw [List.mem_filter, not_and] at ht
      by_cases htk : t ∈ kept
      · simp [dataOf, htk, Function.comp_def]
      · have htl : t ∉ l := fun htl => htk ((hmem t).mpr ⟨htl, by simpa using ht htl⟩)
        simp [dataOf, htk, htl]

end ControlList

namespace ControlScheduler

variable {T D : Type} [DecidableEq T] {s s' : ControlScheduler T D} {l b : List T} {t u : T}
  (reg : ControlRegulator T D) {fuel : ℕ}

open RoundEvent

/-- `curInRound` is null and the round has come to its end, or it is followed by the threads `b`. -/
def Cursor (s : ControlScheduler T D) (l b : List T) : Prop :=
  (s.curInRound = none ∧ b = []) ∨ ∃ a c, l = a ++ c :: b ∧ s.curInRound = some c

/-- The list has the threads `l`, and the round has still to come to `b`. -/
structure Ahead (s : ControlScheduler T D) (l b : List T) : Prop where
  holds : s.threads.Holds l
  idle_notMem : s.idle ∉ l
  cur : s.cur = s.idle ∨ s.cur ∈ l
  fresh : ∀ t ∈ b, t ∉ selections s.history
  steady : ∀ t, Steady t s.history → t ∈ selections s.history ∨ t ∈ b
  steady_ready : ∀ t, Steady t s.history → s.threads.ready t = true
  lawful : Lawful Allowed s.history

structure Inv (s : ControlScheduler T D) (l b : List T) : Prop extends s.Ahead l b where
  cursor : s.Cursor l b

omit [DecidableEq T] in
theorem Cursor.length_le (h : s.Cursor l b) : b.length ≤ l.length := by
  rcases h with ⟨-, rfl⟩ | ⟨a, c, rfl, -⟩
  · simp
  · simp only [List.length_append, List.length_cons]
    omega

omit [DecidableEq T] in
theorem Cursor.mem {c : T} (h : s.Cursor l b) (hc : s.curInRound = some c) : c ∈ l := by
  rcases h with ⟨hn, -⟩ | ⟨a, x, rfl, hx⟩
  · rw [hn] at hc
    cases hc
  · obtain rfl : x = c := Option.some.inj (hx.symm.trans hc)
    simp

/-! ## The loop of `IRQfindNextThread` -/

/-- What a call of `IRQfindNextThread` does: it selects a ready thread if there is one. -/
structure Found (s s' : ControlScheduler T D) (l : List T) : Prop where
  inv : ∃ b, s'.Inv l b
  threads : s'.threads = s.threads
  idle : s'.idle = s.idle
  cur : (∃ t ∈ l, s.threads.ready t = true) → s'.cur ∈ l ∧ s.threads.ready s'.cur = true
  none : (∀ t ∈ l, s.threads.ready t = false) → s'.cur = s.idle

variable {now : ℤ} {a : List T} {c : T}

omit [DecidableEq T] in
/-- The round comes to `c`, which is selected if it is ready. -/
theorem Ahead.selectStep (h : s.Ahead (a ++ c :: b) (c :: b)) :
    if s.threads.ready c then ∃ s', s.selectStep reg now c = .ok (.done s') ∧ s.Found s' (a ++ c :: b)
    else ∃ s', s.selectStep reg now c = .ok (.next s') ∧ s'.Inv (a ++ c :: b) b ∧
      s'.threads = s.threads ∧ s'.idle = s.idle := by
  have hc : c ∈ a ++ c :: b := by simp
  have hnd : (c :: b).Nodup := (List.nodup_append.mp h.holds.nodup).2.1
  obtain ⟨o, ho⟩ := h.holds.alive c hc
  rw [ControlList.ready_eq ho, ControlScheduler.selectStep, ControlList.load_eq ho, ok_bind]
  by_cases hr : ThreadFlags.isReady o.flags = true
  · rw [if_pos hr, if_pos hr]
    have hready : s.threads.ready c = true := (ControlList.ready_eq ho).trans hr
    refine ⟨_, rfl, ⟨b, { h with
      cur := .inr hc
      fresh := fun t ht => ?_
      steady := fun t ht => ?_
      lawful := ⟨h.fresh c List.mem_cons_self, h.lawful⟩
      cursor := .inr ⟨a, c, rfl, rfl⟩ }⟩, rfl, rfl, fun _ => ⟨hc, hready⟩, fun hno => ?_⟩
    · have htc : t ≠ c := by
        rintro rfl
        exact (List.nodup_cons.mp hnd).1 ht
      simpa [selections, htc] using h.fresh t (List.mem_cons_of_mem _ ht)
    · rcases h.steady t ht with hs | hs
      · exact .inl (List.mem_cons_of_mem _ hs)
      · rcases List.mem_cons.mp hs with rfl | hs
        · exact .inl List.mem_cons_self
        · exact .inr hs
    · rw [hno c hc] at hready
      cases hready
  · rw [if_neg hr, if_neg hr]
    refine ⟨_, rfl, { h with
      fresh := fun t ht => h.fresh t (List.mem_cons_of_mem _ ht)
      steady := fun t ht => ?_
      cursor := .inr ⟨a, c, rfl, rfl⟩ }, rfl, rfl⟩
    refine (h.steady t ht).imp_right fun hs => (List.mem_cons.mp hs).resolve_left ?_
    rintro rfl
    exact hr ((ControlList.ready_eq ho).symm.trans (h.steady_ready t ht))

omit [DecidableEq T] in
/-- The loop goes on with the thread after `curInRound`. -/
theorem Inv.findStep_eq (h : s.Inv l (c :: b)) :
    ∃ a, l = a ++ c :: b ∧ s.findStep reg fuel now = s.selectStep reg now c := by
  rcases h.cursor with ⟨-, hnil⟩ | ⟨a, x, hl, hcur⟩
  · cases hnil
  · obtain ⟨o, ho⟩ := h.holds.alive x (by simp [hl])
    have hnext : o.next = some c := by
      have hlinked := h.holds.linked
      rw [hl] at hlinked
      exact (ControlList.links_eq ho).symm.trans hlinked.next_eq
    refine ⟨a ++ [x], by simp [hl], ?_⟩
    simp [ControlScheduler.findStep, hcur, ControlList.load_eq ho, hnext]

omit [DecidableEq T] in
/-- There is a ready thread ahead. -/
theorem Inv.find_ahead (h : s.Inv l b) (hr : ∃ t ∈ b, s.threads.ready t = true) {n : ℕ} (hn : b.length ≤ n) :
    ∃ s', forever .diverges (ControlScheduler.findStep reg fuel now) n s = .ok s' ∧ s.Found s' l := by
  induction b generalizing s n with
  | nil => simp at hr
  | cons c b ih =>
    obtain ⟨n, rfl⟩ : ∃ m, n = m + 1 := ⟨n - 1, by simp at hn; omega⟩
    obtain ⟨a, rfl, hstep⟩ := @findStep_eq _ _ _ _ _ reg fuel now _ h
    have hsel := @Ahead.selectStep _ _ _ _ reg now _ _ h.toAhead
    by_cases hc : s.threads.ready c = true
    · rw [if_pos hc] at hsel
      obtain ⟨s', hs', hfound⟩ := hsel
      exact ⟨s', forever_done (hstep.trans hs'), hfound⟩
    · rw [if_neg hc] at hsel
      obtain ⟨s₁, hs₁, hinv, hth, hidle⟩ := hsel
      have hr₁ : ∃ t ∈ b, s₁.threads.ready t = true := by
        obtain ⟨t, ht, htr⟩ := hr
        refine ⟨t, (List.mem_cons.mp ht).resolve_left ?_, by rw [hth]; exact htr⟩
        rintro rfl
        exact hc htr
      obtain ⟨s', hs', hfound⟩ := ih hinv hr₁ (by simpa using hn)
      refine ⟨s', by rw [forever_next (hstep.trans hs₁), hs'], ?_⟩
      exact ⟨hfound.inv, hfound.threads.trans hth, hfound.idle.trans hidle, by rw [← hth]; exact hfound.cur,
        by rw [← hth, ← hidle]; exact hfound.none⟩

omit [DecidableEq T] in
theorem Found.of_eq {s₁ : ControlScheduler T D} (h : s₁.Found s' l) (hth : s₁.threads = s.threads)
    (hidle : s₁.idle = s.idle) : s.Found s' l where
  inv := h.inv
  threads := h.threads.trans hth
  idle := h.idle.trans hidle
  cur := by rw [← hth]; exact h.cur
  none := by rw [← hth, ← hidle]; exact h.none

omit [DecidableEq T] in
theorem Inv.next_none (h : s.Inv l b) {o : ControlThread T} (hl : l = a ++ [c]) (ho : s.threads.mem c = some o) :
    o.next = none := by
  have hlinked := h.holds.linked
  rw [hl] at hlinked
  exact (ControlList.links_eq ho).symm.trans hlinked.next_eq

omit [DecidableEq T] in
/-- The state when the regulator has run. -/
theorem Inv.beginRound (h : s.Inv (c :: b) []) (d : D) :
    Ahead { s with
      curInRound := some c
      regulation := d
      history := .regulator ((c :: b).filter s.threads.ready) :: s.history } (c :: b) (c :: b) :=
  { h.toAhead with
    fresh := fun _ _ => List.not_mem_nil
    steady := fun _ ht => .inr (List.mem_filter.mp ht).1
    steady_ready := fun _ ht => (List.mem_filter.mp ht).2
    lawful := ⟨fun t ht => (h.steady t ht).resolve_right List.not_mem_nil, h.lawful⟩ }

omit [DecidableEq T] in
/-- The round is over and no thread is ready. -/
theorem Inv.findStep_idle (h : s.Inv l []) (hno : ∀ t ∈ l, s.threads.ready t = false) (hf : l.length < fuel) :
    s.findStep reg fuel now = .ok (.done { s with
      curInRound := none
      cur := s.idle
      regulation := reg.setNextPreemption none now s.regulation
      history := .idles :: s.history }) := by
  have hvisit := ControlList.visit_eq h.holds hf
  have hready : ((s.threads.visited l).filter fun p => ThreadFlags.isReady p.2.flags) = [] := by
    rw [← List.map_eq_nil_iff (f := Prod.fst), ControlList.visited_filter h.holds.alive, List.filter_eq_nil_iff]
    exact fun t ht => by simpa [ControlList.ready] using hno t ht
  rcases h.cursor with ⟨hcur, -⟩ | ⟨a, c, hl, hcur⟩
  · simp [ControlScheduler.findStep, hcur, hvisit, hready]
  · obtain ⟨o, ho⟩ := h.holds.alive c (by simp [hl])
    have hnext : o.next = none := h.next_none hl ho
    simp [ControlScheduler.findStep, hcur, hvisit, hready, ControlList.load_eq ho, hnext]

omit [DecidableEq T] in
/-- The round is over and a thread is ready: the regulator runs, and a round begins at the head of the list. -/
theorem Inv.findStep_round (h : s.Inv (c :: b) []) (hr : ∃ t ∈ c :: b, s.threads.ready t = true)
    (hf : (c :: b).length < fuel) :
    ∃ d, s.findStep reg fuel now = ControlScheduler.selectStep reg now { s with
      curInRound := some c
      regulation := d
      history := .regulator ((c :: b).filter s.threads.ready) :: s.history } c := by
  have hvisit := ControlList.visit_eq h.holds hf
  have hmap : ((s.threads.visited (c :: b)).filter fun p => ThreadFlags.isReady p.2.flags).map Prod.fst =
      (c :: b).filter s.threads.ready := ControlList.visited_filter h.holds.alive _
  have hhead : s.threads.threadList = some c := h.holds.linked.1
  rw [← hmap]
  generalize hready : ((s.threads.visited (c :: b)).filter fun p => ThreadFlags.isReady p.2.flags) = ready at hmap ⊢
  cases ready with
  | nil =>
    obtain ⟨t, ht, htr⟩ := hr
    exact absurd htr (List.filter_eq_nil_iff.mp hmap.symm t ht)
  | cons p ready =>
    refine ⟨reg.runRegulator ((p :: ready).all fun p => reg.saturated s.regulation p.1)
      (s.threads.visited (c :: b)) s.threads.spTr s.threads.threadListSize s.regulation, ?_⟩
    rcases h.cursor with ⟨hcur, -⟩ | ⟨a, x, hl, hcur⟩
    · simp [ControlScheduler.findStep, hcur, hvisit, hready, hhead, -List.all_filter]
    · obtain ⟨o, ho⟩ := h.holds.alive x (by simp [hl])
      have hnext : o.next = none := h.next_none hl ho
      simp [ControlScheduler.findStep, hcur, hvisit, hready, hhead, ControlList.load_eq ho, hnext, -List.all_filter]

omit [DecidableEq T] in
/-- `IRQfindNextThread` ends, and runs a ready thread if there is one. -/
theorem Inv.find_spec (h : s.Inv l b) {n : ℕ} (hf : l.length < fuel) (hn : b.length + l.length < n) :
    ∃ s', forever .diverges (ControlScheduler.findStep reg fuel now) n s = .ok s' ∧ s.Found s' l := by
  induction b generalizing s n with
  | nil =>
    obtain ⟨n, rfl⟩ : ∃ m, n = m + 1 := ⟨n - 1, by omega⟩
    by_cases hr : ∃ t ∈ l, s.threads.ready t = true
    · -- a round begins, and comes to a ready thread
      cases l with
      | nil => simp at hr
      | cons c tl =>
        obtain ⟨d, hstep⟩ := @findStep_round _ _ _ _ reg fuel now _ h hr hf
        have hbegin := h.beginRound d
        have hsel := @Ahead.selectStep _ _ _ _ reg now [] _ hbegin
        by_cases hc : s.threads.ready c = true
        · rw [if_pos hc] at hsel
          obtain ⟨s', hs', hfound⟩ := hsel
          exact ⟨s', forever_done (hstep.trans hs'), hfound.of_eq rfl rfl⟩
        · rw [if_neg hc] at hsel
          obtain ⟨s₁, hs₁, hinv, hth, hidle⟩ := hsel
          have hr₁ : ∃ t ∈ tl, s₁.threads.ready t = true := by
            obtain ⟨t, ht, htr⟩ := hr
            refine ⟨t, (List.mem_cons.mp ht).resolve_left ?_, by rw [hth]; exact htr⟩
            rintro rfl
            exact hc htr
          obtain ⟨s', hs', hfound⟩ := @find_ahead _ _ _ _ _ reg fuel now hinv hr₁ n (by simp at hn; omega)
          exact ⟨s', by rw [forever_next (hstep.trans hs₁), hs'], hfound.of_eq hth hidle⟩
    · have hno : ∀ t ∈ l, s.threads.ready t = false := by simpa using hr
      refine ⟨_, forever_done (h.findStep_idle reg hno hf), ⟨[], { h with
        cur := .inl rfl
        fresh := by simp
        lawful := ⟨trivial, h.lawful⟩
        cursor := .inl ⟨rfl, rfl⟩ }⟩, rfl, rfl, fun hex => absurd hex hr, fun _ => rfl⟩
  | cons c b ih =>
    obtain ⟨n, rfl⟩ : ∃ m, n = m + 1 := ⟨n - 1, by omega⟩
    obtain ⟨a, rfl, hstep⟩ := @findStep_eq _ _ _ _ _ reg fuel now _ h
    have hsel := @Ahead.selectStep _ _ _ _ reg now _ _ h.toAhead
    by_cases hc : s.threads.ready c = true
    · rw [if_pos hc] at hsel
      obtain ⟨s', hs', hfound⟩ := hsel
      exact ⟨s', forever_done (hstep.trans hs'), hfound⟩
    · rw [if_neg hc] at hsel
      obtain ⟨s₁, hs₁, hinv, hth, hidle⟩ := hsel
      obtain ⟨s', hs', hfound⟩ := @ih _ hinv n (by simp at hn ⊢; omega)
      exact ⟨s', by rw [forever_next (hstep.trans hs₁), hs'], hfound.of_eq hth hidle⟩

/-! ## The steps -/

/-- A step gives a state with the threads `l'`. -/
def Stays (r : Except Fault (ControlScheduler T D)) (idle : T) (l' : List T) : Prop :=
  ∃ s' b', r = .ok s' ∧ s'.Inv l' b' ∧ s'.idle = idle

omit [DecidableEq T] in
theorem Inv.recalculate (h : s.Inv l b) (hf : l.length < fuel) :
    Stays (s.irqRecalculateAlfa reg fuel) s.idle l :=
  ⟨_, b, irqRecalculateAlfa_eq reg h.holds hf, { h with cursor := h.cursor }, rfl⟩

omit [DecidableEq T] in
/-- The list of threads changes, and the steady threads stay. -/
theorem Inv.congr (h : s.Inv l b) {threads : ControlList T} {l' b' : List T} (hholds : threads.Holds l')
    (hidle : s.idle ∉ l') (hcur : s.cur = s.idle ∨ s.cur ∈ l') (hb : b' ⊆ b)
    (hsteady : ∀ t, Steady t s.history → threads.ready t = true ∧ (t ∈ b → t ∈ b'))
    (hcursor : Cursor { s with threads := threads } l' b') : Inv { s with threads := threads } l' b' where
  holds := hholds
  idle_notMem := hidle
  cur := hcur
  fresh t ht := h.fresh t (hb ht)
  steady t ht := (h.steady t ht).imp_right (hsteady t ht).2
  steady_ready t ht := (hsteady t ht).1
  lawful := h.lawful
  cursor := hcursor

omit [DecidableEq T] in
theorem Inv.ne_of_steady (h : s.Inv l b) (ht : s.threads.ready t = false) (hu : Steady u s.history) : u ≠ t := by
  rintro rfl
  rw [h.steady_ready u hu] at ht
  cases ht

/-- A new thread goes to the front: the round does not come to it. -/
theorem Inv.create (h : s.Inv l b) (ht : s.threads.mem t = none) (hti : t ≠ s.idle) (flags : ℕ)
    (priority : ControlSchedulerPriority) :
    ∃ threads, (s.create t flags).threads.pkAddThread t priority = .ok threads ∧
      Inv { s with threads := threads } (t :: l) b := by
  have htl : t ∉ l := by
    intro hmem
    obtain ⟨o, ho⟩ := h.holds.alive t hmem
    rw [ht] at ho
    cases ho
  have hholds : (s.create t flags).threads.Holds l := h.holds.congr fun u hu => by
    have hut : u ≠ t := by
      rintro rfl
      exact htl hu
    exact Function.update_of_ne hut _ _
  obtain ⟨threads, hadd, hth, hmem⟩ := ControlList.pkAddThread_spec (t := t) hholds
    (Function.update_self _ _ _) htl priority
  refine ⟨threads, hadd, h.congr hth ?_ ?_ (List.Subset.refl _) (fun u hu => ⟨?_, id⟩) ?_⟩
  · simp [hti.symm, h.idle_notMem]
  · exact h.cur.imp_right (List.mem_cons_of_mem _)
  · have hut : u ≠ t := h.ne_of_steady (by simp [ControlList.ready, ht]) hu
    have hur := h.steady_ready u hu
    rw [ControlList.ready, hmem, Function.update_of_ne hut]
    simpa [ControlScheduler.create, hut, ControlList.ready] using hur
  · rcases h.cursor with ⟨hcur, hnil⟩ | ⟨a, c, hl, hcur⟩
    · exact .inl ⟨hcur, hnil⟩
    · exact .inr ⟨t :: a, c, by simp [hl], hcur⟩

theorem Inv.add (h : s.Inv l b) (ht : s.threads.mem t = none) (hti : t ≠ s.idle) (flags : ℕ)
    (priority : ControlSchedulerPriority) (hf : l.length + 1 < fuel) :
    ∃ r, (s.create t flags).pkAddThread reg fuel t priority = .ok r ∧
      (r = none ∨ ∃ s', r = some s' ∧ Stays (.ok s') s.idle (t :: l)) := by
  obtain ⟨threads, hadd, hinv⟩ := h.create ht hti flags priority
  unfold ControlScheduler.pkAddThread
  split_ifs with hfull
  · exact ⟨none, rfl, .inl rfl⟩
  · obtain ⟨s', b', hs', hinv', hidle⟩ := hinv.recalculate reg hf
    exact ⟨some s', by rw [hadd, ok_bind]; exact congrArg (some <$> ·) hs', .inr ⟨s', rfl, s', b', rfl, hinv', hidle⟩⟩

/-- A thread that stops being ready is not steady any more. -/
theorem Inv.setFlags (h : s.Inv l b) {o : ControlThread T} (ho : s.threads.mem t = some o) (flags : ℕ)
    (hf : l.length < fuel) : Stays (s.irqWaitStatusHook reg fuel t flags) s.idle l := by
  set threads : ControlList T :=
    { s.threads with mem := Function.update s.threads.mem t (some { o with flags := flags }) } with hthreads
  have hholds : threads.Holds l := h.holds.update ho rfl
  have hready : threads.ready t = ThreadFlags.isReady flags := by simp [ControlList.ready, hthreads]
  have hother : ∀ u, u ≠ t → threads.ready u = s.threads.ready u := by
    intro u hu
    simp [ControlList.ready, hthreads, hu]
  rw [irqWaitStatusHook, ControlList.modify, ControlList.load_eq ho]
  by_cases hr : ThreadFlags.isReady flags = true
  · have hinv : Inv { s with threads := threads } l b := by
      refine h.congr hholds h.idle_notMem h.cur (List.Subset.refl _) (fun u hu => ⟨?_, id⟩) h.cursor
      by_cases hut : u = t
      · rw [hut, hready, hr]
      · rw [hother u hut]
        exact h.steady_ready u hu
    have hrec := hinv.recalculate reg hf
    simpa [hr] using hrec
  · have hinv : Inv { s with threads := threads, history := .stops t :: s.history } l b := by
      refine ⟨⟨hholds, h.idle_notMem, h.cur, h.fresh, fun u hu => h.steady u hu.2, fun u hu => ?_,
        ⟨trivial, h.lawful⟩⟩, h.cursor⟩
      rw [hother u hu.1]
      exact h.steady_ready u hu.2
    have hrec := hinv.recalculate reg hf
    simpa [hr] using hrec

omit [DecidableEq T] in
/-- A thread that is ready is not deleted. -/
theorem deleted_eq_false (h : s.threads.ready t = true) : s.threads.deleted t = false := by
  rw [ControlList.ready, Option.any_eq_true] at h
  obtain ⟨o, ho, hr⟩ := h
  rw [ControlList.deleted_eq ho]
  exact ThreadFlags.not_isDeleted_of_isReady hr

/-- The deleted threads are not at `curInRound`, and they are not steady. -/
theorem Inv.remove (h : s.Inv l b) (hcan : s.CanRemove) (hf : l.length < fuel) :
    ∃ threads, s.threads.removeDeleted fuel = .ok threads ∧
      Inv { s with threads := threads } (l.filter (!s.threads.deleted ·)) (b.filter (!s.threads.deleted ·)) := by
  obtain ⟨threads, hrem, hholds, hkeeps⟩ := ControlList.removeDeleted_spec h.holds hf
  have hcurd : s.threads.deleted s.cur = false := hcan.2
  refine ⟨threads, hrem, h.congr hholds (fun hi => h.idle_notMem (List.mem_filter.mp hi).1) ?_
    (List.filter_subset_self b) (fun t ht => ?_) ?_⟩
  · exact h.cur.imp_right fun hc => List.mem_filter.mpr ⟨hc, by simp [hcurd]⟩
  · have hr := h.steady_ready t ht
    have hd := deleted_eq_false hr
    exact ⟨by rw [hkeeps.ready_eq (by simp [hd]), hr], fun htb => List.mem_filter.mpr ⟨htb, by simp [hd]⟩⟩
  · rcases h.cursor with ⟨hcur, hnil⟩ | ⟨a, c, hl, hcur⟩
    · exact .inl ⟨hcur, by simp [hnil]⟩
    · have hcc : c = s.cur := by
        rcases hcan.1 with hn | hn
        · rw [hcur] at hn
          cases hn
        · exact Option.some.inj (hcur.symm.trans hn)
      refine .inr ⟨a.filter (!s.threads.deleted ·), c, ?_, hcur⟩
      rw [hl, List.filter_append, List.filter_cons_of_pos (by simp [hcc, hcurd])]

/-- `IRQfindNextThread` with the kernel running. -/
theorem Inv.find (h : s.Inv l b) (hk : s.kernelRunning = 0) (now : ℤ) (hf : 2 * l.length < fuel) :
    ∃ s', s.irqFindNextThread reg fuel now = .ok s' ∧ s.Found s' l := by
  have hb : b.length ≤ l.length := h.cursor.length_le
  rw [irqFindNextThread, if_neg (by simp [hk])]
  by_cases hcur : s.cur = s.idle
  · rw [if_neg (by simp [hcur])]
    exact h.find_spec reg (by omega) (by omega)
  · obtain ⟨o, ho⟩ := h.holds.alive s.cur (h.cur.resolve_left hcur)
    rw [if_pos hcur, ControlList.load_eq ho, ok_bind]
    have hinv : Inv { s with regulation := reg.storeBurst s.cur now s.regulation } l b := { h with cursor := h.cursor }
    obtain ⟨s', hs', hfound⟩ := @find_spec _ _ _ _ _ reg fuel now hinv fuel (by omega) (by omega)
    exact ⟨s', hs', hfound.of_eq rfl rfl⟩

/-! ## Runs -/

theorem Inv.step (h : s.Inv l b) (e : ControlEvent T) (hf : 2 * (l.length + 1) < fuel) :
    ∃ l', l'.length ≤ l.length + 1 ∧ Stays (s.step reg fuel e) s.idle l' := by
  have hsame : ∃ l', l'.length ≤ l.length + 1 ∧ Stays (.ok s) s.idle l' := ⟨l, by omega, s, b, rfl, h, rfl⟩
  cases e with
  | add t flags priority =>
    rw [ControlScheduler.step]
    split_ifs with hadd
    · exact hsame
    · obtain ⟨ht, hti⟩ := not_or.mp hadd
      have hlt : l.length + 1 < fuel := by omega
      obtain ⟨r, hr, hcase⟩ := h.add reg (by simpa using ht) hti flags priority hlt
      rw [hr]
      rcases hcase with rfl | ⟨s', rfl, hs'⟩
      · exact hsame
      · exact ⟨t :: l, by simp, hs'⟩
  | setFlags t flags =>
    rw [ControlScheduler.step]
    split_ifs with hnone
    · exact hsame
    · obtain ⟨o, ho⟩ := Option.ne_none_iff_exists'.mp (by simpa using hnone)
      exact ⟨l, by omega, h.setFlags reg ho flags (by omega)⟩
  | find now =>
    by_cases hk : s.kernelRunning = 0
    · have hlt : 2 * l.length < fuel := by omega
      obtain ⟨s', hs', hfound⟩ := h.find reg hk now hlt
      obtain ⟨b', hinv⟩ := hfound.inv
      exact ⟨l, by omega, s', b', hs', hinv, hfound.idle⟩
    · rw [ControlScheduler.step, irqFindNextThread, if_pos hk]
      exact hsame
  | removeDead =>
    rw [ControlScheduler.step]
    split_ifs with hcan
    · have hlt : l.length < fuel := by omega
      obtain ⟨threads, hrem, hinv⟩ := h.remove hcan hlt
      have hle := List.length_filter_le (!s.threads.deleted ·) l
      rw [hrem, ok_bind]
      exact ⟨_, by omega, hinv.recalculate reg (by omega)⟩
    · exact hsame
  | pause kernelRunning => exact ⟨l, by omega, _, b, rfl, { h with cursor := h.cursor }, rfl⟩

theorem Inv.run (h : s.Inv l b) (es : List (ControlEvent T)) (hf : 2 * (l.length + es.length + 1) < fuel) :
    ∃ l', l'.length ≤ l.length + es.length ∧ Stays (s.run reg fuel es) s.idle l' := by
  induction es generalizing s l b with
  | nil => exact ⟨l, le_rfl, s, b, rfl, h, rfl⟩
  | cons e es ih =>
    have hlt : 2 * (l.length + 1) < fuel := by omega
    obtain ⟨l₁, hlen₁, s₁, b₁, hs₁, hinv₁, hidle₁⟩ := h.step reg e hlt
    obtain ⟨l', hlen, hstays⟩ := ih hinv₁ (by simp at hf; omega)
    refine ⟨l', by simp; omega, ?_⟩
    rw [ControlScheduler.run, hs₁, ok_bind, ← hidle₁]
    exact hstays

/-- The first thread and the idle thread are different. -/
theorem inv_initial {main idle : T} (hne : main ≠ idle) (flags : ℕ) (priority : ControlSchedulerPriority) (d : D) :
    (initial main idle flags priority d).Inv [main] [] where
  holds := {
    linked := ⟨rfl, by simp [initial, ControlList.links, Linked]⟩
    nodup := List.nodup_singleton main
    alive := fun t ht => ⟨⟨none, flags, priority, false⟩, by simp [initial, List.mem_singleton.mp ht]⟩
    size := rfl
    round := rfl }
  idle_notMem := by simpa [initial] using hne.symm
  cur := .inr (List.mem_singleton.mpr rfl)
  fresh := by simp
  steady t ht := ht.elim
  steady_ready t ht := ht.elim
  lawful := trivial
  cursor := .inl ⟨rfl, rfl⟩

/-- **Rounds**: for every run no thread that was freed is used and every loop ends. `curInRound` is null or a
thread of the list. A thread is selected at most once between two runs of the regulator, and exactly once if
it was ready when the first of them ran and has been since. `IRQfindNextThread` selects the idle thread if and
only if no thread is ready, and a ready thread otherwise. -/
theorem run_rounds {main idle : T} (hne : main ≠ idle) (flags : ℕ) (priority : ControlSchedulerPriority) (d : D)
    (es : List (ControlEvent T)) :
    ∃ n, ∀ fuel ≥ n, ∃ s l, (initial main idle flags priority d).run reg fuel es = .ok s ∧ s.threads.Holds l ∧
      (∀ c, s.curInRound = some c → c ∈ l) ∧ Lawful Allowed s.history ∧
      (s.kernelRunning = 0 → ∀ now, ∃ s', s.irqFindNextThread reg fuel now = .ok s' ∧
        (s'.cur = s.idle ↔ ∀ t ∈ l, s.threads.ready t = false) ∧
        (s'.cur ≠ s.idle → s'.cur ∈ l ∧ s.threads.ready s'.cur = true)) := by
  refine ⟨2 * (es.length + 2) + 1, fun fuel hfuel => ?_⟩
  obtain ⟨l, hlen, s, b, hs, hinv, -⟩ := @Inv.run _ _ _ _ _ _ reg fuel (inv_initial hne flags priority d) es (by simp; omega)
  refine ⟨s, l, hs, hinv.holds, fun c hc => hinv.cursor.mem hc, hinv.lawful, fun hk now => ?_⟩
  have hlt : 2 * l.length < fuel := by
    simp only [List.length_singleton] at hlen
    omega
  obtain ⟨s', hs', hfound⟩ := hinv.find reg hk now hlt
  refine ⟨s', hs', ⟨fun hcur t ht => ?_, hfound.none⟩, fun hcur => hfound.cur ?_⟩
  · by_contra hr
    have hsel := hfound.cur ⟨t, ht, by simpa using hr⟩
    exact hinv.idle_notMem (hcur ▸ hsel.1)
  · by_contra hno
    exact hcur (hfound.none (by simpa using hno))

theorem run_rounds_two : ∃ n, ∀ fuel ≥ n, ∃ s l,
    (initial 0 9 0 ⟨1, 3⟩ ()).run (noRegulator ℕ) fuel [.add 1 0 ⟨1, 3⟩, .find 0, .find 0, .find 0] = .ok s ∧
      s.threads.Holds l ∧ (∀ c, s.curInRound = some c → c ∈ l) ∧ Lawful Allowed s.history ∧
      (s.kernelRunning = 0 → ∀ now, ∃ s', s.irqFindNextThread (noRegulator ℕ) fuel now = .ok s' ∧
        (s'.cur = s.idle ↔ ∀ t ∈ l, s.threads.ready t = false) ∧
        (s'.cur ≠ s.idle → s'.cur ∈ l ∧ s.threads.ready s'.cur = true)) :=
  run_rounds (noRegulator ℕ) (by decide) 0 ⟨1, 3⟩ () _

/-- A thread that is created during a round has to wait for the next one. -/
example : ((initial 0 9 0 ⟨1, 3⟩ ()).run (noRegulator ℕ) 9
    [.find 0, .add 1 0 ⟨1, 3⟩, .find 0, .find 0]).toOption.map (·.history) =
    some [.selects 0, .selects 1, .regulator [1, 0], .selects 0, .regulator [0]] := by
  decide

end ControlScheduler

end Miosix
