import MiosixKernel.Sched.ControlRound
import MiosixKernel.Sched.Multiburst

/-!
# The control based scheduler with several bursts: rounds

* `Calm`: the steps after which the round goes on as it has to;
* `Entered`, `Left`: where a thread goes in the list of active threads, and what `curInRound` is then;
* `Inv`: every step keeps it, and `Fair`: the calm steps keep it;
* **`run_bursts`**: every run.
-/

namespace Miosix

open Lib

namespace MultiburstScheduler

open RoundEvent IntrusiveList

variable {T D : Type} [DecidableEq T]

/-! ## Statements about rounds -/

/-- When the regulator runs, every thread that was active since it ran before was selected once. -/
def OneBurst (older : List (RoundEvent T)) : RoundEvent T → Prop
  | regulator _ => ∀ t, Steady t older → (selections older).count t = 1
  | selects _ => True
  | idles => True
  | stops _ => True

/-- No burst is repeated or skipped if a thread enters before `curInRound`: the round has come to its end, or
no steady thread waits behind the first one, or the current thread is not steady. -/
def CalmEntry (s : MultiburstScheduler T D) : Prop :=
  ∀ c, s.curInRound = .item c →
    (s.activeThreads.head = .item c → ∀ t, Steady t s.history → t = c) ∧
    (s.activeThreads.head ≠ .item c → ¬Steady c s.history)

/-- No burst is skipped if `t` leaves the list: it is not at `curInRound`, or the next thread is not steady. -/
def CalmExit (s : MultiburstScheduler T D) (t : T) : Prop :=
  s.curInRound = .item t → ∀ u, s.activeThreads.next (.item t) = some (.item u) → ¬Steady u s.history

/-- The steps after which the round goes on as it has to. -/
def Calm (s : MultiburstScheduler T D) : MultiburstEvent T → Prop
  | .add _ flags priority => ThreadFlags.isReady flags → priority.getRealtime = .immediate → s.CalmEntry
  | .setFlags t flags => ∀ o, s.threads.mem t = some o →
    if ThreadFlags.isReady flags then !o.lastReadyStatus → o.priority.getRealtime = .immediate → s.CalmEntry
    else o.lastReadyStatus → s.CalmExit t
  | .find _ => True
  | .pause _ => True

/-- All steps of a run are calm. -/
def CalmRun (reg : ControlRegulator T D) (fuel : ℕ) (s : MultiburstScheduler T D) :
    List (MultiburstEvent T) → Prop
  | [] => True
  | e :: es => s.Calm e ∧ ∀ s', s.step reg fuel e = .ok s' → CalmRun reg fuel s' es

/-! ## The list of active threads -/

/-- Where `t` enters the active threads `pre` and `b`, when `curInRound` is at `b`. -/
inductive Entered (t : T) : ControlRealtimePriority → List T → List T → List T → List T → Prop
  | beforeFirst (b) : Entered t .immediate [] b (t :: b) []
  | before (pre p b) : Entered t .immediate (pre ++ [p]) b pre (p :: t :: b)
  | afterEnd (pre) : Entered t .nextBurst pre [] (t :: pre) []
  | after (pre c b) : Entered t .nextBurst pre (c :: b) pre (c :: t :: b)
  | atEnd (pre) : Entered t .endOfRound pre [] (pre ++ [t]) []
  | last (pre c b) : Entered t .endOfRound pre (c :: b) pre (c :: (b ++ [t]))

/-- What is left of the active threads `pre` and `b` without `t`. -/
inductive Left (t : T) : List T → List T → List T → List T → Prop
  | before (p q b) : Left t (p ++ t :: q) b (p ++ q) b
  | current (pre b) : Left t pre (t :: b) pre b
  | after (pre c p q) : Left t pre (c :: (p ++ t :: q)) pre (c :: (p ++ q))

/-- The threads before `b`, and the one at `curInRound`, had their burst, and the others wait for it. -/
structure Fair (history : List (RoundEvent T)) (pre b : List T) : Prop where
  given : ∀ t ∈ pre ++ b.take 1, Steady t history → (selections history).count t = 1
  waiting : ∀ t ∈ b.tail, Steady t history → (selections history).count t = 0
  lawful : Lawful OneBurst history

variable {t u c : T} {rt : ControlRealtimePriority} {pre b pre' b' l l' : List T} {history : List (RoundEvent T)}
  {s : MultiburstScheduler T D} {o : ControlThread T}

omit [DecidableEq T] in
theorem Entered.mem_iff (h : Entered t rt pre b pre' b') : u ∈ pre' ++ b' ↔ u = t ∨ u ∈ pre ++ b := by
  cases h <;> simp only [List.mem_append, List.mem_cons, List.not_mem_nil] <;> tauto

omit [DecidableEq T] in
theorem Left.perm (h : Left t pre b pre' b') : (pre ++ b).Perm (t :: (pre' ++ b')) := by
  cases h with
  | before p q b => simp
  | current pre b => exact List.perm_middle
  | after pre c p q => simpa using @List.perm_middle _ t (pre ++ c :: p) q

omit [DecidableEq T] in
theorem Left.mem_iff (h : Left t pre b pre' b') (hnd : (pre ++ b).Nodup) : u ∈ pre' ++ b' ↔ u ≠ t ∧ u ∈ pre ++ b := by
  have ht : t ∉ pre' ++ b' := (List.nodup_cons.mp (h.perm.nodup_iff.mp hnd)).1
  rw [h.perm.mem_iff, List.mem_cons]
  refine ⟨fun hu => ⟨?_, .inr hu⟩, fun ⟨hut, hu⟩ => hu.resolve_left hut⟩
  rintro rfl
  exact ht hu

/-- `t` was not ready, and the round goes on. -/
theorem Fair.entered (h : Fair history pre b) (he : Entered t rt pre b pre' b') (ht : ¬Steady t history)
    (hcalm : rt = .immediate → ∀ c d, b = c :: d →
      (pre = [] → ∀ u, Steady u history → u = c) ∧ (pre ≠ [] → ¬Steady c history)) : Fair history pre' b' := by
  have hne : ∀ u, Steady u history → u ≠ t := by
    rintro u hu rfl
    exact ht hu
  have hgiven := h.given
  have hwaiting := h.waiting
  cases he with
  | beforeFirst b =>
    refine ⟨fun u hu hs => ?_, by simp, h.lawful⟩
    have hub : u ∈ b := by
      have := hne u hs
      simpa [this] using hu
    cases b with
    | nil => cases hub
    | cons c d =>
      obtain rfl := (hcalm rfl c d rfl).1 rfl u hs
      exact hgiven u (by simp) hs
  | before pre p b =>
    refine ⟨fun u hu hs => hgiven u (by simp at hu ⊢; tauto) hs, fun u hu hs => ?_, h.lawful⟩
    have hub : u ∈ b := by
      have := hne u hs
      simpa [this] using hu
    cases b with
    | nil => cases hub
    | cons c d =>
      have hcs : ¬Steady c history := (hcalm rfl c d rfl).2 (by simp)
      rcases List.mem_cons.mp hub with rfl | hud
      · exact absurd hs hcs
      · exact hwaiting u hud hs
  | afterEnd pre =>
    refine ⟨fun u hu hs => hgiven u ?_ hs, by simp, h.lawful⟩
    have := hne u hs
    simpa [this] using hu
  | after pre c b =>
    refine ⟨fun u hu hs => hgiven u (by simpa using hu) hs, fun u hu hs => hwaiting u ?_ hs, h.lawful⟩
    have := hne u hs
    simpa [this] using hu
  | atEnd pre =>
    refine ⟨fun u hu hs => hgiven u ?_ hs, by simp, h.lawful⟩
    have := hne u hs
    simpa [this] using hu
  | last pre c b =>
    refine ⟨fun u hu hs => hgiven u (by simpa using hu) hs, fun u hu hs => hwaiting u ?_ hs, h.lawful⟩
    have := hne u hs
    simpa [this] using hu

theorem Fair.stops (h : Fair history pre b) (t : T) : Fair (.stops t :: history) pre b :=
  ⟨fun u hu hs => h.given u hu hs.2, fun u hu hs => h.waiting u hu hs.2, trivial, h.lawful⟩

/-- `t` is not ready any more, and the round goes on. -/
theorem Fair.left (h : Fair history pre b) (hl : Left t pre b pre' b')
    (hcalm : ∀ c d, b = t :: c :: d → ¬Steady c history) : Fair (.stops t :: history) pre' b' := by
  have hgiven := h.given
  have hwaiting := h.waiting
  cases hl with
  | before p q b =>
    refine ⟨fun u hu hs => hgiven u ?_ hs.2, fun u hu hs => hwaiting u hu hs.2, trivial, h.lawful⟩
    simp only [List.mem_append, List.mem_cons] at hu ⊢
    tauto
  | current pre b =>
    refine ⟨fun u hu hs => ?_, fun u hu hs => hwaiting u (List.mem_of_mem_tail hu) hs.2, trivial, h.lawful⟩
    cases b' with
    | nil => exact hgiven u (by simp at hu ⊢; tauto) hs.2
    | cons c d =>
      have huc : u ≠ c := by
        rintro rfl
        exact hcalm u d rfl hs.2
      refine hgiven u ?_ hs.2
      simp only [List.take_succ_cons, List.take_zero, List.mem_append, List.mem_singleton] at hu ⊢
      tauto
  | after pre c p q =>
    refine ⟨fun u hu hs => hgiven u (by simpa using hu) hs.2, fun u hu hs => hwaiting u ?_ hs.2, trivial, h.lawful⟩
    simp only [List.tail_cons, List.mem_append, List.mem_cons] at hu ⊢
    tauto

/-! ## The operations on the list -/

theorem addThreadToActiveList_spec (ha : s.activeThreads.IsList (pre ++ b)) (hc : s.curInRound = position b)
    (ho : s.threads.mem t = some o) (ht : t ∉ pre ++ b) :
    ∃ active pre' b', s.addThreadToActiveList t =
        .ok { s with activeThreads := active, curInRound := position b' } ∧
      active.IsList (pre' ++ b') ∧ Entered t o.priority.getRealtime pre b pre' b' := by
  rw [addThreadToActiveList, ControlList.load_eq ho, ok_bind]
  cases hrt : o.priority.getRealtime with
  | immediate =>
    obtain ⟨active, hins, hlist⟩ := ha.insert ht
    have hprev : active.prev (position b) = some (.item t) := by
      have hsplit : active.IsList ((pre ++ [t]) ++ b) := by simpa using hlist
      simpa using hsplit.prev_eq
    have hprev' : active.prev (.item t) = some (lastPosition pre) := IsList.prev_eq (b := t :: b) hlist
    obtain rfl | ⟨q, p, rfl⟩ := pre.eq_nil_or_concat
    · refine ⟨active, t :: b, [], ?_, by simpa using hlist, .beforeFirst b⟩
      simp [hc, hins, deref, hprev, hprev']
    · rw [List.concat_eq_append] at hprev' hlist ⊢
      refine ⟨active, q, p :: t :: b, ?_, by simpa using hlist, .before q p b⟩
      simp [hc, hins, deref, hprev, hprev']
  | nextBurst =>
    cases b with
    | nil =>
      obtain ⟨active, hins, hlist⟩ := IsList.insert (a := []) (b := pre) (by simpa using ha) (by simpa using ht)
      have hnext : s.activeThreads.next .emptyListItem = some (position pre) := by simpa using ha.next_end
      refine ⟨active, t :: pre, [], ?_, by simpa using hlist, .afterEnd pre⟩
      simp [hc, hins, deref, hnext]
    | cons c b =>
      have hsplit : s.activeThreads.IsList ((pre ++ [c]) ++ b) := by simpa using ha
      obtain ⟨active, hins, hlist⟩ := hsplit.insert (by simpa using ht)
      refine ⟨active, pre, c :: t :: b, ?_, by simpa using hlist, .after pre c b⟩
      simp [hc, hins, deref, ha.next_eq]
  | endOfRound =>
    have hlist := ha.pushBack ht
    cases b with
    | nil => exact ⟨s.activeThreads.pushBack t, pre ++ [t], [], by simp [hc], by simpa using hlist, .atEnd pre⟩
    | cons c b =>
      exact ⟨s.activeThreads.pushBack t, pre, c :: (b ++ [t]), by simp [hc], by simpa using hlist, .last pre c b⟩

theorem remThreadFromActiveList_spec (ha : s.activeThreads.IsList (pre ++ b)) (hc : s.curInRound = position b)
    (ht : t ∈ pre ++ b) :
    ∃ active pre' b', s.remThreadFromActiveList t =
        .ok { s with activeThreads := active, curInRound := position b' } ∧
      active.IsList (pre' ++ b') ∧ Left t pre b pre' b' := by
  rcases List.mem_append.mp ht with hpre | hb
  · obtain ⟨p, q, rfl⟩ := List.append_of_mem hpre
    have hsplit : s.activeThreads.IsList (p ++ t :: (q ++ b)) := by simpa using ha
    have hne : s.curInRound ≠ .item t := by
      rw [hc]
      have hnd := hsplit.nodup
      rw [List.nodup_middle, List.nodup_cons] at hnd
      exact (ne_position fun hm => hnd.1 (by simp [hm])).symm
    obtain ⟨active, her, hlist⟩ := hsplit.erase
    refine ⟨active, p ++ q, b, ?_, by simpa using hlist, .before p q b⟩
    rw [remThreadFromActiveList, if_neg hne]
    simp [her, hc]
  · cases b with
    | nil => cases hb
    | cons c b =>
      by_cases htc : t = c
      · subst htc
        obtain ⟨active, her, hlist⟩ := ha.erase
        refine ⟨active, pre, b, ?_, hlist, .current pre b⟩
        simp [remThreadFromActiveList, hc, ha.next_eq, deref, her]
      · obtain ⟨p, q, rfl⟩ := List.append_of_mem ((List.mem_cons.mp hb).resolve_left htc)
        have hsplit : s.activeThreads.IsList ((pre ++ c :: p) ++ t :: q) := by simpa using ha
        obtain ⟨active, her, hlist⟩ := hsplit.erase
        refine ⟨active, pre, c :: (p ++ q), ?_, by simpa using hlist, .after pre c p q⟩
        simp [remThreadFromActiveList, hc, Ne.symm htc, her]

/-! ## The invariant -/

/-- The list has the threads `l`. Those that are ready are `pre` and `b`, and `curInRound` is at `b`. -/
structure Inv (s : MultiburstScheduler T D) (l pre b : List T) : Prop where
  holds : s.threads.Holds l
  active : s.activeThreads.IsList (pre ++ b)
  active_iff : ∀ t, t ∈ pre ++ b ↔ t ∈ l ∧ s.threads.ready t = true
  status : ∀ t o, s.threads.mem t = some o → o.lastReadyStatus = ThreadFlags.isReady o.flags
  stored : ∀ t o, s.threads.mem t = some o → t ∈ l
  cursor : s.curInRound = position b
  idle_notMem : s.idle ∉ l
  cur : s.cur = s.idle ∨ s.cur ∈ l
  steady : ∀ t, Steady t s.history → t ∈ pre ++ b

namespace Inv

omit [DecidableEq T] in
theorem subset (h : s.Inv l pre b) : pre ++ b ⊆ l := fun t ht => ((h.active_iff t).mp ht).1

omit [DecidableEq T] in
theorem mem_of_ready (h : s.Inv l pre b) (ho : s.threads.mem t = some o) (hr : ThreadFlags.isReady o.flags = true) :
    t ∈ pre ++ b :=
  (h.active_iff t).mpr ⟨h.stored t o ho, by rw [ControlList.ready_eq ho, hr]⟩

omit [DecidableEq T] in
theorem notMem_of_not_ready (h : s.Inv l pre b) (ho : s.threads.mem t = some o)
    (hr : ThreadFlags.isReady o.flags = false) : t ∉ pre ++ b := by
  intro ht
  have hready := ((h.active_iff t).mp ht).2
  rw [ControlList.ready_eq ho, hr] at hready
  cases hready

omit [DecidableEq T] in
/-- Only the fields of `t` change. -/
theorem store (h : s.Inv l pre b) {threads : ControlList T} {active : IntrusiveList T} (hholds : threads.Holds l')
    (hl : ∀ u, u ∈ l' ↔ u = t ∨ u ∈ l) (hti : t ≠ s.idle) (ho : threads.mem t = some o)
    (hother : ∀ u, u ≠ t → threads.mem u = s.threads.mem u) (hstatus : o.lastReadyStatus = ThreadFlags.isReady o.flags)
    (hlist : active.IsList (pre' ++ b'))
    (hmem : ∀ u, u ∈ pre' ++ b' ↔ (u = t ∧ ThreadFlags.isReady o.flags = true) ∨ (u ≠ t ∧ u ∈ pre ++ b))
    (hsteady : ∀ u, Steady u history → Steady u s.history ∧ (u = t → ThreadFlags.isReady o.flags = true)) :
    Inv { s with threads := threads, activeThreads := active, curInRound := position b', history := history }
      l' pre' b' where
  holds := hholds
  active := hlist
  active_iff u := by
    rw [hmem, hl]
    by_cases hut : u = t
    · subst hut
      simp [ControlList.ready_eq ho]
    · simp only [hut, false_and, ne_eq, not_false_eq_true, true_and, false_or, h.active_iff]
      rw [ControlList.ready, ControlList.ready, hother u hut]
  status u ou hu := by
    by_cases hut : u = t
    · subst hut
      obtain rfl := Option.some.inj (ho.symm.trans hu)
      exact hstatus
    · exact h.status u ou ((hother u hut).symm.trans hu)
  stored u ou hu := by
    rw [hl]
    by_cases hut : u = t
    · exact .inl hut
    · exact .inr (h.stored u ou ((hother u hut).symm.trans hu))
  cursor := rfl
  idle_notMem hm := ((hl _).mp hm).elim hti.symm h.idle_notMem
  cur := h.cur.imp_right fun hc => (hl _).mpr (.inr hc)
  steady u hu := by
    obtain ⟨hs, hr⟩ := hsteady u hu
    rw [hmem]
    by_cases hut : u = t
    · exact .inl ⟨hut, hr hut⟩
    · exact .inr ⟨hut, h.steady u hs⟩

end Inv

/-- A section that keeps the invariant, and goes on with the round if it is calm. -/
def Advances (s : MultiburstScheduler T D) (pre b : List T) (calm : Prop) (r : Except Fault (MultiburstScheduler T D))
    (l' : List T) : Prop :=
  ∃ s' pre' b', r = .ok s' ∧ s'.Inv l' pre' b' ∧ s'.idle = s.idle ∧
    (calm → Fair s.history pre b → Fair s'.history pre' b')

variable (reg : ControlRegulator T D) {fuel : ℕ} {calm : Prop}

theorem Advances.mono {calm' : Prop} {r : Except Fault (MultiburstScheduler T D)} (h : s.Advances pre b calm r l)
    (himp : calm' → calm) : s.Advances pre b calm' r l := by
  obtain ⟨s', pre', b', hs', hinv, hidle, hfair⟩ := h
  exact ⟨s', pre', b', hs', hinv, hidle, fun hcalm => hfair (himp hcalm)⟩

theorem Inv.recalculate {s₁ : MultiburstScheduler T D} (h : s₁.Inv l' pre' b') (hidle : s₁.idle = s.idle)
    (hf : l'.length < fuel) (hfair : calm → Fair s.history pre b → Fair s₁.history pre' b') :
    s.Advances pre b calm (s₁.irqRecalculateAlfa reg fuel) l' :=
  ⟨_, pre', b', irqRecalculateAlfa_eq reg h.holds h.active h.subset hf,
    { h with cursor := h.cursor }, hidle, hfair⟩

theorem setLastReadyStatus_eq (ho : s.threads.mem t = some o) (status : Bool) :
    s.setLastReadyStatus t status = .ok { s with
      threads.mem := Function.update s.threads.mem t (some { o with lastReadyStatus := status }) } := by
  rw [setLastReadyStatus, ControlList.modify, ControlList.load_eq ho]
  rfl

/-! ## The steps -/

omit [DecidableEq T] in
/-- What `CalmEntry` says about the threads before and after `curInRound`. -/
theorem CalmEntry.of_inv (hcalm : s.CalmEntry) (h : s.Inv l pre b) {d : List T} (hb : b = c :: d) :
    (pre = [] → ∀ u, Steady u s.history → u = c) ∧ (pre ≠ [] → ¬Steady c s.history) := by
  subst hb
  obtain ⟨hfirst, hrest⟩ := hcalm c h.cursor
  refine ⟨fun hpre => hfirst ?_, fun hpre => hrest ?_⟩
  · rw [h.active.head, hpre]
    rfl
  · obtain ⟨p, q, rfl⟩ := List.exists_cons_of_ne_nil hpre
    have hpc : p ≠ c := by
      have hnd := h.active.nodup
      rw [List.cons_append, List.nodup_cons] at hnd
      rintro rfl
      exact hnd.1 (by simp)
    rw [h.active.head]
    simpa using hpc

/-- The thread `t` becomes active. -/
theorem Inv.enter (h : s.Inv l pre b) {threads : ControlList T} (hholds : threads.Holds l')
    (hl : ∀ u, u ∈ l' ↔ u = t ∨ u ∈ l) (hti : t ≠ s.idle) (ho : threads.mem t = some o)
    (hr : ThreadFlags.isReady o.flags = true) (hother : ∀ u, u ≠ t → threads.mem u = s.threads.mem u)
    (ht : t ∉ pre ++ b) (hf : l'.length < fuel) :
    s.Advances pre b (o.priority.getRealtime = .immediate → s.CalmEntry) (do
      let s ← addThreadToActiveList { s with threads := threads } t
      let s ← s.setLastReadyStatus t true
      s.irqRecalculateAlfa reg fuel) l' := by
  obtain ⟨active, pre', b', hadd, hlist, hentered⟩ :=
    @addThreadToActiveList_spec _ _ _ _ _ _ { s with threads := threads } _ h.active h.cursor ho ht
  rw [hadd, ok_bind, setLastReadyStatus_eq ho, ok_bind]
  have hsteady : ∀ u, Steady u s.history → u ≠ t := by
    rintro u hu rfl
    exact ht (h.steady u hu)
  have hinv : Inv { s with
      threads := { threads with mem := Function.update threads.mem t (some { o with lastReadyStatus := true }) }
      activeThreads := active
      curInRound := position b' } l' pre' b' := by
    refine h.store (hholds.update ho rfl) hl hti (Function.update_self _ _ _) (fun u hu => ?_) hr.symm hlist
      (fun u => ?_) fun u hu => ⟨hu, fun hut => absurd hut (hsteady u hu)⟩
    · exact (Function.update_of_ne hu _ _).trans (hother u hu)
    · rw [hentered.mem_iff]
      by_cases hut : u = t
      · simp [hut, hr]
      · simp [hut]
  refine hinv.recalculate reg rfl hf fun hcalm hfair => ?_
  exact hfair.entered hentered (fun hs => hsteady t hs rfl) fun hrt c d hb => (hcalm hrt).of_inv h hb

/-- The thread `t` is active no more. -/
theorem Inv.leave (h : s.Inv l pre b) {threads : ControlList T} (hholds : threads.Holds l) (ho : threads.mem t = some o)
    (hr : ThreadFlags.isReady o.flags = false) (hother : ∀ u, u ≠ t → threads.mem u = s.threads.mem u)
    (ht : t ∈ pre ++ b) (hf : l.length < fuel) :
    s.Advances pre b (s.CalmExit t) (do
      let s ← remThreadFromActiveList { s with threads := threads, history := .stops t :: s.history } t
      let s ← s.setLastReadyStatus t false
      s.irqRecalculateAlfa reg fuel) l := by
  obtain ⟨active, pre', b', hrem, hlist, hleft⟩ := @remThreadFromActiveList_spec _ _ _ _ _ _
    { s with threads := threads, history := .stops t :: s.history } h.active h.cursor ht
  rw [hrem, ok_bind, setLastReadyStatus_eq ho, ok_bind]
  have htl : t ∈ l := h.subset ht
  have hti : t ≠ s.idle := by
    rintro rfl
    exact h.idle_notMem htl
  have hinv : Inv { s with
      threads := { threads with mem := Function.update threads.mem t (some { o with lastReadyStatus := false }) }
      activeThreads := active
      curInRound := position b'
      history := .stops t :: s.history } l pre' b' := by
    refine h.store (hholds.update ho rfl) (fun u => ⟨.inr, ?_⟩) hti (Function.update_self _ _ _) (fun u hu => ?_) hr.symm
      hlist (fun u => ?_) fun u hu => ⟨hu.2, fun hut => absurd hut hu.1⟩
    · rintro (rfl | hu)
      · exact htl
      · exact hu
    · exact (Function.update_of_ne hu _ _).trans (hother u hu)
    · rw [hleft.mem_iff h.active.nodup]
      simp [hr]
  refine hinv.recalculate reg rfl hf fun hcalm hfair => hfair.left hleft fun c d hb => ?_
  subst hb
  exact hcalm h.cursor c h.active.next_eq

/-- A thread that is created. -/
theorem Inv.create (h : s.Inv l pre b) (ht : s.threads.mem t = none) (flags : ℕ) (priority : ControlSchedulerPriority) :
    ∃ threads o, (s.create t flags).threads.pkAddThread t priority = .ok threads ∧ threads.Holds (t :: l) ∧
      threads.mem t = some o ∧ o.flags = flags ∧ o.priority = priority ∧
      (∀ u, u ≠ t → threads.mem u = s.threads.mem u) ∧ t ∉ pre ++ b := by
  have hne : ∀ u ∈ l, u ≠ t := by
    rintro u hu rfl
    obtain ⟨o, ho⟩ := h.holds.alive u hu
    rw [ht] at ho
    cases ho
  have htl : t ∉ l := fun hm => hne t hm rfl
  have hholds : (s.create t flags).threads.Holds l := h.holds.congr fun u hu => Function.update_of_ne (hne u hu) _ _
  obtain ⟨threads, hadd, hth, hmem⟩ :=
    ControlList.pkAddThread_spec hholds (Function.update_self _ _ _) htl priority
  refine ⟨threads, _, hadd, hth, by rw [hmem]; exact Function.update_self _ _ _, rfl, rfl, fun u hu => ?_,
    fun hm => htl (h.subset hm)⟩
  rw [hmem, Function.update_of_ne hu]
  exact Function.update_of_ne hu _ _

theorem Inv.add (h : s.Inv l pre b) (ht : s.threads.mem t = none) (hti : t ≠ s.idle) (flags : ℕ)
    (priority : ControlSchedulerPriority) (hf : l.length + 1 < fuel) :
    ∃ r, (s.create t flags).pkAddThread reg fuel t priority = .ok r ∧ (r = none ∨ ∃ s', r = some s' ∧
      s.Advances pre b (s.Calm (.add t flags priority)) (.ok s') (t :: l)) := by
  obtain ⟨threads, o, hadd, hholds, ho, hflags, hpriority, hother, htm⟩ := h.create ht flags priority
  unfold MultiburstScheduler.pkAddThread
  split_ifs with hfull
  · exact ⟨none, rfl, .inl rfl⟩
  · have hl : ∀ u, u ∈ t :: l ↔ u = t ∨ u ∈ l := fun u => List.mem_cons
    rw [hadd, ok_bind]
    cases hr : ThreadFlags.isReady flags with
    | true =>
      obtain ⟨s', pre', b', hs', hinv, hidle, hfair⟩ :=
        h.enter reg hholds hl hti ho (by rw [hflags, hr]) hother htm hf
      refine ⟨some s', ?_, .inr ⟨s', rfl, s', pre', b', rfl, hinv, hidle, fun hcalm => hfair ?_⟩⟩
      · have hsome := congrArg (some <$> ·) hs'
        simpa [ControlList.load_eq ho, hflags, hr, MultiburstScheduler.create] using hsome
      · rw [hpriority]
        exact hcalm hr
    | false =>
      have hready : ThreadFlags.isReady o.flags = false := by rw [hflags, hr]
      have hinv : Inv { s with
          threads := { threads with mem := Function.update threads.mem t (some { o with lastReadyStatus := false }) }
          activeThreads := s.activeThreads
          curInRound := s.curInRound } (t :: l) pre b := by
        rw [h.cursor]
        refine h.store (hholds.update ho rfl) hl hti (Function.update_self _ _ _)
          (fun u hu => (Function.update_of_ne hu _ _).trans (hother u hu)) hready.symm h.active (fun u => ?_)
          fun u hu => ⟨hu, ?_⟩
        · by_cases hut : u = t
          · subst hut
            simpa [hready] using htm
          · simp [hut]
        · rintro rfl
          exact absurd (h.steady u hu) htm
      obtain ⟨s', pre', b', hs', hinv, hidle, hfair⟩ :=
        @Inv.recalculate _ _ _ pre b _ _ _ s reg _ True _ hinv rfl hf fun _ hfair => hfair
      refine ⟨some s', ?_, .inr ⟨s', rfl, s', pre', b', rfl, hinv, hidle, fun _ => hfair trivial⟩⟩
      have hset := @setLastReadyStatus_eq _ _ _ _ { s with threads := threads } _ ho false
      have hsome := congrArg (some <$> ·) hs'
      simpa [ControlList.load_eq ho, hflags, hr, MultiburstScheduler.create, hset] using hsome

theorem Inv.setFlags (h : s.Inv l pre b) (ho : s.threads.mem t = some o) (flags : ℕ) (hf : l.length < fuel) :
    s.Advances pre b (s.Calm (.setFlags t flags)) (s.setFlags reg fuel t flags) l := by
  set threads : ControlList T :=
    { s.threads with mem := Function.update s.threads.mem t (some { o with flags := flags }) } with hthreads
  have hholds : threads.Holds l := h.holds.update ho rfl
  have hself : threads.mem t = some { o with flags := flags } := Function.update_self _ _ _
  have hother : ∀ u, u ≠ t → threads.mem u = s.threads.mem u := fun u hu => Function.update_of_ne hu _ _
  have htl : t ∈ l := h.stored t o ho
  have hl : ∀ u, u ∈ l ↔ u = t ∨ u ∈ l := by
    refine fun u => ⟨.inr, ?_⟩
    rintro (rfl | hu)
    · exact htl
    · exact hu
  have hti : t ≠ s.idle := by
    rintro rfl
    exact h.idle_notMem htl
  have hmodify : (s.threads.modify t fun o => { o with flags := flags }) = .ok threads := by
    rw [ControlList.modify, ControlList.load_eq ho]
    rfl
  clear_value threads
  rw [MultiburstScheduler.setFlags, hmodify, ok_bind, irqWaitStatusHook, ControlList.load_eq hself, ok_bind]
  have hstatus := h.status t o ho
  cases hr : ThreadFlags.isReady flags with
  | true =>
    cases hlast : o.lastReadyStatus with
    | false =>
      have ht : t ∉ pre ++ b := h.notMem_of_not_ready ho (hstatus.symm.trans hlast)
      have henter := (h.enter reg hholds hl hti hself hr hother ht hf).mono fun hcalm : s.Calm (.setFlags t flags) => by
        simpa [hr, hlast] using hcalm o ho
      simpa [hr, hlast] using henter
    | true =>
      have ht : t ∈ pre ++ b := h.mem_of_ready ho (hstatus.symm.trans hlast)
      have hinv : Inv { s with threads := threads, activeThreads := s.activeThreads, curInRound := s.curInRound }
          l pre b := by
        rw [h.cursor]
        refine h.store hholds hl hti hself hother (hlast.trans hr.symm) h.active (fun u => ?_) fun u hu => ⟨hu, fun _ => hr⟩
        by_cases hut : u = t
        · simpa [hut, hr] using ht
        · simp [hut]
      have hrec : s.Advances pre b (s.Calm (.setFlags t flags)) _ l :=
        hinv.recalculate reg rfl hf fun _ hfair => hfair
      simpa [hr, hlast] using hrec
  | false =>
    cases hlast : o.lastReadyStatus with
    | false =>
      have ht : t ∉ pre ++ b := h.notMem_of_not_ready ho (hstatus.symm.trans hlast)
      have hinv : Inv { s with
          threads := threads
          activeThreads := s.activeThreads
          curInRound := s.curInRound
          history := .stops t :: s.history } l pre b := by
        rw [h.cursor]
        refine h.store hholds hl hti hself hother (hlast.trans hr.symm) h.active (fun u => ?_)
          fun u hu => ⟨hu.2, fun hut => absurd hut hu.1⟩
        by_cases hut : u = t
        · simpa [hut, hr] using ht
        · simp [hut]
      have hrec : s.Advances pre b (s.Calm (.setFlags t flags)) _ l :=
        hinv.recalculate reg rfl hf fun _ hfair => hfair.stops t
      simpa [hr, hlast] using hrec
    | true =>
      have ht : t ∈ pre ++ b := h.mem_of_ready ho (hstatus.symm.trans hlast)
      have hleave := (h.leave reg hholds hself hr hother ht hf).mono fun hcalm : s.Calm (.setFlags t flags) => by
        simpa [hr, hlast] using hcalm o ho
      simpa [hr, hlast] using hleave

/-! ## `IRQfindNextThread` -/

omit [DecidableEq T] in
/-- The thread at `curInRound` is ready, so that it is selected. -/
theorem select_eq (ho : s.threads.mem c = some o) (hr : ThreadFlags.isReady o.flags = true) (now : ℤ) :
    s.select reg now c = .ok { s with
      curInRound := .item c
      cur := c
      regulation := reg.setNextPreemption (some c) now s.regulation
      history := .selects c :: s.history } := by
  rw [select, ControlList.load_eq ho, ok_bind, if_pos hr]
  rfl

/-- A burst of the thread `c`, which waited for it. -/
theorem Fair.select (h : Fair history pre (u :: c :: b)) (hnd : (pre ++ u :: c :: b).Nodup) :
    Fair (.selects c :: history) (pre ++ [u]) (c :: b) := by
  have hsplit : pre ++ u :: c :: b = (pre ++ [u]) ++ c :: b := by simp
  rw [hsplit, List.nodup_middle, List.nodup_cons] at hnd
  have hother : ∀ t, t ≠ c → (selections (.selects c :: history)).count t = (selections history).count t := by
    intro t ht
    exact List.count_cons_of_ne ht.symm
  refine ⟨fun t ht hs => ?_, fun t ht hs => ?_, trivial, h.lawful⟩
  · by_cases htc : t = c
    · subst htc
      have hzero : (selections history).count t = 0 := h.waiting t (by simp) hs
      rw [selections, List.count_cons_self, hzero]
    · rw [hother t htc]
      exact h.given t (by simp at ht ⊢; tauto) hs
  · have htc : t ≠ c := by
      rintro rfl
      exact hnd.1 (List.mem_append_right _ ht)
    rw [hother t htc]
    exact h.waiting t (List.mem_cons_of_mem _ ht) hs

/-- The round is over, and another one begins. -/
theorem Fair.begin (h : Fair history pre b) (hb : b.tail = []) (hsteady : ∀ t, Steady t history → t ∈ pre ++ b)
    (hnd : (c :: l).Nodup) : Fair (.selects c :: .regulator (c :: l) :: history) [] (c :: l) := by
  have hcl : c ∉ l := (List.nodup_cons.mp hnd).1
  refine ⟨fun t ht _ => ?_, fun t ht _ => ?_, trivial, fun t ht => ?_, h.lawful⟩
  · obtain rfl : t = c := by simpa using ht
    simp [selections]
  · have htc : c ≠ t := by
      rintro rfl
      exact hcl ht
    simp [selections, htc]
  · refine h.given t ?_ ht
    have hone : b.take 1 = b := by
      cases b with
      | nil => rfl
      | cons x b =>
        obtain rfl : b = [] := hb
        rfl
    rw [hone]
    exact hsteady t ht

omit [DecidableEq T] in
theorem Inv.active_ready (h : s.Inv l pre b) (hc : c ∈ pre ++ b) :
    ∃ o, s.threads.mem c = some o ∧ ThreadFlags.isReady o.flags = true := by
  obtain ⟨o, ho⟩ := h.holds.alive c (h.subset hc)
  exact ⟨o, ho, by rw [← ControlList.ready_eq ho]; exact ((h.active_iff c).mp hc).2⟩

/-- The end of the list, and no thread is active. -/
theorem Inv.findNext_idle (h : s.Inv l [] []) (now : ℤ) (hf : 0 < fuel) :
    s.findNext reg fuel now = .ok { s with
      curInRound := .emptyListItem
      cur := s.idle
      regulation := reg.setNextPreemption none now s.regulation
      history := .idles :: s.history } := by
  have hvisit : s.visitActive fuel = .ok (s.threads.visited []) := visitActive_eq h.active (by simp) hf
  simp [MultiburstScheduler.findNext, h.cursor, hvisit, h.active.head]

/-- The end of the list: the round begins with the first active thread. -/
theorem Inv.findNext_round (h : s.Inv l pre b) {d : List T} (hb : b.tail = []) (ha : pre ++ b = c :: d) (now : ℤ)
    (hf : l.length < fuel) :
    ∃ r, s.findNext reg fuel now = .ok { s with
      curInRound := .item c
      cur := c
      regulation := r
      history := .selects c :: .regulator (c :: d) :: s.history } := by
  have hlen : (pre ++ b).length < fuel := ((h.active.nodup.subperm h.subset).length_le).trans_lt hf
  have hvisit : s.visitActive fuel = .ok (s.threads.visited (c :: d)) := by
    rw [visitActive_eq h.active (fun t ht => h.holds.alive t (h.subset ht)) hlen, ha]
  have hhead : s.activeThreads.head = .item c := by
    rw [h.active.head, ha]
    rfl
  have hmap : (s.threads.visited (c :: d)).map Prod.fst = c :: d :=
    ControlList.map_fst_visited fun t ht => h.holds.alive t (h.subset (ha ▸ ht))
  obtain ⟨o, ho, hr⟩ := h.active_ready (c := c) (by simp [ha])
  refine ⟨reg.setNextPreemption (some c) now (reg.runRegulator
    ((s.threads.visited (c :: d)).all fun p => reg.saturated s.regulation p.1) (s.threads.visited l) s.threads.spTr
    s.threads.threadListSize s.regulation), ?_⟩
  cases b with
  | nil =>
    simp only [MultiburstScheduler.findNext, h.cursor, position_nil, ne_eq, not_true, if_false, pure_bind, hvisit,
      ok_bind, hhead, ControlList.visit_eq h.holds hf, hmap]
    exact select_eq reg (by exact ho) hr now
  | cons u b =>
    obtain rfl : b = [] := hb
    simp only [MultiburstScheduler.findNext, h.cursor, position_cons, ne_eq, reduceCtorEq, not_false_eq_true, if_true,
      h.active.next_eq, deref, position_nil, hvisit, ok_bind, hhead, ControlList.visit_eq h.holds hf, hmap]
    exact select_eq reg (by exact ho) hr now

theorem Inv.findNext (h : s.Inv l pre b) (now : ℤ) (hf : l.length < fuel) :
    s.Advances pre b True (s.findNext reg fuel now) l := by
  by_cases hb : b.tail = []
  · cases ha : pre ++ b with
    | nil =>
      obtain ⟨rfl, rfl⟩ := List.append_eq_nil_iff.mp ha
      exact ⟨_, [], [], h.findNext_idle reg now (by omega), { h with cursor := rfl, cur := .inl rfl }, rfl,
        fun _ hfair => ⟨hfair.given, hfair.waiting, trivial, hfair.lawful⟩⟩
    | cons c d =>
      obtain ⟨r, hr⟩ := h.findNext_round reg hb ha now hf
      exact ⟨_, [], c :: d, hr, { h with
        active := ha ▸ h.active
        active_iff := ha ▸ h.active_iff
        cursor := rfl
        cur := .inr (h.subset (by simp [ha]))
        steady := fun t ht => ht }, rfl, fun _ hfair => hfair.begin hb h.steady (ha ▸ h.active.nodup)⟩
  · obtain ⟨u, c, d, rfl⟩ : ∃ u c d, b = u :: c :: d := by
      rcases b with - | ⟨u, - | ⟨c, d⟩⟩
      · exact absurd rfl hb
      · exact absurd rfl hb
      · exact ⟨u, c, d, rfl⟩
    have hsplit : pre ++ u :: c :: d = (pre ++ [u]) ++ c :: d := by simp
    have hc : c ∈ pre ++ u :: c :: d := by simp
    obtain ⟨o, ho, hr⟩ := h.active_ready hc
    have hfind : s.findNext reg fuel now = s.select reg now c := by
      simp [MultiburstScheduler.findNext, h.cursor, h.active.next_eq, deref]
    rw [hfind, select_eq reg ho hr]
    exact ⟨_, pre ++ [u], c :: d, rfl, { h with
      active := hsplit ▸ h.active
      active_iff := hsplit ▸ h.active_iff
      cursor := rfl
      cur := .inr (h.subset hc)
      steady := hsplit ▸ h.steady }, rfl, fun _ hfair => hfair.select h.active.nodup⟩

theorem Inv.find (h : s.Inv l pre b) (hk : s.kernelRunning = 0) (now : ℤ) (hf : l.length < fuel) :
    s.Advances pre b True (s.irqFindNextThread reg fuel now) l := by
  rw [irqFindNextThread, if_neg (by simp [hk])]
  by_cases hcur : s.cur = s.idle
  · rw [if_neg (by simp [hcur])]
    exact h.findNext reg now hf
  · obtain ⟨o, ho⟩ := h.holds.alive s.cur (h.cur.resolve_left hcur)
    rw [if_pos hcur, ControlList.load_eq ho, ok_bind]
    have hinv : Inv { s with regulation := reg.storeBurst s.cur now s.regulation } l pre b := { h with cursor := h.cursor }
    exact hinv.findNext reg now hf

/-! ## Runs -/

theorem Inv.step (h : s.Inv l pre b) (e : MultiburstEvent T) (hf : l.length + 1 < fuel) :
    ∃ l', l'.length ≤ l.length + 1 ∧ s.Advances pre b (s.Calm e) (s.step reg fuel e) l' := by
  have hsame : ∃ l', l'.length ≤ l.length + 1 ∧ s.Advances pre b (s.Calm e) (.ok s) l' :=
    ⟨l, by omega, s, pre, b, rfl, h, rfl, fun _ hfair => hfair⟩
  cases e with
  | add t flags priority =>
    rw [MultiburstScheduler.step]
    split_ifs with hadd
    · exact hsame
    · obtain ⟨ht, hti⟩ := not_or.mp hadd
      obtain ⟨r, hr, hcase⟩ := h.add reg (by simpa using ht) hti flags priority hf
      rw [hr]
      rcases hcase with rfl | ⟨s', rfl, hs'⟩
      · exact hsame
      · exact ⟨t :: l, by simp, hs'⟩
  | setFlags t flags =>
    rw [MultiburstScheduler.step]
    split_ifs with hnone
    · exact hsame
    · obtain ⟨o, ho⟩ := Option.ne_none_iff_exists'.mp (by simpa using hnone)
      exact ⟨l, by omega, h.setFlags reg ho flags (by omega)⟩
  | find now =>
    by_cases hk : s.kernelRunning = 0
    · exact ⟨l, by omega, (h.find reg hk now (by omega))⟩
    · rw [MultiburstScheduler.step, irqFindNextThread, if_pos hk]
      exact hsame
  | pause kernelRunning => exact ⟨l, by omega, _, pre, b, rfl, { h with cursor := h.cursor }, rfl, fun _ hfair => hfair⟩

theorem Inv.run (h : s.Inv l pre b) (es : List (MultiburstEvent T)) (hf : l.length + es.length < fuel) :
    ∃ l', s.Advances pre b (s.CalmRun reg fuel es) (s.run reg fuel es) l' := by
  induction es generalizing s l pre b with
  | nil => exact ⟨l, s, pre, b, rfl, h, rfl, fun _ hfair => hfair⟩
  | cons e es ih =>
    have hlt : l.length + 1 < fuel := by
      simp only [List.length_cons] at hf
      omega
    obtain ⟨l₁, hlen₁, s₁, pre₁, b₁, hs₁, hinv₁, hidle₁, hfair₁⟩ := h.step reg e hlt
    obtain ⟨l', s', pre', b', hs', hinv', hidle', hfair'⟩ := ih hinv₁ (by simp only [List.length_cons] at hf; omega)
    refine ⟨l', s', pre', b', ?_, hinv', hidle'.trans hidle₁, fun hcalm hfair => ?_⟩
    · rw [MultiburstScheduler.run, hs₁, ok_bind, hs']
    · exact hfair' (hcalm.2 s₁ hs₁) (hfair₁ hcalm.1 hfair)

theorem inv_initial {main idle : T} (hne : main ≠ idle) (priority : ControlSchedulerPriority) (d : D) :
    (initial main idle priority d).Inv [main] [main] [] where
  holds := holds_initial main idle priority d
  active := isList_new.pushBack List.not_mem_nil
  active_iff t := by
    rw [List.append_nil, List.mem_singleton]
    refine ⟨fun ht => ⟨ht, ?_⟩, And.left⟩
    rw [ht, ControlList.ready]
    simp [initial, ThreadFlags.isReady]
  status t o ho := by
    obtain ⟨-, rfl⟩ : t = main ∧ _ = o := by simpa [initial, ite_eq_iff] using ho
    simp [ThreadFlags.isReady]
  stored t o ho := by
    obtain ⟨rfl, -⟩ : t = main ∧ _ = o := by simpa [initial, ite_eq_iff] using ho
    exact List.mem_singleton.mpr rfl
  cursor := rfl
  idle_notMem := by simpa [initial] using hne.symm
  cur := .inr (List.mem_singleton.mpr rfl)
  steady t ht := ht.elim

/-- **Rounds**: for every run no loop goes on for ever, no pointer that is null is followed, and the thread that
is selected is ready. The active threads are the ready ones, once each. If all steps are calm, then every thread
that is active between two runs of the regulator is selected exactly once between them. -/
theorem run_bursts {main idle : T} (hne : main ≠ idle) (priority : ControlSchedulerPriority) (d : D)
    (es : List (MultiburstEvent T)) :
    ∃ n, ∀ fuel ≥ n, ∃ s l a, (initial main idle priority d).run reg fuel es = .ok s ∧ s.threads.Holds l ∧
      s.activeThreads.IsList a ∧ a.Nodup ∧ (∀ t, t ∈ a ↔ t ∈ l ∧ s.threads.ready t = true) ∧
      (∀ t ∈ l, ∃ o, s.threads.mem t = some o ∧ (o.lastReadyStatus = true ↔ t ∈ a)) ∧
      (s.curInRound = .emptyListItem ∨ ∃ c ∈ a, s.curInRound = .item c) ∧
      ((initial main idle priority d).CalmRun reg fuel es → Lawful OneBurst s.history) := by
  refine ⟨es.length + 2, fun fuel hfuel => ?_⟩
  have hlt : [main].length + es.length < fuel := by
    simp only [List.length_singleton]
    omega
  obtain ⟨l, s, pre, b, hs, hinv, -, hfair⟩ := (inv_initial hne priority d).run reg es hlt
  refine ⟨s, l, pre ++ b, hs, hinv.holds, hinv.active, hinv.active.nodup, hinv.active_iff, fun t ht => ?_, ?_,
    fun hcalm => (hfair hcalm ⟨fun t _ ht => ht.elim, by simp, trivial⟩).lawful⟩
  · obtain ⟨o, ho⟩ := hinv.holds.alive t ht
    refine ⟨o, ho, ?_⟩
    rw [hinv.active_iff, hinv.status t o ho, ControlList.ready_eq ho]
    exact (and_iff_right ht).symm
  · rw [hinv.cursor]
    cases b with
    | nil => exact .inl rfl
    | cons c b => exact .inr ⟨c, by simp, rfl⟩

theorem run_bursts_two : ∃ n, ∀ fuel ≥ n, ∃ s l a,
    (initial 0 9 ⟨1, 3⟩ ()).run (noRegulator ℕ) fuel [.add 1 0 ⟨1, 3⟩, .find 0, .find 0] = .ok s ∧
      s.threads.Holds l ∧ s.activeThreads.IsList a ∧ a.Nodup ∧ (∀ t, t ∈ a ↔ t ∈ l ∧ s.threads.ready t = true) ∧
      (∀ t ∈ l, ∃ o, s.threads.mem t = some o ∧ (o.lastReadyStatus = true ↔ t ∈ a)) ∧
      (s.curInRound = .emptyListItem ∨ ∃ c ∈ a, s.curInRound = .item c) ∧
      ((initial 0 9 ⟨1, 3⟩ ()).CalmRun (noRegulator ℕ) fuel [.add 1 0 ⟨1, 3⟩, .find 0, .find 0] →
        Lawful OneBurst s.history) :=
  run_bursts (noRegulator ℕ) (by decide) ⟨1, 3⟩ () _

/-- Thread 0 blocks during its burst: thread 1, which is next, is skipped. Thread 3 has to run immediately while
thread 0 does: the round ends, and threads 1 and 2 are skipped. -/
theorem run_bursts_skips :
    (∃ s, (initial 0 9 ⟨1, 3⟩ ()).run (noRegulator ℕ) 9 [.add 1 0 ⟨1, 3⟩, .add 2 0 ⟨1, 3⟩, .find 0, .setFlags 0 1,
      .find 0, .find 0] = .ok s ∧ ¬Lawful OneBurst s.history) ∧
    ∃ s, (initial 0 9 ⟨1, 3⟩ ()).run (noRegulator ℕ) 9 [.add 1 0 ⟨1, 3⟩, .add 2 0 ⟨1, 3⟩, .find 0, .add 3 0 ⟨1, 1⟩,
      .find 0] = .ok s ∧ ¬Lawful OneBurst s.history := by
  constructor
  · have hrun : ∃ s, (initial 0 9 ⟨1, 3⟩ ()).run (noRegulator ℕ) 9 [.add 1 0 ⟨1, 3⟩, .add 2 0 ⟨1, 3⟩, .find 0,
        .setFlags 0 1, .find 0, .find 0] = .ok s ∧
        s.history = [.selects 1, .regulator [1, 2], .selects 2, .stops 0, .selects 0, .regulator [0, 1, 2]] :=
      ⟨_, rfl, rfl⟩
    obtain ⟨s, hs, hhistory⟩ := hrun
    refine ⟨s, hs, fun hlaw => ?_⟩
    rw [hhistory] at hlaw
    exact absurd (hlaw.2.1 1 (by simp [Steady])) (by decide)
  · have hrun : ∃ s, (initial 0 9 ⟨1, 3⟩ ()).run (noRegulator ℕ) 9 [.add 1 0 ⟨1, 3⟩, .add 2 0 ⟨1, 3⟩, .find 0,
        .add 3 0 ⟨1, 1⟩, .find 0] = .ok s ∧
        s.history = [.selects 3, .regulator [3, 0, 1, 2], .selects 0, .regulator [0, 1, 2]] := ⟨_, rfl, rfl⟩
    obtain ⟨s, hs, hhistory⟩ := hrun
    refine ⟨s, hs, fun hlaw => ?_⟩
    rw [hhistory] at hlaw
    exact absurd (hlaw.2.1 1 (by simp [Steady])) (by decide)

end MultiburstScheduler

end Miosix
