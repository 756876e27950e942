import MiosixKernel.Sched.Run

/-!
# The priority scheduler: round robin

The head of a list is the thread that was selected last, so removing it makes the thread after it look
as if it had been selected last: its turn is skipped.

* `selections`, `Throughout`, `EachStep`: what a run selects, its states and its steps;
* `StepsOver`, `KeepsTurn`: the steps that skip the turn of a thread, and the others;
* `turn_insert`, `turn_filter`, `turn_rotate`: the order of two threads in a queue;
* **`selected_between`**: between two selections of a thread every other thread that stays ready is
  selected, if no step skips its turn.
-/

namespace Miosix

open Lib PriorityScheduler

/-! ## The order of two threads -/

section Order

variable {T : Type} {t u x : T} {w : List T}

/-- The turn of `u` comes before the turn of `t`. -/
def TurnBefore (u t : T) (w : List T) : Prop := [u, t].Sublist (searchOrder w)

/-- What comes before `u` does not matter. -/
theorem sublist_of_notMem {c l : List T} (hu : u ∉ c) (h : [u, t].Sublist (c ++ l)) :
    [u, t].Sublist l := by
  induction c with
  | nil => exact h
  | cons y c ih =>
    obtain ⟨huy, huc⟩ := not_or.mp (List.mem_cons.not.mp hu)
    cases h with
    | cons _ h => exact ih huc h
    | cons_cons _ h => exact absurd rfl huy

theorem turn_insert (h : TurnBefore u t w) (x : T) : TurnBefore u t (afterHead x w) := by
  unfold TurnBefore searchOrder at *
  cases w with
  | nil => cases h
  | cons hd m => exact h.cons x

/-- The head stays, or the thread after it that becomes the head is not `u`. -/
theorem turn_filter {keep : T → Bool} (h : TurnBefore u t w) (hu : keep u = true) (ht : keep t = true)
    (hnext : ∀ hd m, w = hd :: m → keep hd = false → m.find? keep ≠ some u) :
    TurnBefore u t (w.filter keep) := by
  unfold TurnBefore searchOrder at *
  cases w with
  | nil => cases h
  | cons hd m =>
    have hkept : [u, t].Sublist ((m ++ [hd]).filter keep) := by
      have := h.filter keep
      simpa [hu, ht] using this
    rw [List.filter_append] at hkept
    cases hk : keep hd with
    | true => simpa [hk] using hkept
    | false =>
      have hne := hnext hd m rfl hk
      rw [← List.head?_filter] at hne
      rw [List.filter_cons_of_neg (by simp [hk])]
      simp only [List.filter_cons, hk, List.filter_nil, Bool.false_eq_true, if_false,
        List.append_nil] at hkept
      cases hm : m.filter keep with
      | nil => rw [hm] at hkept; cases hkept
      | cons y r =>
        rw [hm] at hkept hne
        have hyu : u ∉ [y] := by simpa [eq_comm] using hne
        -- `u` is not the new head, so both threads come after it
        exact (sublist_of_notMem hyu hkept).trans (List.sublist_append_left _ _)

/-- A ready thread `u` that is not selected comes after the one that is. -/
theorem turn_after_selected {ready : T → Bool} (h : TurnBefore u t w) (hu : ready u = true)
    (hx : (searchOrder w).find? ready = some x) (hxu : x ≠ u) :
    ∃ a b, searchOrder w = a ++ x :: b ∧ [u, t].Sublist b := by
  obtain ⟨-, a, b, hs, ha⟩ := List.find?_eq_some_iff_append.mp hx
  have hua : u ∉ a ++ [x] := by
    intro hmem
    rcases List.mem_append.mp hmem with hmem | hmem
    · simpa [hu] using ha u hmem
    · exact hxu (List.mem_singleton.mp hmem).symm
  refine ⟨a, b, hs, sublist_of_notMem hua ?_⟩
  have h' := h
  rw [TurnBefore, hs] at h'
  simpa using h'

/-- While the turn of `u` comes first and `u` is ready, `t` is not selected. -/
theorem find?_ne_of_turnBefore {ready : T → Bool} (hw : w.Nodup) (h : TurnBefore u t w)
    (hut : u ≠ t) (hu : ready u = true) : (searchOrder w).find? ready ≠ some t := by
  intro ht
  obtain ⟨a, b, hs, hb⟩ := turn_after_selected h hu ht (Ne.symm hut)
  have hnd : (searchOrder w).Nodup := by
    cases w with
    | nil => exact List.nodup_nil
    | cons hd m => exact (List.perm_append_singleton hd m).nodup_iff.mpr hw
  rw [hs, List.nodup_append, List.nodup_cons] at hnd
  exact hnd.2.1.1 (hb.subset (by simp))

variable [DecidableEq T]

theorem searchOrder_rotateTo {a b : List T} (hw : w.Nodup) (hs : searchOrder w = a ++ x :: b) :
    searchOrder (rotateTo x w) = b ++ a ++ [x] := by
  cases w with
  | nil => simp [searchOrder] at hs
  | cons hd m =>
    have hs' : m ++ [hd] = a ++ x :: b := hs
    rcases List.eq_nil_or_concat b with rfl | ⟨b', z, rfl⟩
    · obtain ⟨rfl, hx⟩ := List.append_inj' hs' rfl
      obtain rfl : hd = x := by simpa using hx
      have : rotateTo hd ([] ++ hd :: m) = hd :: (m ++ []) := rotateTo_eq List.not_mem_nil
      rw [List.nil_append, List.append_nil] at this
      rw [this]
      simp [searchOrder]
    · have hsplit : m ++ [hd] = (a ++ x :: b') ++ [z] := by simpa using hs'
      obtain ⟨rfl, hz⟩ := List.append_inj' hsplit rfl
      obtain rfl : hd = z := by simpa using hz
      have hxa : x ∉ hd :: a := by
        rw [← List.cons_append, List.nodup_append] at hw
        exact fun hmem => hw.2.2 x hmem x List.mem_cons_self rfl
      rw [← List.cons_append, rotateTo_eq hxa]
      simp [searchOrder]

/-- The thread that is selected is not `u`, so it is before both threads and becomes the last one. -/
theorem turn_rotate {ready : T → Bool} (hw : w.Nodup) (h : TurnBefore u t w) (hu : ready u = true)
    (hx : (searchOrder w).find? ready = some x) (hxu : x ≠ u) : TurnBefore u t (rotateTo x w) := by
  obtain ⟨a, b, hs, hb⟩ := turn_after_selected h hu hx hxu
  unfold TurnBefore
  rw [searchOrder_rotateTo hw hs, List.append_assoc]
  exact hb.trans (List.sublist_append_left _ _)

end Order

namespace SchedSystem

variable {T : Type} [DecidableEq T]

/-! ## Runs -/

section Trace

variable (fuel priorityMax : ℕ)

/-- What the step from `s` to `s'` selects. -/
def selection (s s' : SchedSystem T) : SchedEvent T → List T
  | .find => if s.sched.kernelRunning = 0 then [s'.sched.cur] else []
  | _ => []

/-- The threads that a run selects. -/
def selections (s : SchedSystem T) : List (SchedEvent T) → List T
  | [] => []
  | e :: es =>
    match s.step fuel priorityMax e with
    | .ok s' => s.selection s' e ++ s'.selections es
    | .error _ => []

/-- Every state of a run. -/
def Throughout (P : SchedSystem T → Prop) (s : SchedSystem T) : List (SchedEvent T) → Prop
  | [] => P s
  | e :: es =>
    P s ∧ match s.step fuel priorityMax e with
      | .ok s' => s'.Throughout P es
      | .error _ => True

/-- Every step of a run. -/
def EachStep (P : SchedSystem T → SchedEvent T → Prop) (s : SchedSystem T) :
    List (SchedEvent T) → Prop
  | [] => True
  | e :: es =>
    P s e ∧ match s.step fuel priorityMax e with
      | .ok s' => s'.EachStep P es
      | .error _ => True

end Trace

/-- The head of the list `p` goes, and `u` is the first thread after it that stays. -/
def StepsOver (s : SchedSystem T) (p : ℕ) (u : T) (keep : T → Bool) : Prop :=
  ∃ h m, s.sched.Holds p (h :: m) ∧ keep h = false ∧ m.find? keep = some u

/-- The step does not skip the turn of `u`, and does not move `t`. -/
def KeepsTurn (p : ℕ) (t u : T) (s : SchedSystem T) : SchedEvent T → Prop
  | .setPriority thread _ => thread ≠ t ∧ ¬ s.StepsOver p u fun x => x != thread
  | .removeDead => ¬ s.StepsOver p u fun x => !s.sched.deleted x
  | _ => True

section Step

variable {fuel priorityMax k p : ℕ} {idle t u : T} {s s' : SchedSystem T} {q : ℕ → List T}

/-- What stays during the whole interval: both threads are in the list `p`, and `u` is ready. -/
def Stays (p : ℕ) (t u : T) (s : SchedSystem T) : Prop :=
  s.members t = some p ∧ s.members u = some p ∧ s.sched.ready u = true

/-- A selection with the kernel running. -/
theorem Ok.find_eq (h : Ok priorityMax k idle s q) (hf : k < fuel) (hk : s.sched.kernelRunning = 0)
    (hstep : s.step fuel priorityMax .find = .ok s') :
    s'.sched.cur = ((selected s.sched.ready q priorityMax).map Prod.snd).getD s.sched.idle := by
  obtain ⟨sched, hrun, -, -, -, -, hcur⟩ := irqFindNextThread_spec h.rep
    (fun i hi => (h.length_le hi).trans_lt hf) hk
  rw [step, hrun] at hstep
  cases hstep
  exact hcur

/-- The step that removes the dead threads forgets them. -/
theorem members_removeDead (h : Ok priorityMax k idle s q) (hf : k < fuel)
    (hstep : s.step fuel priorityMax .removeDead = .ok s') {x : T} {i : ℕ}
    (hx : s'.members x = some i) : s.sched.deleted x = false := by
  obtain ⟨sched, hrun, -⟩ := pkRemoveDeadThreads_spec h.rep
    fun i hi => (h.length_le hi).trans_lt hf
  rw [step, hrun] at hstep
  cases hstep
  by_contra hd
  simp only [Bool.not_eq_false] at hd
  simp [hd] at hx

/-- The step that changes a priority remembers the new one. -/
theorem members_setPriority {x : T} {new : ℕ}
    (hstep : s.step fuel priorityMax (.setPriority x new) = .ok s') : s'.members x = some new := by
  rw [step] at hstep
  cases hrun : s.sched.pkSetPriority fuel x new with
  | error e => rw [hrun] at hstep; cases hstep
  | ok sched =>
    rw [hrun] at hstep
    cases hstep
    exact Function.update_self _ _ _

/-- The thread `u` itself is moved within its list, to the first place. -/
theorem turn_move_self (hut : u ≠ t) (ht : t ∈ q p) : TurnBefore u t (movedQueue q u p p p) := by
  have ht' : t ∈ (q p).erase u := (List.mem_erase_of_ne (Ne.symm hut)).mpr ht
  have hmoved : movedQueue q u p p p = afterHead u ((q p).erase u) := by simp [movedQueue]
  rw [hmoved]
  cases he : (q p).erase u with
  | nil => rw [he] at ht'; cases ht'
  | cons hd m =>
    have hmem : t ∈ m ++ [hd] := mem_searchOrder.mpr (he ▸ ht')
    exact (List.singleton_sublist.mpr hmem).cons_cons u

/-- Another thread `x` is moved out of the list, into it, or within it. -/
theorem turn_move (hw : (q p).Nodup) (h : TurnBefore u t (q p)) {x : T} (old new : ℕ)
    (hxt : x ≠ t) (hxu : x ≠ u)
    (hover : ∀ hd m, q p = hd :: m → (hd != x) = false → m.find? (· != x) ≠ some u) :
    TurnBefore u t (movedQueue q x old new p) := by
  have h₁ : TurnBefore u t (Function.update q old ((q old).erase x) p) := by
    by_cases hpo : p = old
    · subst hpo
      rw [Function.update_self, hw.erase_eq_filter]
      refine turn_filter h ?_ ?_ hover
      · simpa using Ne.symm hxu
      · simpa using Ne.symm hxt
    · rw [Function.update_of_ne hpo]
      exact h
  unfold movedQueue
  by_cases hpn : p = new
  · subst hpn
    rw [Function.update_self]
    exact turn_insert h₁ x
  · rw [Function.update_of_ne hpn]
    exact h₁

/-- **One step** that keeps the turn of `u` selects `u` or leaves it before `t`. -/
theorem turn_step (h : Ok priorityMax k idle s q) (hf : k < fuel) {e : SchedEvent T}
    (hstep : s.step fuel priorityMax e = .ok s') (hut : u ≠ t)
    (hs : Stays p t u s) (hs' : Stays p t u s') (hturn : KeepsTurn p t u s e)
    (hbefore : TurnBefore u t (q p)) :
    u ∈ s.selection s' e ∨ TurnBefore u t (s.stepQueue priorityMax q e p) := by
  obtain ⟨ht, hu, hready⟩ := hs
  have hholds := h.rep.holds p (h.lt ht)
  have hw := hholds.nodup
  cases e with
  | add thread priority flags =>
    right
    dsimp only [stepQueue]
    by_cases hpp : p = priority
    · subst hpp
      rw [Function.update_self]
      exact turn_insert hbefore thread
    · rw [Function.update_of_ne hpp]
      exact hbefore
  | setPriority thread newPriority =>
    obtain ⟨hxt, hover⟩ := hturn
    right
    dsimp only [stepQueue]
    by_cases hxu : thread = u
    · subst hxu
      have hnew := members_setPriority hstep
      rw [hs'.2.1] at hnew
      cases hnew
      rw [hu]
      exact turn_move_self hut (h.mem_queue ht)
    · refine turn_move hw hbefore _ _ hxt hxu fun hd m hq hk hfind => ?_
      exact hover ⟨hd, m, hq ▸ hholds, hk, hfind⟩
  | removeDead =>
    right
    refine turn_filter hbefore ?_ ?_ fun hd m hq hk hfind => ?_
    · simp [members_removeDead h hf hstep hs'.2.1]
    · simp [members_removeDead h hf hstep hs'.1]
    · exact hturn ⟨hd, m, hq ▸ hholds, hk, hfind⟩
  | setFlags thread flags => exact .inr hbefore
  | setKernelRunning n => exact .inr hbefore
  | find =>
    by_cases hk : s.sched.kernelRunning = 0
    · have hcur := h.find_eq hf hk hstep
      rw [selection, if_pos hk, stepQueue, if_neg (not_not.mpr hk)]
      cases hsel : selected s.sched.ready q priorityMax with
      | none => exact .inr hbefore
      | some ix =>
        obtain ⟨i, x⟩ := ix
        obtain ⟨-, -, -, hfind, -⟩ := mem_of_selected hsel
        rw [hsel] at hcur
        by_cases hxu : x = u
        · left
          rw [hcur, hxu]
          exact List.mem_singleton_self u
        · right
          unfold selectedQueue
          dsimp only
          by_cases hpi : p = i
          · subst hpi
            rw [Function.update_self]
            exact turn_rotate hw hbefore hready hfind hxu
          · rw [Function.update_of_ne hpi]
            exact hbefore
    · rw [stepQueue, if_pos hk]
      exact .inr hbefore

/-- **A run** whose steps keep the turn of `u` selects `u` or leaves it before `t`. -/
theorem turn_run {es : List (SchedEvent T)} (h : Ok priorityMax k idle s q)
    (hv : s.ValidRun fuel priorityMax es) (hf : k + es.length < fuel)
    (hrun : s.run fuel priorityMax es = .ok s') (hut : u ≠ t)
    (hstay : s.Throughout fuel priorityMax (Stays p t u) es)
    (hturn : s.EachStep fuel priorityMax (KeepsTurn p t u) es) (hbefore : TurnBefore u t (q p)) :
    u ∈ s.selections fuel priorityMax es ∨
      ∃ q', Ok priorityMax (k + es.length) idle s' q' ∧ Stays p t u s' ∧ TurnBefore u t (q' p) := by
  induction es generalizing k s q with
  | nil =>
    cases hrun
    exact .inr ⟨q, h, hstay, hbefore⟩
  | cons e es ih =>
    simp only [List.length_cons] at hf
    have hk : k < fuel := by omega
    obtain ⟨s₁, hstep, h₁⟩ := step_refines h hv.1 hk
    have hv₁ := hv.tail hstep
    simp only [run, hstep, ok_bind] at hrun
    simp only [Throughout, hstep] at hstay
    simp only [EachStep, hstep] at hturn
    have hstay₁ : Stays p t u s₁ := by
      cases es with
      | nil => exact hstay.2
      | cons e' es => exact hstay.2.1
    simp only [selections, hstep, List.mem_append]
    rcases turn_step h hk hstep hut hstay.1 hstay₁ hturn.1 hbefore with hsel | hbefore₁
    · exact .inl (.inl hsel)
    · rcases ih h₁ hv₁ (by omega) hrun hstay.2 hturn.2 hbefore₁ with hsel | ⟨q', h', hs', hb'⟩
      · exact .inl (.inr hsel)
      · refine .inr ⟨q', ?_, hs', hb'⟩
        rw [List.length_cons, Nat.add_comm es.length 1, ← Nat.add_assoc]
        exact h'

/-- The thread that was just selected has its turn last. -/
theorem turnBefore_of_selected (h : Ok priorityMax k idle s q) (hf : k < fuel)
    (hk : s.sched.kernelRunning = 0) (hstep : s.step fuel priorityMax .find = .ok s')
    (hcur : s'.sched.cur = t) (ht : s.members t = some p) (hu : s.members u = some p) (hut : u ≠ t) :
    TurnBefore u t (s.stepQueue priorityMax q .find p) := by
  have hc := h.find_eq hf hk hstep
  rw [stepQueue, if_neg (not_not.mpr hk)]
  cases hsel : selected s.sched.ready q priorityMax with
  | none =>
    rw [hsel, hcur] at hc
    have hidle := h.rep.idle
    rw [h.mem_eq_none] at hidle
    rw [hc] at ht
    simp [hidle] at ht
  | some ix =>
    obtain ⟨i, x⟩ := ix
    obtain ⟨hi, hmem, -, hfind, -⟩ := mem_of_selected hsel
    rw [hsel, hcur] at hc
    obtain rfl : t = x := hc
    obtain rfl : i = p := by
      have := (h.rep.mem_iff i hi t).mp hmem
      rw [h.members, ht] at this
      exact (Option.some.inj this).symm
    obtain ⟨-, a, b, hs, -⟩ := List.find?_eq_some_iff_append.mp hfind
    have hmemu : u ∈ b ++ a := by
      have humem := mem_searchOrder.mpr (h.mem_queue hu)
      rw [hs] at humem
      simp only [List.mem_append, List.mem_cons] at humem ⊢
      tauto
    unfold selectedQueue TurnBefore
    dsimp only
    rw [Function.update_self, searchOrder_rotateTo (h.rep.holds i hi).nodup hs]
    exact (List.singleton_sublist.mpr hmemu).append (List.Sublist.refl [t])

end Step

theorem run_append {fuel priorityMax : ℕ} {es es' : List (SchedEvent T)} {s s' : SchedSystem T}
    (hrun : s.run fuel priorityMax es = .ok s') (hv : s.ValidRun fuel priorityMax (es ++ es')) :
    s.ValidRun fuel priorityMax es ∧ s'.ValidRun fuel priorityMax es' := by
  induction es generalizing s with
  | nil =>
    cases hrun
    exact ⟨trivial, hv⟩
  | cons e es ih =>
    cases hstep : s.step fuel priorityMax e with
    | error f =>
      rw [run, hstep] at hrun
      cases hrun
    | ok s₁ =>
      rw [run, hstep, ok_bind] at hrun
      obtain ⟨h1, h2⟩ := ih hrun (hv.tail hstep)
      refine ⟨⟨hv.1, ?_⟩, h2⟩
      rw [hstep]
      exact h1

/-- **Round robin.** Between two selections of `t`, during which `t` and `u` stay in the list `p` and `u`
stays ready, `u` is selected, provided that no step in between removes the head of the list while `u` is
the first thread after it that stays, and none moves `t`. -/
theorem selected_between (fuel priorityMax : ℕ) (idle : T) {p : ℕ} {t u : T}
    (es₀ es : List (SchedEvent T)) {s₀ s₁ s₂ s₃ : SchedSystem T}
    (hv : (initial idle).ValidRun fuel priorityMax (es₀ ++ .find :: es ++ [.find]))
    (hf : es₀.length + es.length + 2 < fuel)
    (hrun₀ : (initial idle).run fuel priorityMax es₀ = .ok s₀) (hk₀ : s₀.sched.kernelRunning = 0)
    (hsel₁ : s₀.step fuel priorityMax .find = .ok s₁) (hcur₁ : s₁.sched.cur = t)
    (hrun : s₁.run fuel priorityMax es = .ok s₂) (hk₂ : s₂.sched.kernelRunning = 0)
    (hsel₃ : s₂.step fuel priorityMax .find = .ok s₃) (hcur₃ : s₃.sched.cur = t) (hut : u ≠ t)
    (hstay : s₁.Throughout fuel priorityMax (Stays p t u) es)
    (hturn : s₁.EachStep fuel priorityMax (KeepsTurn p t u) es) :
    u ∈ s₁.selections fuel priorityMax es := by
  obtain ⟨hv₀, hv⟩ := run_append hrun₀ (by simpa using hv)
  obtain ⟨s₀', q₀, hrun₀', h₀⟩ := run_ok (ok_initial priorityMax idle) hv₀ (by omega)
  rw [hrun₀] at hrun₀'
  cases hrun₀'
  rw [Nat.zero_add] at h₀
  obtain ⟨s₁', hstep₁, h₁⟩ := step_refines h₀ hv.1 (by omega : es₀.length < fuel)
  rw [hsel₁] at hstep₁
  cases hstep₁
  -- a selection changes neither priorities nor the flags
  have hmem₁ : s₁.members = s₀.members := by
    rw [step] at hsel₁
    cases hfind : irqFindNextThread fuel priorityMax s₀.sched with
    | error f => rw [hfind] at hsel₁; cases hsel₁
    | ok sched => rw [hfind] at hsel₁; cases hsel₁; rfl
  have hst₁ : Stays p t u s₁ := by
    cases es with
    | nil => exact hstay
    | cons e es => exact hstay.1
  have hbefore := turnBefore_of_selected h₀ (by omega : es₀.length < fuel) hk₀ hsel₁ hcur₁
    (hmem₁ ▸ hst₁.1) (hmem₁ ▸ hst₁.2.1) hut
  obtain ⟨hv₁, -⟩ := run_append hrun (hv.tail hsel₁)
  rcases turn_run h₁ hv₁ (by omega) hrun hut hstay hturn hbefore with hsel | ⟨q₂, h₂, hst₂, hb₂⟩
  · exact hsel
  · -- `u` is ready and comes first, so `t` is not selected
    exfalso
    have hc := h₂.find_eq (by omega) hk₂ hsel₃
    obtain ⟨ht₂, hu₂, hready₂⟩ := hst₂
    cases hsel : selected s₂.sched.ready q₂ priorityMax with
    | none =>
      have := not_ready_of_selected_eq_none hsel p (h₂.lt hu₂) u (h₂.mem_queue hu₂)
      rw [hready₂] at this
      cases this
    | some ix =>
      obtain ⟨i, x⟩ := ix
      obtain ⟨hi, hmem, -, hfind, -⟩ := mem_of_selected hsel
      rw [hsel, hcur₃] at hc
      obtain rfl : t = x := hc
      obtain rfl : i = p := by
        have := (h₂.rep.mem_iff i hi t).mp hmem
        rw [h₂.members, ht₂] at this
        exact (Option.some.inj this).symm
      exact find?_ne_of_turnBefore (h₂.rep.holds i hi).nodup hb₂ hut hready₂ hfind

/-- The state after a run of the threads 1, 2, 3 with 4 priorities. -/
def threeThreads (es : List (SchedEvent ℕ)) : SchedSystem ℕ :=
  match (initial 0).run 12 4 ([.add 1 1 0, .add 2 1 0, .add 3 1 0] ++ es) with
  | .ok s => s
  | .error _ => initial 0

/-- The thread 3 is selected, then 2, then 1, then 3 again. -/
theorem selected_between_threeThreads :
    1 ∈ (threeThreads [.find]).selections 12 4 [.find, .add 4 0 0, .find] := by
  have hrun₀ : (initial 0).run 12 4 [.add 1 1 0, .add 2 1 0, .add 3 1 0] = .ok (threeThreads []) :=
    rfl
  have hsel₁ : (threeThreads []).step 12 4 .find = .ok (threeThreads [.find]) := rfl
  have hrun : (threeThreads [.find]).run 12 4 [.find, .add 4 0 0, .find] =
      .ok (threeThreads [.find, .find, .add 4 0 0, .find]) := rfl
  have hsel₃ : (threeThreads [.find, .find, .add 4 0 0, .find]).step 12 4 .find =
      .ok (threeThreads [.find, .find, .add 4 0 0, .find, .find]) := rfl
  have hstay : (threeThreads [.find]).Throughout 12 4 (Stays 1 3 1) [.find, .add 4 0 0, .find] :=
    ⟨⟨rfl, rfl, rfl⟩, ⟨rfl, rfl, rfl⟩, ⟨rfl, rfl, rfl⟩, ⟨rfl, rfl, rfl⟩⟩
  exact selected_between 12 4 0 _ _ (by decide) (by decide) hrun₀ rfl hsel₁ rfl hrun rfl hsel₃ rfl
    (by decide) hstay ⟨trivial, trivial, trivial, trivial⟩

/-- The thread 3 is selected, then 2, whose priority is then lowered: 3 is selected again, and 1, which was
ready with the same priority all the time, is not. -/
theorem not_selected_after_head_moved :
    (initial 0).ValidRun 12 4
        ([.add 1 1 0, .add 2 1 0, .add 3 1 0] ++ [.find, .find, .setPriority 2 0, .find]) ∧
      (threeThreads [.find]).sched.cur = 3 ∧
      (threeThreads [.find, .find, .setPriority 2 0, .find]).sched.cur = 3 ∧
      (threeThreads [.find]).Throughout 12 4 (Stays 1 3 1) [.find, .setPriority 2 0] ∧
      1 ∉ (threeThreads [.find]).selections 12 4 [.find, .setPriority 2 0] := by
  refine ⟨by decide, by decide, by decide, ?_, by decide⟩
  exact ⟨⟨rfl, rfl, rfl⟩, ⟨rfl, rfl, rfl⟩, ⟨rfl, rfl, rfl⟩⟩

end SchedSystem

end Miosix
