import MiosixKernel.Sched.JoinInvariant

/-!
# Joining, detaching and ending threads: runs

* `join_ok`, `resumeJoin_ok`, `detach_ok`, `threadLauncher_ok`, `purge_ok`: each section returns and
  keeps the invariant;
* **`run_join`**: in every interleaving a thread is joined at most once, with the value it returned, and
  freed once.
-/

namespace Miosix

open Lib PriorityScheduler

namespace JoinSystem

open Happening

variable {T V : Type} {s : JoinSystem T V} {fuel priorityMax : ℕ}

/-- The lists of the scheduler and the invariant. -/
structure Ok (priorityMax : ℕ) (s : JoinSystem T V) : Prop where
  rep : ∃ q, Represents priorityMax s.sched q
  inv : s.Inv

theorem flagsOf_eq_none {t : T} : s.sched.flagsOf t = none ↔ s.sched.mem t = none :=
  Option.map_eq_none_iff

/-- There are not more threads in a list than were created. -/
theorem Inv.length_le (h : s.Inv) {q : ℕ → List T} (hrep : Represents priorityMax s.sched q) {i : ℕ}
    (hi : i < priorityMax) : (q i).length ≤ s.created.length := by
  refine List.Subperm.length_le (List.subperm_of_subset (hrep.holds i hi).nodup fun t ht => ?_)
  rw [hrep.mem_iff i hi] at ht
  have hne : s.sched.flagsOf t ≠ none := by
    rw [Ne, flagsOf_eq_none, ← priorityOf_eq_none, ht]
    simp
  obtain ⟨f, hf⟩ := Option.ne_none_iff_exists'.mp hne
  exact (h.thread t).live f hf

theorem deleted_iff_dead {t : T} : s.sched.deleted t = true ↔ s.Dead t := by
  rw [deleted_eq_flagsOf]
  cases hf : s.sched.flagsOf t <;> simp [Dead, hf, ThreadFlags.and_eq_deleted_detached]

/-- A thread that is ready is not asleep. -/
theorem not_asleep_of_ready {t : T} (h : s.sched.ready t = true) : ¬s.Asleep t := by
  rintro ⟨f, hf, hw⟩
  rw [ready_eq_flagsOf, hf] at h
  have := (ThreadFlags.of_ready f h).2
  rw [this] at hw
  cases hw

/-! ## The sections -/

variable [DecidableEq T] {cur this : T} {wanted : Bool}

theorem Ok.modifyFlags_rep (h : s.Ok priorityMax) (t : T) (f : ℕ → ℕ) :
    ∃ q, Represents priorityMax (s.modifyFlags t f).sched q := by
  obtain ⟨q, hrep⟩ := h.rep
  exact ⟨q, modifyFlags_represents hrep t f⟩

/-- The dead threads are removed: all of them, and nothing else changes. -/
theorem Ok.purge (h : s.Ok priorityMax) (hf : s.created.length < fuel) (e : Bool) :
    ∃ s', ({ s with existDeleted := e } : JoinSystem T V).purge fuel priorityMax = .ok s' ∧
      s'.Ok priorityMax ∧ (∀ t, ¬s'.Dead t) ∧ s'.created = s.created ∧ s'.point = s.point ∧
      (∀ t, s'.Asleep t → s.Asleep t) ∧ ∀ t, s.Dead t → .freed t ∈ s'.history := by
  obtain ⟨q, hrep⟩ := h.rep
  obtain ⟨sched, hrun, hrep', hgone, hkept, -⟩ := pkRemoveDeadThreads_spec hrep
    fun i hi => (h.inv.length_le hrep hi).trans_lt hf
  have hgone' : ∀ t, s.Dead t → sched.flagsOf t = none := fun t ht => by
    rw [flagsOf, hgone t (deleted_iff_dead.mpr ht)]
    rfl
  have hkept' : ∀ t, ¬s.Dead t → sched.flagsOf t = s.sched.flagsOf t := fun t ht => by
    rw [← deleted_iff_dead, Bool.not_eq_true] at ht
    exact (hkept t ht).2
  set l := s.created.filter fun t => (s.sched.mem t).isSome && (sched.mem t).isNone with hl
  have hmem : ∀ t, t ∈ l ↔ s.Dead t := by
    intro t
    rw [hl, List.mem_filter, Bool.and_eq_true, Option.isNone_iff_eq_none, Option.isSome_iff_ne_none]
    constructor
    · rintro ⟨-, hsome, hnone⟩
      by_contra hcon
      have := hkept' t hcon
      rw [flagsOf, hnone] at this
      exact hsome (flagsOf_eq_none.mp this.symm)
    · intro ht
      obtain ⟨f, hf, -⟩ := id ht
      refine ⟨(h.inv.thread t).live f hf, fun hcon => ?_, hgone t (deleted_iff_dead.mpr ht)⟩
      rw [flagsOf_eq_none.mpr hcon] at hf
      cases hf
  obtain ⟨hinv, hdead⟩ := h.inv.freed e hgone' hkept' (h.inv.nodup.filter _) hmem
  refine ⟨s.markFreed sched e l, ?_, ⟨⟨_, hrep'⟩, hinv⟩, hdead, rfl, rfl, fun t ht => ?_, fun t ht => ?_⟩
  · rw [JoinSystem.purge, hrun, ok_bind]
    rfl
  · refine ht.of_flagsOf_eq (hkept' t fun hcon => ?_).symm
    obtain ⟨f, hf, -⟩ := ht
    rw [show (s.markFreed sched e l).sched.flagsOf t = none from hgone' t hcon] at hf
    cases hf
  · exact List.mem_append_left _ (List.mem_map.mpr ⟨t, (hmem t).mpr ht, rfl⟩)

/-- Completing a join. -/
theorem Ok.completeJoin {g : ℕ} (h : s.Ok priorityMax) (hthis : s.sched.flagsOf this = some g)
    (hend : ThreadFlags.isDeletedJoin g = true) (hatt : ThreadFlags.isDetached g = false)
    (hcur : s.point cur = .running ∨ ∃ u w, s.point cur = .waiting u w) (hawake : ¬s.Asleep cur) :
    ∃ s', s.completeJoin cur this wanted = .ok s' ∧ s'.Ok priorityMax ∧ s'.created = s.created := by
  obtain ⟨value, hvalue, -⟩ := (h.inv.thread this).result g hthis hend hatt
  cases wanted with
  | false =>
    refine ⟨_, rfl, ⟨h.modifyFlags_rep this (· ||| ThreadFlags.detached), ?_⟩, rfl⟩
    exact h.inv.joined hthis hend hatt hcur hawake (by simp)
  | true =>
    have hread := h.inv.readUnion .join this .result true (.inl (by rw [hvalue]; rfl))
    have hrun : s.completeJoin cur this true = .ok ((((s.readUnion .join this .result true).release
        this (.joined cur this (some value))).goto cur (.joined this (some value)))) := by
      simp only [JoinSystem.completeJoin, readResult, joinData_modifyFlags, hvalue]
      rfl
    refine ⟨_, hrun, ⟨h.modifyFlags_rep this (· ||| ThreadFlags.detached), ?_⟩, rfl⟩
    refine hread.joined hthis hend hatt hcur hawake fun v hv => ?_
    cases hv
    exact hvalue

/-- Waiting for a thread whose union names the joiner. -/
theorem Ok.irqJoinWait {g : ℕ} (h : s.Ok priorityMax) (hthis : s.sched.flagsOf this = some g)
    (hdel : ThreadFlags.isDeletedJoin g = false) (hatt : ThreadFlags.isDetached g = false)
    (hcur : s.point cur = .running ∨ ∃ u w, s.point cur = .waiting u w) (hawake : ¬s.Asleep cur)
    (hreg : s.joinData this = .waitingForJoin (some cur)) (wanted : Bool) :
    (s.irqJoinWait cur this wanted).Ok priorityMax := by
  refine ⟨h.modifyFlags_rep cur (· ||| ThreadFlags.waitJoin), ?_⟩
  have hgoto := h.inv.goto (p := .waiting this wanted) hcur hawake
    (.inr ⟨this, wanted, rfl, (h.inv.thread this).live g hthis, hreg⟩)
  refine hgoto.modifyFlags (t := cur) (φ := (· ||| ThreadFlags.waitJoin)) (by simp) (by simp) fun _ => ?_
  exact ⟨this, wanted, Function.update_self _ _ _, g, hthis, hdel, hatt⟩

/-- What a joiner finds. -/
theorem Ok.pkExists_eq (h : s.Ok priorityMax) (hf : s.created.length < fuel) (t : T) :
    s.sched.pkExists fuel t priorityMax = .ok ((s.sched.mem t).isSome && !s.sched.deleted t) := by
  obtain ⟨q, hrep⟩ := h.rep
  exact pkExists_spec hrep (fun i hi => (h.inv.length_le hrep hi).trans_lt hf) t

theorem Ok.join (h : s.Ok priorityMax) (hf : s.created.length < fuel) (hcur : s.point cur = .running)
    (hawake : ¬s.Asleep cur) :
    ∃ s', s.join fuel priorityMax cur this wanted = .ok s' ∧ s'.Ok priorityMax ∧
      s'.created = s.created := by
  unfold JoinSystem.join
  by_cases hself : this = cur
  · exact ⟨s, by rw [if_pos hself]; rfl, h, rfl⟩
  · rw [if_neg hself, h.pkExists_eq hf, ok_bind]
    cases hm : s.sched.mem this with
    | none => exact ⟨s, rfl, h, rfl⟩
    | some o =>
      have hthis : s.sched.flagsOf this = some o.flags := by rw [flagsOf, hm]; rfl
      cases hdead : s.sched.deleted this with
      | true => exact ⟨s, rfl, h, rfl⟩
      | false =>
        rw [load_eq hm]
        simp only [Option.isSome_some, Bool.not_false, Bool.and_self, Bool.not_true, ok_bind,
          Bool.false_eq_true, if_false]
        cases hatt : ThreadFlags.isDetached o.flags with
        | true => exact ⟨s, rfl, h, rfl⟩
        | false =>
          cases hdel : ThreadFlags.isDeletedJoin o.flags with
          | true => exact h.completeJoin hthis hdel hatt (.inl hcur) hawake
          | false =>
            obtain ⟨w, hw⟩ := (h.inv.thread this).active o.flags hthis hdel
            have hread : (s.readUnion .join this .waitingForJoin false).Ok priorityMax :=
              ⟨h.rep, h.inv.readUnion .join this .waitingForJoin false (.inl (by rw [hw]; rfl))⟩
            cases w with
            | some j =>
              refine ⟨_, ?_, hread, rfl⟩
              simp [JoinSystem.readUnion, hw, JoinData.isNull]
            | none =>
              have hset : ((s.readUnion .join this .waitingForJoin false).setJoinData this
                  (.waitingForJoin (some cur))).Ok priorityMax :=
                ⟨hread.rep, hread.inv.setJoinData hw cur⟩
              refine ⟨_, ?_, hset.irqJoinWait hthis hdel hatt (.inl hcur) hawake
                (Function.update_self _ _ _) wanted, rfl⟩
              simp [JoinSystem.readUnion, hw, JoinData.isNull]

theorem Ok.resumeJoin (h : s.Ok priorityMax) (hf : s.created.length < fuel)
    (hcur : s.point cur = .waiting this wanted) (hawake : ¬s.Asleep cur) :
    ∃ s', s.resumeJoin fuel priorityMax cur this wanted = .ok s' ∧ s'.Ok priorityMax ∧
      s'.created = s.created := by
  have hback : (s.goto cur .running).Ok priorityMax :=
    ⟨h.rep, h.inv.goto (.inr ⟨this, wanted, hcur⟩) hawake (.inl rfl)⟩
  unfold JoinSystem.resumeJoin
  rw [h.pkExists_eq hf, ok_bind]
  cases hm : s.sched.mem this with
  | none => exact ⟨_, rfl, hback, rfl⟩
  | some o =>
    have hthis : s.sched.flagsOf this = some o.flags := by rw [flagsOf, hm]; rfl
    cases hdead : s.sched.deleted this with
    | true => exact ⟨_, rfl, hback, rfl⟩
    | false =>
      rw [load_eq hm]
      simp only [Option.isSome_some, Bool.not_false, Bool.and_self, Bool.not_true, ok_bind,
        Bool.false_eq_true, if_false]
      cases hatt : ThreadFlags.isDetached o.flags with
      | true => exact ⟨_, rfl, hback, rfl⟩
      | false =>
        cases hdel : ThreadFlags.isDeletedJoin o.flags with
        | true => exact h.completeJoin hthis hdel hatt (.inr ⟨this, wanted, hcur⟩) hawake
        | false =>
          have hreg := h.inv.registered cur this wanted hcur ⟨o.flags, hthis, hdel, hatt⟩
          refine ⟨_, rfl, ?_, rfl⟩
          exact h.irqJoinWait hthis hdel hatt (.inr ⟨this, wanted, hcur⟩) hawake hreg wanted

/-- Waking the thread that waits for another leaves nobody asleep waiting for that one. -/
theorem Inv.none_asleep (h : s.Inv) {j : T} (hw : s.joinData this = .waitingForJoin (some j)) :
    ∀ k w, (s.modifyFlags j (ThreadFlags.clear · ThreadFlags.waitJoin)).Asleep k →
      (s.modifyFlags j (ThreadFlags.clear · ThreadFlags.waitJoin)).point k ≠ .waiting this w := by
  intro k w hk hpoint
  obtain ⟨t, w', hp, ht⟩ := (h.wake j).asleep k hk
  rw [hpoint] at hp
  cases hp
  have hreg := (h.wake j).registered k this w hpoint ht
  rw [joinData_modifyFlags, hw] at hreg
  cases hreg
  obtain ⟨f, hf, hwait⟩ := hk
  rw [flagsOf_modifyFlags_self, Option.map_eq_some_iff] at hf
  obtain ⟨g, -, rfl⟩ := hf
  simp at hwait

omit [DecidableEq T] in
/-- Nobody is asleep waiting for a thread that ended or whose union names nobody. -/
theorem Inv.none_asleep_of_not (h : s.Inv) (this : T)
    (hno : s.Joinable this → ∀ j, s.joinData this ≠ .waitingForJoin (some j)) :
    ∀ k w, s.Asleep k → s.point k ≠ .waiting this w := by
  intro k w hk hpoint
  obtain ⟨t, w', hp, ht⟩ := h.asleep k hk
  rw [hpoint] at hp
  cases hp
  exact hno ht k (h.registered k this w hpoint ht)

/-- A thread that nobody has to wake is detached. -/
theorem Ok.markDetached {g : ℕ} (h : s.Ok priorityMax) (hthis : s.sched.flagsOf this = some g)
    (hnone : ∀ j wanted, s.Asleep j → s.point j ≠ .waiting this wanted) :
    (s.markDetached this).Ok priorityMax :=
  ⟨h.modifyFlags_rep this (· ||| ThreadFlags.detached), h.inv.detached hthis hnone⟩

theorem load_modifyFlags {t : T} {g : ℕ} (hg : s.sched.flagsOf t = some g) (φ : ℕ → ℕ) :
    ∃ o, (s.modifyFlags t φ).sched.load t = .ok o ∧ o.flags = φ g := by
  obtain ⟨o, ho, rfl⟩ := Option.map_eq_some_iff.mp hg
  exact ⟨{ o with flags := φ o.flags }, load_eq (by simp [modifyFlags, ho]), rfl⟩

theorem Ok.detach {g : ℕ} (h : s.Ok priorityMax) (hthis : s.sched.flagsOf this = some g) :
    ∃ s', s.detach this = .ok s' ∧ s'.Ok priorityMax ∧ s'.created = s.created := by
  obtain ⟨o, hload, ho⟩ := load_modifyFlags hthis (· ||| ThreadFlags.detached)
  -- the comparison with `NULL`
  have hread : (s.readUnion .detach this .waitingForJoin false).Ok priorityMax :=
    ⟨h.rep, h.inv.readUnion .detach this .waitingForJoin false (.inr ⟨rfl, rfl, rfl⟩)⟩
  have hquiet : (s.Joinable this → ∀ j, s.joinData this ≠ .waitingForJoin (some j)) →
      ((s.readUnion .detach this .waitingForJoin false).markDetached this).Ok priorityMax :=
    fun hno => hread.markDetached hthis (hread.inv.none_asleep_of_not this hno)
  have hdel : ThreadFlags.isDeletedJoin o.flags = ThreadFlags.isDeletedJoin g := by
    rw [ho, ThreadFlags.isDeletedJoin_or_detached]
  have heq : (s.readUnion .detach this .waitingForJoin false).markDetached this =
      ({ s.modifyFlags this (· ||| ThreadFlags.detached) with
        existDeleted := s.existDeleted || ThreadFlags.isDeletedJoin o.flags }.readUnion .detach this
          .waitingForJoin false).note (.detached this) := by
    simp [JoinSystem.markDetached, release, readUnion, hthis, hdel, note, JoinSystem.modifyFlags]
  simp only [JoinSystem.detach, hload, ok_bind]
  cases hnull : (s.joinData this).isNull with
  | true =>
    refine ⟨_, ?_, hquiet fun _ j hj => ?_, rfl⟩
    · rw [heq]
      simp [readUnion, hnull]
    · rw [hj] at hnull
      cases hnull
  | false =>
    cases hend : ThreadFlags.isDeletedJoin g with
    | true =>
      refine ⟨_, ?_, hquiet fun hcon => ?_, rfl⟩
      · rw [heq]
        simp [readUnion, hnull, hdel, hend]
      · obtain ⟨f, hf, hfd, -⟩ := hcon
        rw [hthis, Option.some_inj] at hf
        rw [← hf, hend] at hfd
        cases hfd
    | false =>
      obtain ⟨w, hw⟩ := (h.inv.thread this).active g hthis hend
      cases w with
      | none =>
        rw [hw] at hnull
        cases hnull
      | some j =>
        -- the thread that waits is woken
        set s₁ := (s.readUnion .detach this .waitingForJoin false).readUnion .detach this
          .waitingForJoin true with hs₁
        have hinv₁ : s₁.Inv := hread.inv.readUnion _ _ _ _ (.inl (by rw [readUnion, hw]; rfl))
        have hok₁ : (s₁.modifyFlags j (ThreadFlags.clear · ThreadFlags.waitJoin)).Ok priorityMax :=
          ⟨h.modifyFlags_rep j (ThreadFlags.clear · ThreadFlags.waitJoin), hinv₁.wake j⟩
        have hthis₁ : s₁.sched.flagsOf this = some g := hthis
        obtain ⟨g₁, hg₁, hdel₁, -⟩ := exists_flagsOf_wake hthis₁ j
        refine ⟨_, ?_, hok₁.markDetached hg₁ (hinv₁.none_asleep hw), rfl⟩
        simp only [readUnion, joinData_modifyFlags, hw, JoinData.isNull, Option.isNone_some,
          Bool.not_false, if_true, hdel, hend, wakeJoiner, pure_eq_ok, ok_bind, Except.ok.injEq]
        refine JoinSystem.ext ?_ rfl ?_ rfl rfl rfl ?_
        · have hcomm := congrArg JoinSystem.sched (wake_comm s this j ThreadFlags.detached rfl)
          exact hcomm
        · simp only [JoinSystem.markDetached, hg₁, Option.any_some, hdel₁, hend]
          rfl
        · simp [JoinSystem.markDetached, note, release, hs₁, readUnion, JoinSystem.modifyFlags, hw]

/-- A thread that nobody has to wake ends. -/
theorem Ok.markEnded {g : ℕ} {r : Option V} (h : s.Ok priorityMax) (hcur : s.sched.flagsOf cur = some g)
    (hrun : s.point cur = .running) (hawake : ¬s.Asleep cur)
    (hnone : ∀ j wanted, s.Asleep j → s.point j ≠ .waiting cur wanted) :
    (s.markEnded cur r).Ok priorityMax :=
  ⟨h.modifyFlags_rep cur (· ||| ThreadFlags.deleted), h.inv.ended hcur hrun hawake hnone⟩

theorem Ok.threadLauncher {g : ℕ} {r : Option V} (h : s.Ok priorityMax)
    (hcur : s.sched.flagsOf cur = some g) (hrun : s.point cur = .running) (hawake : ¬s.Asleep cur) :
    ∃ s', s.threadLauncher cur r = .ok s' ∧ s'.Ok priorityMax ∧ s'.created = s.created := by
  obtain ⟨o, hload, ho⟩ := load_modifyFlags hcur (· ||| ThreadFlags.deleted)
  have hdet : ThreadFlags.isDetached o.flags = ThreadFlags.isDetached g := by
    rw [ho, ThreadFlags.isDetached_or_deleted]
  have hend : ThreadFlags.isDeletedJoin g = false := by
    rw [Bool.eq_false_iff, Ne, (h.inv.thread cur).deleted_iff g hcur, hrun]
    simp
  obtain ⟨w, hw⟩ := (h.inv.thread cur).active g hcur hend
  simp only [JoinSystem.threadLauncher, hload, ok_bind, hdet]
  cases hatt : ThreadFlags.isDetached g with
  | true =>
    -- whoever waited for the thread was woken when it was detached
    have hquiet := h.inv.none_asleep_of_not cur fun hcon => by
      obtain ⟨f, hf, -, hfd⟩ := hcon
      rw [hcur, Option.some_inj] at hf
      rw [← hf, hatt] at hfd
      cases hfd
    refine ⟨_, ?_, h.markEnded (r := r) hcur hrun hawake hquiet, rfl⟩
    simp [JoinSystem.markEnded, hcur, hatt, note, JoinSystem.goto]
  | false =>
    have hread : (s.readUnion .threadLauncher cur .waitingForJoin false).Ok priorityMax :=
      ⟨h.rep, h.inv.readUnion .threadLauncher cur .waitingForJoin false (.inl (by rw [hw]; rfl))⟩
    cases w with
    | none =>
      have hquiet := hread.inv.none_asleep_of_not cur fun _ j hj => by
        rw [readUnion, hw] at hj
        cases hj
      refine ⟨_, ?_, hread.markEnded (r := r) hcur hrun hawake hquiet, rfl⟩
      simp [JoinSystem.markEnded, hcur, hatt, note, JoinSystem.goto, readUnion, hw, JoinData.isNull,
        JoinSystem.setJoinData]
      rfl
    | some j =>
      set s₁ := (s.readUnion .threadLauncher cur .waitingForJoin false).readUnion .threadLauncher cur
        .waitingForJoin true with hs₁
      have hinv₁ : s₁.Inv := hread.inv.readUnion _ _ _ _ (.inl (by rw [readUnion, hw]; rfl))
      have hok₁ : (s₁.modifyFlags j (ThreadFlags.clear · ThreadFlags.waitJoin)).Ok priorityMax :=
        ⟨h.modifyFlags_rep j (ThreadFlags.clear · ThreadFlags.waitJoin), hinv₁.wake j⟩
      have hcur₁ : s₁.sched.flagsOf cur = some g := hcur
      obtain ⟨g₁, hg₁, -, hdet₁⟩ := exists_flagsOf_wake hcur₁ j
      have hawake₁ : ¬(s₁.modifyFlags j (ThreadFlags.clear · ThreadFlags.waitJoin)).Asleep cur := by
        intro hcon
        obtain ⟨t, w, hp, -⟩ := hok₁.inv.asleep cur hcon
        rw [point_modifyFlags, show s₁.point cur = .running from hrun] at hp
        cases hp
      refine ⟨_, ?_, hok₁.markEnded (r := r) hg₁ hrun hawake₁ (hinv₁.none_asleep hw), rfl⟩
      simp only [readUnion, note, JoinSystem.goto, joinData_modifyFlags, hw, JoinData.isNull,
        Option.isNone_some, Bool.not_false, if_true, wakeJoiner, pure_eq_ok, ok_bind, Except.ok.injEq]
      refine JoinSystem.ext ?_ ?_ ?_ rfl rfl rfl ?_
      · have hcomm := congrArg JoinSystem.sched (wake_comm s cur j ThreadFlags.deleted rfl)
        exact hcomm
      · simp only [JoinSystem.markEnded, hg₁, Option.any_some, hdet₁, hatt]
        rfl
      · simp only [JoinSystem.markEnded, hg₁, Option.any_some, hdet₁, hatt, Bool.or_false]
        rfl
      · simp [JoinSystem.markEnded, note, JoinSystem.goto, hs₁, readUnion, hw,
          JoinSystem.setJoinData]

/-! ## Runs -/

/-- **One step.** Every event returns and keeps the invariant. -/
theorem Ok.step (h : s.Ok priorityMax) (hf : s.created.length < fuel) (e : JoinEvent T V) :
    ∃ s', s.step fuel priorityMax e = .ok s' ∧ s'.Ok priorityMax ∧
      s'.created.length ≤ s.created.length + 1 := by
  have hkeep : ∀ x : Except Fault (JoinSystem T V),
      (∃ s', x = .ok s' ∧ s'.Ok priorityMax ∧ s'.created = s.created) →
      ∃ s', x = .ok s' ∧ s'.Ok priorityMax ∧ s'.created.length ≤ s.created.length + 1 := by
    rintro x ⟨s', hx, hok, hcr⟩
    exact ⟨s', hx, hok, by rw [hcr]; exact Nat.le_succ _⟩
  have hstay : ∃ s', (pure s : Except Fault (JoinSystem T V)) = .ok s' ∧ s'.Ok priorityMax ∧
      s'.created = s.created := ⟨s, rfl, h, rfl⟩
  obtain ⟨q, hrep⟩ := h.rep
  have hlen : ∀ i < priorityMax, (q i).length < fuel :=
    fun i hi => (h.inv.length_le hrep hi).trans_lt hf
  cases e with
  | create thread priority joinable =>
    simp only [JoinSystem.step]
    by_cases hcan : thread ∈ s.created ∨ thread = s.sched.idle ∨ priorityMax ≤ priority
    · rw [if_pos hcan]
      exact hkeep _ hstay
    · rw [if_neg hcan]
      simp only [not_or, not_le] at hcan
      obtain ⟨hnew, hidle, hp⟩ := hcan
      have hmem : s.sched.mem thread = none := by
        rw [← flagsOf_eq_none]
        by_contra hcon
        obtain ⟨f, hf⟩ := Option.ne_none_iff_exists'.mp hcon
        exact hnew ((h.inv.thread thread).live f hf)
      obtain ⟨sched, hrun, hrep', -, hflags, -⟩ := pkAddThread_spec hrep hmem hidle hp
        (if joinable then 0 else ThreadFlags.detached)
      rw [hrun, ok_bind]
      exact ⟨_, rfl, ⟨⟨_, hrep'⟩, h.inv.create hnew joinable hflags⟩, le_rfl⟩
  | setPriority thread newPriority =>
    refine hkeep _ ?_
    simp only [JoinSystem.step]
    by_cases hcan : (s.sched.mem thread).isNone = true ∨ priorityMax ≤ newPriority
    · rw [if_pos hcan]
      exact hstay
    · rw [if_neg hcan]
      simp only [not_or, not_le, Option.isNone_iff_eq_none] at hcan
      obtain ⟨hmem, hp⟩ := hcan
      obtain ⟨old, hold⟩ := Option.ne_none_iff_exists'.mp (priorityOf_eq_none.not.mpr hmem)
      obtain ⟨sched, hrun, hrep', -, hflags, -⟩ := pkSetPriority_spec hrep hold hp
        (hlen old (hrep.lt thread old hold))
      rw [hrun, ok_bind]
      exact ⟨_, rfl, ⟨⟨_, hrep'⟩, h.inv.of_flagsOf_eq hflags⟩, rfl⟩
  | find =>
    refine hkeep _ ?_
    simp only [JoinSystem.step]
    by_cases hk : s.sched.kernelRunning = 0
    · obtain ⟨sched, hrun, hrep', hmem, -⟩ := irqFindNextThread_spec hrep hlen hk
      rw [hrun, ok_bind]
      refine ⟨_, rfl, ⟨⟨_, hrep'⟩, h.inv.of_flagsOf_eq ?_⟩, rfl⟩
      funext t
      rw [flagsOf, hmem]
      rfl
    · rw [irqFindNextThread, if_pos hk]
      exact ⟨s, rfl, h, rfl⟩
  | join cur this wanted =>
    refine hkeep _ ?_
    simp only [JoinSystem.step]
    split
    · rename_i hready hpoint
      exact h.join hf hpoint (not_asleep_of_ready hready)
    · exact hstay
  | resume cur =>
    refine hkeep _ ?_
    simp only [JoinSystem.step]
    split
    · rename_i hready hpoint
      exact h.resumeJoin hf hpoint (not_asleep_of_ready hready)
    · exact hstay
  | removeDead cur =>
    refine hkeep _ ?_
    simp only [JoinSystem.step]
    split
    · rename_i this v hready hpoint
      obtain ⟨s', hrun, hok, hdead, hcr, hpt, hasleep, -⟩ := h.purge hf s.existDeleted
      rw [show s.purge fuel priorityMax = .ok s' from hrun, ok_bind]
      refine ⟨_, rfl, ⟨hok.rep, hok.inv.returned (by rw [hpt, hpoint]) (fun hcon => ?_) hdead⟩, hcr⟩
      exact not_asleep_of_ready hready (hasleep cur hcon)
    · exact hstay
  | detach cur this =>
    refine hkeep _ ?_
    simp only [JoinSystem.step]
    split
    · split
      · exact hstay
      · rename_i hlive
        rw [Option.isNone_iff_eq_none, ← flagsOf_eq_none] at hlive
        obtain ⟨g, hg⟩ := Option.ne_none_iff_exists'.mp hlive
        exact h.detach hg
    · exact hstay
  | terminate cur result =>
    refine hkeep _ ?_
    simp only [JoinSystem.step]
    split
    · rename_i hready hpoint
      obtain ⟨g, hg⟩ := h.inv.exists_flags (t := cur) (by simp [hpoint]) (by simp [hpoint])
      exact h.threadLauncher hg hpoint (not_asleep_of_ready hready)
    · exact hstay
  | idle =>
    refine hkeep _ ?_
    simp only [JoinSystem.step]
    split
    · obtain ⟨s', hrun, hok, -, hcr, -⟩ := h.purge hf false
      exact ⟨s', hrun, hok, hcr⟩
    · exact hstay

theorem Ok.run (h : s.Ok priorityMax) (es : List (JoinEvent T V))
    (hf : s.created.length + es.length < fuel) :
    ∃ s', s.run fuel priorityMax es = .ok s' ∧ s'.Ok priorityMax ∧
      s'.created.length ≤ s.created.length + es.length := by
  induction es generalizing s with
  | nil => exact ⟨s, rfl, h, le_rfl⟩
  | cons e es ih =>
    simp only [List.length_cons] at hf
    obtain ⟨s₁, hstep, h₁, hlen₁⟩ := h.step (by omega : s.created.length < fuel) e
    obtain ⟨s', hrun, h', hlen⟩ := ih h₁ (by omega)
    refine ⟨s', by rw [JoinSystem.run, hstep, ok_bind, hrun], h', ?_⟩
    rw [List.length_cons]
    omega

omit [DecidableEq T] in
theorem ok_initial (priorityMax : ℕ) (idle : T) : (initial idle : JoinSystem T V).Ok priorityMax where
  rep := ⟨fun _ => [], fun _ _ => rfl, fun _ _ _ => by simp [priorityOf, initial],
    fun _ _ h => by simp [priorityOf, initial] at h, rfl⟩
  inv := inv_initial idle

/-- **Join, detach and termination.** In every interleaving no section fails, and what happens to each
thread is lawful: at most one join returns true, with the value the thread returned and not after a
detach that came before it was complete, and the thread is freed at most once, after it ended and was
joined or detached. The union is read through the member written last, but for the comparison with
`NULL` in `detach`. The freed threads are those whose memory is gone; as long as a thread that ended and
was joined or detached is not freed, the idle thread or a joiner is going to remove the dead threads,
which frees it. A thread in the `WAIT_JOIN` state waits for a thread that neither ended nor was
detached. -/
theorem run_join (fuel priorityMax : ℕ) (idle : T) (es : List (JoinEvent T V))
    (hf : es.length < fuel) :
    ∃ s, (initial idle : JoinSystem T V).run fuel priorityMax es = .ok s ∧
      Lawful Happening.Allowed s.history ∧
      (∀ r ∈ s.reads, r.Fine) ∧
      (∀ t, .freed t ∈ s.history ↔ t ∈ s.created ∧ s.sched.mem t = none) ∧
      (∀ t result, .terminated t result ∈ s.history → Released s.history t → .freed t ∉ s.history →
        (s.existDeleted = true ∨ ∃ j u v, s.point j = .joined u v) ∧
          ∃ s', s.purge fuel priorityMax = .ok s' ∧ .freed t ∈ s'.history) ∧
      ∀ j, s.waitingJoin j = true → ∃ t wanted, s.point j = .waiting t wanted ∧
        (∀ result, .terminated t result ∉ s.history) ∧ .detached t ∉ s.history := by
  obtain ⟨s, hrun, h, hlen⟩ := (ok_initial (V := V) priorityMax idle).run es
    (by simpa [initial] using hf : (initial idle : JoinSystem T V).created.length + es.length < fuel)
  have hlen' : s.created.length < fuel := by
    simp only [initial, List.length_nil, Nat.zero_add] at hlen
    omega
  refine ⟨s, hrun, h.inv.lawful, h.inv.reads, fun t => ?_, fun t result hend hrel hnot => ?_,
    fun j hj => ?_⟩
  · rw [(h.inv.thread t).freed_iff, flagsOf_eq_none]
  · have hok := h.inv.thread t
    have hcr : t ∈ s.created := h.inv.thread_mem _ hend
    rw [hok.freed_iff, not_and] at hnot
    obtain ⟨f, hflags⟩ := Option.ne_none_iff_exists'.mp (hnot hcr)
    have hdead : s.Dead t := ⟨f, hflags, (hok.deleted_iff f hflags).mpr (hok.ended_iff.mpr ⟨result, hend⟩),
      (hok.detached_iff f hflags).mpr hrel⟩
    obtain ⟨s', hrun', -, -, -, -, -, hfreed⟩ := h.purge hlen' s.existDeleted
    exact ⟨h.inv.purged t hdead, s', hrun', hfreed t hdead⟩
  · have hasleep : s.Asleep j := by
      rw [waitingJoin, Option.any_eq_true] at hj
      exact hj
    obtain ⟨t, wanted, hp, f, hflags, hdel, hdet⟩ := h.inv.asleep j hasleep
    have hok := h.inv.thread t
    refine ⟨t, wanted, hp, fun result hcon => ?_, fun hcon => ?_⟩
    · rw [(hok.deleted_iff f hflags).mpr (hok.ended_iff.mpr ⟨result, hcon⟩)] at hdel
      cases hdel
    · rw [(hok.detached_iff f hflags).mpr (.inl hcon)] at hdet
      cases hdet

/-- Thread 2 waits for thread 1, which returns 7. -/
theorem run_join_value :
    ∃ s, (initial 0 : JoinSystem ℕ ℕ).run 8 1 [.create 1 0 true, .create 2 0 true, .join 2 1 true,
        .terminate 1 (some 7), .resume 2, .removeDead 2] = .ok s ∧
      .returned 2 1 (some (some 7)) ∈ s.history ∧ Lawful Happening.Allowed s.history := by
  obtain ⟨s, hrun, hlaw, -⟩ := run_join 8 1 0 [.create 1 0 true, .create 2 0 true, .join 2 1 true,
    .terminate 1 (some 7), .resume 2, .removeDead 2] (by decide)
  refine ⟨s, hrun, ?_, hlaw⟩
  cases hrun
  decide

/-- Detaching a thread that ended compares its result with `NULL`, through the other member. -/
theorem exists_read_not_active :
    ∃ s, (initial 0 : JoinSystem ℕ ℕ).run 8 1 [.create 1 0 true, .create 2 0 true,
        .terminate 1 (some 7), .detach 2 1] = .ok s ∧ ¬∀ r ∈ s.reads, r.member = r.active :=
  ⟨_, rfl, by decide⟩

end JoinSystem

end Miosix
