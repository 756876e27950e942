import Mathlib.Data.List.Basic
import Mathlib.Logic.Function.Basic

/-!
# One-time initialisation

Callers share a control word. Each one tests it, and either runs the initialisation and then stores how it
ended, or waits and tests again, or goes on because the initialisation is done.

* `OncePhase`, `OncePhase.Trace`: what callers may be seen to do;
* `OneTime`: initialisations are apart, one completes at most, and one that fails is run again;
* `Trace.oneTime`: it follows from the phases;
* `OnceControl`, `OnceState.step`: a protocol on a control word, one caller moving at a time;
* **`run_oneTime`**: every run of a protocol that keeps to the phases.
-/

namespace Lib

variable {C W : Type}

/-- What a caller is seen to do. The first three are the outcomes of a test. -/
inductive OnceEvent (C : Type) where
  | start (c : C)
  | wait (c : C)
  | pass (c : C)
  /-- The initialisation returns, or throws. -/
  | complete (c : C)
  | fail (c : C)
  /-- The end of the initialisation is stored. -/
  | record (c : C)
  | retract (c : C)
deriving DecidableEq

namespace OnceEvent

def IsStart : OnceEvent C → Prop
  | start _ => True
  | _ => False

def IsTest : OnceEvent C → Prop
  | start _ | wait _ | pass _ => True
  | _ => False

def completes : OnceEvent C → Bool
  | complete _ => true
  | _ => false

/-- The caller goes on with the initialisation done. -/
def GoesOn : OnceEvent C → Prop
  | pass _ | record _ => True
  | _ => False

end OnceEvent

/-- One-time initialisation, as a property of what is seen. -/
structure OneTime (tr : List (OnceEvent C)) : Prop where
  /-- An initialisation ends before another one starts. -/
  apart : ∀ a b e c d, tr = a ++ .start c :: b ++ .start d :: e → .complete c ∈ b ∨ .fail c ∈ b
  once : tr.countP OnceEvent.completes ≤ 1
  /-- No caller goes on before an initialisation has completed. -/
  after : ∀ a b x, tr = a ++ x :: b → x.GoesOn → ∃ d, .complete d ∈ a
  /-- After an initialisation that fails, the next caller waits until that is stored, and then starts. -/
  again : ∀ a b e d x, tr = a ++ .fail d :: b ++ x :: e → (∀ y ∈ b, ¬ y.IsStart) → x.IsTest →
    (.retract d ∈ b → ∃ c, x = .start c) ∧ (.retract d ∉ b → ∃ c, x = .wait c)

/-! ## Phases -/

/-- How far the caller with the initialisation is. -/
inductive OnceStage where
  | running
  | completed
  | failed
deriving DecidableEq

inductive OncePhase (C : Type) where
  | idle
  | busy (c : C) (stage : OnceStage)
  | done

namespace OncePhase

inductive Next : OncePhase C → OnceEvent C → OncePhase C → Prop
  | start (c : C) : Next .idle (.start c) (.busy c .running)
  | complete (c : C) : Next (.busy c .running) (.complete c) (.busy c .completed)
  | fail (c : C) : Next (.busy c .running) (.fail c) (.busy c .failed)
  | record (c : C) : Next (.busy c .completed) (.record c) .done
  | retract (c : C) : Next (.busy c .failed) (.retract c) .idle
  | wait (c d : C) (stage : OnceStage) : Next (.busy c stage) (.wait d) (.busy c stage)
  | pass (c : C) : Next .done (.pass c) .done

inductive Trace : OncePhase C → List (OnceEvent C) → OncePhase C → Prop
  | nil (p : OncePhase C) : Trace p [] p
  | cons {p q r : OncePhase C} {x : OnceEvent C} {tr : List (OnceEvent C)} :
    Next p x q → Trace q tr r → Trace p (x :: tr) r

variable {p q r : OncePhase C} {a b tr : List (OnceEvent C)} {x : OnceEvent C} {c d : C}

theorem Trace.append (ha : Trace p a q) (hb : Trace q b r) : Trace p (a ++ b) r := by
  induction ha with
  | nil => exact hb
  | cons hx _ ih => exact .cons hx (ih hb)

theorem Trace.concat (ha : Trace p a q) (hx : Next q x r) : Trace p (a ++ [x]) r :=
  ha.append (.cons hx (.nil r))

theorem Trace.split (h : Trace p (a ++ b) r) : ∃ q, Trace p a q ∧ Trace q b r := by
  induction a generalizing p with
  | nil => exact ⟨p, .nil p, h⟩
  | cons x a ih =>
    cases h with
    | cons hx h =>
      obtain ⟨q, ha, hb⟩ := ih h
      exact ⟨q, .cons hx ha, hb⟩

/-- The phases around one event of a trace. -/
theorem Trace.split_cons (h : Trace p (a ++ x :: b) r) : ∃ q q', Trace p a q ∧ Next q x q' ∧ Trace q' b r := by
  obtain ⟨q, ha, hb⟩ := h.split
  cases hb with
  | cons hx hb => exact ⟨q, _, ha, hx, hb⟩

/-! ## What follows from the phases -/

/-- An initialisation that was running and is not any more has ended. -/
theorem Trace.ended (h : Trace (.busy c .running) tr q) (hq : q ≠ .busy c .running) :
    .complete c ∈ tr ∨ .fail c ∈ tr := by
  induction tr with
  | nil =>
    cases h
    exact absurd rfl hq
  | cons x tr ih =>
    cases h with
    | cons hx h =>
      cases hx with
      | complete => exact .inl List.mem_cons_self
      | fail => exact .inr List.mem_cons_self
      | wait => exact (ih h).imp (List.mem_cons_of_mem _) (List.mem_cons_of_mem _)

/-- How many initialisations have completed. -/
def completions : OncePhase C → ℕ
  | busy _ .completed | done => 1
  | _ => 0

theorem Next.completions_eq (h : Next p x q) :
    q.completions = p.completions + if x.completes then 1 else 0 := by
  cases h <;> rfl

theorem Trace.completions_eq (h : Trace p tr q) :
    q.completions = p.completions + tr.countP OnceEvent.completes := by
  induction h with
  | nil => rfl
  | cons hx _ ih =>
    rw [ih, hx.completions_eq, List.countP_cons]
    omega

theorem completions_le (p : OncePhase C) : p.completions ≤ 1 := by
  rcases p with _ | ⟨c, _ | _ | _⟩ | _ <;> simp [completions]

theorem Next.completions_of_goesOn (h : Next p x q) (hx : x.GoesOn) : p.completions = 1 := by
  cases h with
  | record => rfl
  | pass => rfl
  | _ => exact hx.elim

/-- Until the next one starts, an initialisation that failed is only retracted. -/
theorem Trace.of_failed (h : Trace (.busy d .failed) tr q) (hstart : ∀ y ∈ tr, ¬ y.IsStart) :
    (q = .busy d .failed ∧ .retract d ∉ tr) ∨ (q = .idle ∧ .retract d ∈ tr) := by
  induction tr with
  | nil =>
    cases h
    exact .inl ⟨rfl, List.not_mem_nil⟩
  | cons x tr ih =>
    cases h with
    | cons hx h =>
      cases hx with
      | retract =>
        cases h with
        | nil => exact .inr ⟨rfl, List.mem_cons_self⟩
        | cons hy _ =>
          cases hy
          exact absurd trivial (hstart (.start _) (List.mem_cons_of_mem _ List.mem_cons_self))
      | wait =>
        rcases ih h fun y hy => hstart y (List.mem_cons_of_mem _ hy) with ⟨hq, hn⟩ | ⟨hq, hmem⟩
        · exact .inl ⟨hq, fun hmem => hn ((List.mem_cons.1 hmem).resolve_left nofun)⟩
        · exact .inr ⟨hq, List.mem_cons_of_mem _ hmem⟩

/-- What is seen in the phases is one-time initialisation. -/
theorem Trace.oneTime (h : Trace .idle tr p) : OneTime tr where
  apart a b e c d htr := by
    subst htr
    obtain ⟨q, q', hb, hd, -⟩ := h.split_cons
    obtain ⟨_, _, -, hc, hb⟩ := hb.split_cons
    cases hc
    cases hd
    exact hb.ended nofun
  once := by
    have hcount : p.completions = 0 + tr.countP OnceEvent.completes := h.completions_eq
    have hle := p.completions_le
    omega
  after a b x htr hx := by
    subst htr
    obtain ⟨q, q', ha, hnext, -⟩ := h.split_cons
    have hcount : q.completions = 0 + a.countP OnceEvent.completes := ha.completions_eq
    rw [hnext.completions_of_goesOn hx] at hcount
    have hpos : 0 < a.countP OnceEvent.completes := by omega
    obtain ⟨y, hy, hcompletes⟩ := List.countP_pos_iff.1 hpos
    cases y with
    | complete d => exact ⟨d, hy⟩
    | _ => cases hcompletes
  again a b e d x htr hstart hx := by
    subst htr
    obtain ⟨q, q', hb, hnext, -⟩ := h.split_cons
    obtain ⟨_, _, -, hd, hb⟩ := hb.split_cons
    cases hd
    rcases hb.of_failed hstart with ⟨rfl, hn⟩ | ⟨rfl, hmem⟩
    · refine ⟨fun hmem => absurd hmem hn, fun _ => ?_⟩
      cases hnext with
      | retract => exact hx.elim
      | wait _ c => exact ⟨c, rfl⟩
    · refine ⟨fun _ => ?_, fun hn => absurd hmem hn⟩
      cases hnext with
      | start c => exact ⟨c, rfl⟩

end OncePhase

/-! ## Protocols -/

/-- What a test tells the caller. After an error nothing goes on. -/
inductive OnceAnswer where
  | start
  | wait
  | pass
  | error
deriving DecidableEq

/-- A protocol on a control word. -/
structure OnceControl (W C : Type) where
  /-- The call has valid arguments. -/
  valid : C → W → Bool
  /-- One test of the word, which nobody else can change meanwhile. -/
  test : C → W → OnceAnswer × W
  succeed : W → W
  retry : W → W

/-- Where a caller is. -/
inductive OncePc where
  | outside
  | testing
  | initialising (stage : OnceStage)
  | left
deriving DecidableEq

structure OnceState (W C : Type) where
  word : W
  pc : C → OncePc
  halted : Bool
  trace : List (OnceEvent C)

/-- The move of one caller. -/
inductive OnceMove (C : Type) where
  | enter (c : C)
  | test (c : C)
  | finish (c : C) (throws : Bool)
  | store (c : C)

namespace OnceState

variable [DecidableEq C] (o : OnceControl W C)

def init (w : W) : OnceState W C := ⟨w, fun _ => .outside, false, []⟩

/-- A caller gets somewhere, and is seen to do something. -/
def goto (s : OnceState W C) (w : W) (c : C) (pc : OncePc) (seen : List (OnceEvent C)) : OnceState W C :=
  { s with word := w, pc := Function.update s.pc c pc, trace := s.trace ++ seen }

def stepEnter (s : OnceState W C) (c : C) : OnceState W C :=
  s.goto s.word c (if o.valid c s.word then .testing else .left) []

/-- A caller that has to wait yields, and then tests again. -/
def stepTest (s : OnceState W C) (c : C) : OnceState W C :=
  match o.test c s.word with
  | (.start, w) => s.goto w c (.initialising .running) [.start c]
  | (.wait, w) => s.goto w c .testing [.wait c]
  | (.pass, w) => s.goto w c .left [.pass c]
  | (.error, w) => { s with word := w, halted := true }

def stepFinish (s : OnceState W C) (c : C) (throws : Bool) : OnceState W C :=
  if throws then s.goto s.word c (.initialising .failed) [.fail c]
  else s.goto s.word c (.initialising .completed) [.complete c]

/-- One move, if the caller can make it. -/
def step (s : OnceState W C) : OnceMove C → Option (OnceState W C)
  | .enter c => if s.halted = false ∧ s.pc c = .outside then some (s.stepEnter o c) else none
  | .test c => if s.halted = false ∧ s.pc c = .testing then some (s.stepTest o c) else none
  | .finish c throws =>
    if s.halted = false ∧ s.pc c = .initialising .running then some (s.stepFinish c throws) else none
  | .store c =>
    if s.halted = false ∧ s.pc c = .initialising .completed then
      some (s.goto (o.succeed s.word) c .left [.record c])
    else if s.halted = false ∧ s.pc c = .initialising .failed then
      some (s.goto (o.retry s.word) c .left [.retract c])
    else none

def run (s : OnceState W C) : List (OnceMove C) → Option (OnceState W C)
  | [] => some s
  | m :: ms => (s.step o m).bind fun s => s.run ms

end OnceState

/-! ## Protocols that keep to the phases -/

/-- What the control word means, and that a protocol keeps to it. -/
structure OnceControl.Implements (o : OnceControl W C) (meaning : OncePhase C → W → Prop) : Prop where
  test_idle : ∀ c w, meaning .idle w →
    (o.test c w).1 = .error ∨ ∃ w', o.test c w = (.start, w') ∧ meaning (.busy c .running) w'
  test_busy : ∀ c d st w, meaning (.busy d st) w → (o.test c w).1 = .error ∨ o.test c w = (.wait, w)
  test_done : ∀ c w, meaning .done w → o.test c w = (.pass, w)
  stage : ∀ c st st' w, meaning (.busy c st) w → meaning (.busy c st') w
  succeed : ∀ c st w, meaning (.busy c st) w → meaning .done (o.succeed w)
  retry : ∀ c st w, meaning (.busy c st) w → meaning .idle (o.retry w)

namespace OnceState

variable [DecidableEq C] {o : OnceControl W C} {meaning : OncePhase C → W → Prop} {s s' : OnceState W C}
  {p p' : OncePhase C} {c : C} {st : OnceStage}

/-- A state in a phase: it is the phase of the trace, of the word and of the callers. -/
structure Sim (meaning : OncePhase C → W → Prop) (s : OnceState W C) (p : OncePhase C) : Prop where
  trace : OncePhase.Trace .idle s.trace p
  word : s.halted = false → meaning p s.word
  pc : ∀ c st, s.pc c = .initialising st ↔ p = .busy c st

omit [DecidableEq C] in
theorem sim_init {w : W} (h : meaning .idle w) : Sim meaning (init w : OnceState W C) .idle where
  trace := .nil _
  word _ := h
  pc _ _ := iff_of_false nofun nofun

theorem goto_pc (s : OnceState W C) (w : W) (c : C) (pc : OncePc) (seen : List (OnceEvent C)) (d : C) :
    (s.goto w c pc seen).pc d = if d = c then pc else s.pc d :=
  Function.update_apply _ _ _ _

/-- A caller that does not initialise, before or after. -/
theorem Sim.goto_other (h : Sim meaning s p) {w : W} {pc : OncePc} {seen : List (OnceEvent C)}
    (hold : ∀ st, s.pc c ≠ .initialising st) (hnew : ∀ st, pc ≠ .initialising st) (hw : meaning p w)
    (hseen : OncePhase.Trace p seen p) : Sim meaning (s.goto w c pc seen) p where
  trace := h.trace.append hseen
  word _ := hw
  pc d st := by
    rw [← h.pc d st, goto_pc]
    split_ifs with hd
    · subst hd
      exact iff_of_false (hnew st) (hold st)
    · rfl

/-- The caller that initialises, or starts to. -/
theorem Sim.goto_busy (h : Sim meaning s p) {w : W} {st : OnceStage} {x : OnceEvent C}
    (hnext : OncePhase.Next p x (.busy c st)) (hother : ∀ d st', p = .busy d st' → d = c)
    (hw : meaning (.busy c st) w) : Sim meaning (s.goto w c (.initialising st) [x]) (.busy c st) where
  trace := h.trace.concat hnext
  word _ := hw
  pc d st' := by
    rw [goto_pc]
    split_ifs with hd
    · subst hd
      simp
    · rw [h.pc d st']
      refine iff_of_false (fun hp => hd (hother d st' hp)) fun hp => hd ?_
      injection hp with hc
      exact hc.symm

/-- The caller that leaves after an initialisation. -/
theorem Sim.goto_left (h : Sim meaning s (.busy c st)) {w : W} {x : OnceEvent C}
    (hnext : OncePhase.Next (.busy c st) x p') (hfree : ∀ d st', p' ≠ .busy d st') (hw : meaning p' w) :
    Sim meaning (s.goto w c .left [x]) p' where
  trace := h.trace.concat hnext
  word _ := hw
  pc d st' := by
    rw [goto_pc]
    refine iff_of_false ?_ (hfree d st')
    split_ifs with hd
    · nofun
    · rw [h.pc d st']
      intro hp
      injection hp with hc
      exact hd hc.symm

/-! ## Steps and runs -/

theorem stepTest_sim (ho : o.Implements meaning) (h : Sim meaning s p) (hrun : s.halted = false)
    (hpc : s.pc c = .testing) : ∃ p', Sim meaning (s.stepTest o c) p' := by
  have hw := h.word hrun
  have hold : ∀ st, s.pc c ≠ .initialising st := by simp [hpc]
  rw [stepTest]
  rcases htest : o.test c s.word with ⟨answer, w⟩
  have herror : answer = .error → ∃ p', Sim meaning { s with word := w, halted := true } p' :=
    fun _ => ⟨p, h.trace, nofun, h.pc⟩
  rcases p with _ | ⟨d, st⟩ | _
  · rcases ho.test_idle c s.word hw with he | ⟨w', he, hw'⟩
    · rw [htest] at he
      cases he
      exact herror rfl
    · cases htest.symm.trans he
      exact ⟨_, h.goto_busy (.start c) (fun _ _ h => nomatch h) hw'⟩
  · rcases ho.test_busy c d st s.word hw with he | he
    · rw [htest] at he
      cases he
      exact herror rfl
    · cases htest.symm.trans he
      exact ⟨_, h.goto_other hold nofun hw (.cons (.wait d c st) (.nil _))⟩
  · cases htest.symm.trans (ho.test_done c s.word hw)
    exact ⟨_, h.goto_other hold nofun hw (.cons (.pass c) (.nil _))⟩

/-- **One move** of a protocol keeps to the phases. -/
theorem step_sim (ho : o.Implements meaning) (h : Sim meaning s p) {m : OnceMove C}
    (hstep : s.step o m = some s') : ∃ p', Sim meaning s' p' := by
  have hbusy {c d : C} {st st' : OnceStage} (hp : OncePhase.busy c st = .busy d st') : d = c := by
    injection hp with hc
    exact hc.symm
  cases m with
  | enter c =>
    obtain ⟨⟨hrun, hpc⟩, ⟨⟩⟩ := Option.ite_none_right_eq_some.mp hstep
    refine ⟨p, h.goto_other (by simp [hpc]) (fun st => ?_) (h.word hrun) (.nil p)⟩
    split_ifs <;> nofun
  | test c =>
    obtain ⟨⟨hrun, hpc⟩, ⟨⟩⟩ := Option.ite_none_right_eq_some.mp hstep
    exact stepTest_sim ho h hrun hpc
  | finish c throws =>
    obtain ⟨⟨hrun, hpc⟩, ⟨⟩⟩ := Option.ite_none_right_eq_some.mp hstep
    obtain rfl := (h.pc c .running).1 hpc
    have hw := h.word hrun
    cases throws with
    | true => exact ⟨_, h.goto_busy (.fail c) (fun _ _ => hbusy) (ho.stage _ _ _ _ hw)⟩
    | false => exact ⟨_, h.goto_busy (.complete c) (fun _ _ => hbusy) (ho.stage _ _ _ _ hw)⟩
  | store c =>
    rw [step] at hstep
    split_ifs at hstep with hcompleted hfailed
    · cases hstep
      obtain rfl := (h.pc c .completed).1 hcompleted.2
      exact ⟨_, h.goto_left (.record c) nofun (ho.succeed _ _ _ (h.word hcompleted.1))⟩
    · cases hstep
      obtain rfl := (h.pc c .failed).1 hfailed.2
      exact ⟨_, h.goto_left (.retract c) nofun (ho.retry _ _ _ (h.word hfailed.1))⟩

/-- **A whole run** keeps to the phases. -/
theorem run_sim (ho : o.Implements meaning) (h : Sim meaning s p) (ms : List (OnceMove C))
    (hrun : s.run o ms = some s') : ∃ p', Sim meaning s' p' := by
  induction ms generalizing s p with
  | nil =>
    cases hrun
    exact ⟨p, h⟩
  | cons m ms ih =>
    obtain ⟨s₁, hstep, hrest⟩ := Option.bind_eq_some_iff.mp hrun
    obtain ⟨p₁, h₁⟩ := step_sim ho h hstep
    exact ih h₁ hrest

/-- In every state that is reached, what was seen is one-time initialisation, and at most one caller runs the
initialisation. -/
theorem run_oneTime (ho : o.Implements meaning) {w : W} (hw : meaning .idle w) (ms : List (OnceMove C))
    (hrun : (init w).run o ms = some s) :
    OneTime s.trace ∧
      ∀ c d, s.pc c = .initialising .running → s.pc d = .initialising .running → c = d := by
  obtain ⟨p, h⟩ := run_sim ho (sim_init hw) ms hrun
  refine ⟨h.trace.oneTime, fun c d hc hd => ?_⟩
  injection ((h.pc c _).1 hc).symm.trans ((h.pc d _).1 hd)

end OnceState

end Lib
