import MiosixKernel.Lib.Word
import MiosixKernel.Sched.Sleeping

/-!
# Going to sleep

A thread sleeps for a time or until a time, in nanoseconds, and the time is stored in the list of sleeping
threads as a signed number of 64 bits. Sums and products beyond that range wrap around.

* `nanoSleepUntil`, `nanoSleep`, `threadSleep`, `timespec2ll`, `clockNanosleep`, `nanosleep`: the code;
* `SleepCall`, `requested`: the calls, and the exact time until which a thread asks to sleep;
* **`call_of_sleeps`**: the time that is stored;
* **`notShortened_iff`**: when a sleep is not shortened.
-/

namespace Miosix

open Lib

/-- The value that a `long long` holds. -/
def longLong (x : ℤ) : ℤ := i64 (u64 x)

theorem longLong_of_mem {x : ℤ} (h0 : -2 ^ 63 ≤ x) (h1 : x < 2 ^ 63) : longLong x = x := i64_u64 h0 h1

theorem longLong_bounds (x : ℤ) : -2 ^ 63 ≤ longLong x ∧ longLong x < 2 ^ 63 := by
  have := u64_lt x
  unfold longLong i64
  split_ifs <;> omega

theorem longLong_emod (x : ℤ) : longLong x % 2 ^ 64 = x % 2 ^ 64 := by
  unfold longLong i64 u64
  split_ifs <;> omega

/-- Two numbers that are the same modulo `2 ^ 64` are stored as the same. -/
theorem longLong_congr {x y : ℤ} (h : x % 2 ^ 64 = y % 2 ^ 64) : longLong x = longLong y := by
  unfold longLong u64
  rw [h]

theorem longLong_add (x y : ℤ) : longLong (longLong x + y) = longLong (x + y) := by
  refine longLong_congr ?_
  rw [← Int.emod_add_emod, longLong_emod, Int.emod_add_emod]

/-! ## The code -/

def nsPerSec : ℤ := 1000000000

/-- A flag of `clock_nanosleep`: the time is absolute. -/
def TIMER_ABSTIME : ℤ := 4

/-- Convert from a `timespec` to nanoseconds. -/
def timespec2ll (tvSec tvNsec : ℤ) : ℤ := longLong (longLong (tvSec * nsPerSec) + tvNsec)

namespace Sleeping

variable {D T : Type} [DecidableEq D] [DecidableEq T] (fuel : ℕ) (s : Sleeping D T) (d : D) (cur : T) (now : ℤ)

/-- The running thread sleeps with the new `SleepData` `d`. Absolute sleeps with too low values are not allowed. -/
def nanoSleepUntil (absoluteTimeNs : ℤ) : Option (Sleeping D T) := s.add fuel d cur (max absoluteTimeNs 100000)

/-- `now` is what `getTime` returns. -/
def nanoSleep (ns : ℤ) : Option (Sleeping D T) :=
  if ns ≤ 0 then some s else s.nanoSleepUntil fuel d cur (longLong (now + ns))

/-- `Thread::sleep`. The product has 64 bits, and becomes a `long long`. -/
def threadSleep (ms : ℕ) : Option (Sleeping D T) := s.nanoSleep fuel d cur now (longLong (ms * 1000000))

def clockNanosleep (flags tvSec tvNsec : ℤ) : Option (Sleeping D T) :=
  let timeNs := timespec2ll tvSec tvNsec
  let timeNs := if flags ≠ TIMER_ABSTIME then longLong (timeNs + now) else timeNs
  s.nanoSleepUntil fuel d cur timeNs

def nanosleep (tvSec tvNsec : ℤ) : Option (Sleeping D T) := s.clockNanosleep fuel d cur now 0 tvSec tvNsec

/-- A call that puts the thread that makes it to sleep. -/
inductive SleepCall where
  | sleep (ms : ℕ)
  | nanoSleep (ns : ℤ)
  | clockNanosleep (flags tvSec tvNsec : ℤ)
  | nanosleep (tvSec tvNsec : ℤ)

def call : SleepCall → Option (Sleeping D T)
  | .sleep ms => s.threadSleep fuel d cur now ms
  | .nanoSleep ns => s.nanoSleep fuel d cur now ns
  | .clockNanosleep flags tvSec tvNsec => s.clockNanosleep fuel d cur now flags tvSec tvNsec
  | .nanosleep tvSec tvNsec => s.nanosleep fuel d cur now tvSec tvNsec

namespace SleepCall

/-- The arguments have their types, and a `timespec` is normalized. -/
def Valid : SleepCall → Prop
  | sleep ms => ms < 2 ^ 32
  | nanoSleep ns => -2 ^ 63 ≤ ns ∧ ns < 2 ^ 63
  | clockNanosleep _ tvSec tvNsec | nanosleep tvSec tvNsec =>
    -2 ^ 63 ≤ tvSec ∧ tvSec < 2 ^ 63 ∧ 0 ≤ tvNsec ∧ tvNsec < nsPerSec

/-- The exact time until which the thread is to sleep. -/
def requested (now : ℤ) : SleepCall → ℤ
  | sleep ms => now + ms * 1000000
  | nanoSleep ns => now + ns
  | clockNanosleep flags tvSec tvNsec =>
    if flags = TIMER_ABSTIME then tvSec * nsPerSec + tvNsec else now + (tvSec * nsPerSec + tvNsec)
  | nanosleep tvSec tvNsec => now + (tvSec * nsPerSec + tvNsec)

/-- The call returns at once, because the thread is not to sleep for any time. -/
def Returns : SleepCall → Prop
  | sleep ms => ms = 0
  | nanoSleep ns => ns ≤ 0
  | clockNanosleep _ _ _ | nanosleep _ _ => False

end SleepCall

variable {fuel s d cur now} {c : SleepCall}

theorem timespec2ll_eq (tvSec tvNsec : ℤ) : timespec2ll tvSec tvNsec = longLong (tvSec * nsPerSec + tvNsec) :=
  longLong_add _ _

theorem clockNanosleep_eq (flags tvSec tvNsec : ℤ) : s.clockNanosleep fuel d cur now flags tvSec tvNsec =
    s.nanoSleepUntil fuel d cur (longLong ((SleepCall.clockNanosleep flags tvSec tvNsec).requested now)) := by
  unfold clockNanosleep SleepCall.requested
  rw [timespec2ll_eq]
  dsimp only
  by_cases h : flags = TIMER_ABSTIME
  · simp only [h, ne_eq, not_true, if_false, if_true]
  · rw [if_pos h, if_neg h, longLong_add, add_comm]

theorem threadSleep_eq {ms : ℕ} (h : ms < 2 ^ 32) :
    s.threadSleep fuel d cur now ms = s.nanoSleep fuel d cur now (ms * 1000000) := by
  rw [threadSleep, longLong_of_mem (by omega) (by omega)]

theorem call_of_returns (hc : c.Valid) (h : c.Returns) : s.call fuel d cur now c = some s := by
  cases c with
  | sleep ms =>
    obtain rfl : ms = 0 := h
    rw [call, threadSleep_eq hc]
    exact if_pos le_rfl
  | nanoSleep ns => exact if_pos h
  | clockNanosleep flags tvSec tvNsec => exact h.elim
  | nanosleep tvSec tvNsec => exact h.elim

/-- **The time that is stored** is the exact one, wrapped around, with a lower limit. -/
theorem call_of_sleeps (hc : c.Valid) (h : ¬ c.Returns) :
    s.call fuel d cur now c = s.add fuel d cur (max (longLong (c.requested now)) 100000) := by
  cases c with
  | sleep ms =>
    have hms : 0 < ms := Nat.pos_of_ne_zero h
    rw [call, threadSleep_eq hc]
    exact if_neg (by omega)
  | nanoSleep ns => exact if_neg h
  | clockNanosleep flags tvSec tvNsec => exact clockNanosleep_eq flags tvSec tvNsec
  | nanosleep tvSec tvNsec => exact clockNanosleep_eq 0 tvSec tvNsec

/-- The thread enters the list with a time that is not before the one that it asks for, or before the last one
that there is. -/
def NotShortened (fuel : ℕ) (s : Sleeping D T) (d : D) (cur : T) (now : ℤ) (c : SleepCall) : Prop :=
  ∃ s', s.call fuel d cur now c = some s' ∧ (¬ c.Returns → min (c.requested now) (2 ^ 63 - 1) ≤ s'.wakeupTime d)

/-- What wraps around is too early, except for the one value that is the last time. -/
theorem min_le_stored_iff (x : ℤ) :
    min x (2 ^ 63 - 1) ≤ max (longLong x) 100000 ↔ x < 2 ^ 63 ∨ x % 2 ^ 64 = 2 ^ 63 - 1 := by
  obtain ⟨h0, h1⟩ := longLong_bounds x
  have hmod := longLong_emod x
  omega

theorem requested_lt_of_returns (hnow : now < 2 ^ 63) (h : c.Returns) : c.requested now < 2 ^ 63 := by
  cases c with
  | sleep ms =>
    obtain rfl : ms = 0 := h
    simpa [SleepCall.requested] using hnow
  | nanoSleep ns =>
    have hns : ns ≤ 0 := h
    change now + ns < 2 ^ 63
    omega
  | clockNanosleep flags tvSec tvNsec => exact h.elim
  | nanosleep tvSec tvNsec => exact h.elim

/-- **A sleep is not shortened** exactly if the time until which the thread is to sleep fits in a `long long`, or
is the last time that does modulo `2 ^ 64`. -/
theorem notShortened_iff {l : List (Entry D T)} (h : s.Inv l) (hfuel : l.length ≤ fuel) (hd : ∀ e ∈ l, e.item ≠ d)
    (hcur : ∀ e ∈ l, e.thread ≠ cur) (hnow : now < 2 ^ 63) (hc : c.Valid) :
    NotShortened fuel s d cur now c ↔ c.requested now < 2 ^ 63 ∨ c.requested now % 2 ^ 64 = 2 ^ 63 - 1 := by
  by_cases hret : c.Returns
  · exact iff_of_true ⟨s, call_of_returns hc hret, fun hn => absurd hret hn⟩ (.inl (requested_lt_of_returns hnow hret))
  · obtain ⟨s', hadd, hinv⟩ :=
      add_spec (e := ⟨d, cur, max (longLong (c.requested now)) 100000⟩) h hfuel hd hcur
    have hmem := (addEntry_perm l ⟨d, cur, max (longLong (c.requested now)) 100000⟩).mem_iff.2 List.mem_cons_self
    have htime : s'.wakeupTime d = max (longLong (c.requested now)) 100000 := (hinv.data _ hmem).2
    rw [← min_le_stored_iff, ← htime]
    constructor
    · rintro ⟨s'', hcall, hle⟩
      obtain rfl := Option.some.inj (hadd.symm.trans ((call_of_sleeps hc hret).symm.trans hcall))
      exact hle hret
    · exact fun hle => ⟨s', (call_of_sleeps hc hret).trans hadd, fun _ => hle⟩

/-- A second after boot, a thread sleeps for a millisecond. -/
theorem notShortened_one_ms :
    NotShortened 1 (init (fun _ : ℕ => (none : Option ℕ)) fun _ => 0) 0 0 1000000000 (.sleep 1) :=
  (notShortened_iff (init_inv _ _) (Nat.zero_le _) (by simp) (by simp) (by norm_num)
    (by norm_num [SleepCall.Valid])).2 (.inl (by norm_num [SleepCall.requested]))

/-- A nanosecond after boot, a thread that is to sleep for the longest time is woken after 100 μs. -/
theorem not_notShortened_forever :
    ¬ NotShortened 1 (init (fun _ : ℕ => (none : Option ℕ)) fun _ => 0) 0 0 1 (.nanoSleep (2 ^ 63 - 1)) := by
  rintro ⟨s', hcall, hle⟩
  have hrun : (call 1 (init (fun _ : ℕ => (none : Option ℕ)) fun _ => 0) 0 0 1 (.nanoSleep (2 ^ 63 - 1))).map
      (fun s => s.wakeupTime 0) = some 100000 := by decide +kernel
  rw [hcall, Option.map_some, Option.some.injEq] at hrun
  have hsleeps := hle (by norm_num [SleepCall.Returns])
  rw [hrun] at hsleeps
  revert hsleeps
  norm_num [SleepCall.requested]

end Sleeping

end Miosix
