import MiosixKernel.Process.Alloc
import MiosixKernel.Process.Mpu

/-!
# Memory isolation of processes

A process gets its image from the pool and its protection registers from the image. Processes come and
go in any order; where the scan of the pool leaves its bitmap there is no next state, so a creation is
looked at only when the scan stops before that.

* `ProcessMemory`, `createProcess`: a process, and what its constructor does to memory;
* `ProcessSystem`, `Event`, `step`, `run`: histories of creations and destructions;
* `RunMeetsBitmap`: the scan of the pool stays in its bitmap at every creation;
* `Separate`: each live process owns its own block of the pool;
* **`run_isolated`**: whatever a process may write is in its own image, and nothing of it is in the
  image of another process or in the code.
-/

namespace Miosix

open Lib

/-- Where the program files are. -/
structure ElfPool where
  elfPoolStart : ℕ
  elfPoolEnd : ℕ

/-- The addresses of the program files. -/
def ElfPool.files (elf : ElfPool) : Set ℕ := {a | elf.elfPoolStart ≤ a ∧ a < elf.elfPoolEnd}

/-- The addresses of the pool. -/
def PoolRegion.addresses (r : PoolRegion) : Set ℕ :=
  {a | r.poolBase ≤ a ∧ a < r.poolBase + r.poolSize}

/-- The size of the region of the program files. -/
def ElfPool.regionSize (elf : ElfPool) : ℕ := roundSizeForMPU ((elf.elfPoolEnd - elf.elfPoolStart) / 4 * 4)

/-- The region of the program files, which every process may read and execute. -/
def ElfPool.codeRegion (elf : ElfPool) : Set ℕ :=
  (MPUConfiguration.new elf.elfPoolStart elf.regionSize 0 0).code

/-- The memory of a process: its image and the registers that protect it. -/
structure ProcessMemory where
  image : ℕ
  size : ℕ
  mpu : MPUConfiguration

/-- The addresses of the image. -/
def ProcessMemory.block (P : ProcessMemory) : Set ℕ := {a | P.image ≤ a ∧ a < P.image + P.size}

/-- The constructor of a process, for a program whose image has the given size. The whole memory of
the program files is made readable. -/
def createProcess (elf : ElfPool) (size : ℕ) : PoolM ProcessMemory := do
  let image ← ProcessPool.allocate size
  let elfPoolSize := roundSizeForMPU ((elf.elfPoolEnd - elf.elfPoolStart) / 4 * 4)
  pure { image, size, mpu := .new elf.elfPoolStart elfPoolSize image size }

structure ProcessSystem where
  pool : ProcessPool
  live : ℕ → Option ProcessMemory

namespace ProcessSystem

inductive Event where
  | create (pid size : ℕ)
  | destroy (pid : ℕ)

/-- One creation or destruction. There is no next state after an access outside the bitmap. -/
def step (elf : ElfPool) (s : ProcessSystem) : Event → Option ProcessSystem
  | .create pid size =>
    match s.live pid, createProcess elf size s.pool with
    | some _, _ => some s
    | none, .ok P pool => some ⟨pool, Function.update s.live pid (some P)⟩
    | none, .error .runtimeError pool => some ⟨pool, s.live⟩
    | none, .error .badAlloc pool => some ⟨pool, s.live⟩
    | none, .error _ _ => none
  | .destroy pid =>
    match s.live pid with
    | none => some s
    | some P =>
      match ProcessPool.deallocate P.image s.pool with
      | .ok _ pool => some ⟨pool, Function.update s.live pid none⟩
      | .error _ _ => none

def run (elf : ElfPool) : ProcessSystem → List Event → Option ProcessSystem
  | s, [] => some s
  | s, e :: events => (s.step elf e).bind fun s' => run elf s' events

def init (r : PoolRegion) : ProcessSystem := ⟨.new r, fun _ => none⟩

/-- A creation asks for a size that the pool can serve, or refuse, without leaving its bitmap. -/
def MeetsBitmap (s : ProcessSystem) : Event → Prop
  | .create pid size => s.live pid = none → s.pool.MeetsBitmap (.allocate size)
  | .destroy _ => True

/-- Every event of the history meets the condition where it happens. -/
def RunMeetsBitmap (elf : ElfPool) : ProcessSystem → List Event → Prop
  | _, [] => True
  | s, e :: events => s.MeetsBitmap e ∧ ∀ s', s.step elf e = some s' → RunMeetsBitmap elf s' events

/-! ## Ownership of blocks -/

/-- What the constructor gives a process. -/
structure Owns (elf : ElfPool) (pool : ProcessPool) (P : ProcessMemory) : Prop where
  allocated : pool.allocatedBlocks P.image = some P.size
  power : ∃ k, 10 ≤ k ∧ k < 32 ∧ P.size = 2 ^ k
  mpu : P.mpu = .new elf.elfPoolStart elf.regionSize P.image P.size

/-- Each live process owns its own block of the pool. -/
structure Separate (elf : ElfPool) (r : PoolRegion) (s : ProcessSystem) : Prop where
  good : s.pool.Good
  region : s.pool.toPoolRegion = r
  owns : ∀ pid P, s.live pid = some P → Owns elf s.pool P
  distinct : ∀ pid qid P Q, s.live pid = some P → s.live qid = some Q → pid ≠ qid → P.image ≠ Q.image

variable {elf : ElfPool} {r : PoolRegion} {s s' : ProcessSystem} {pid size : ℕ}

theorem init_separate (elf : ElfPool) (r : PoolRegion) : (init r).Separate elf r where
  good := ProcessPool.new_good r
  region := rfl
  owns := fun _ _ h => by cases h
  distinct := fun _ _ _ _ h => by cases h

theorem power_of_validSize {pool : ProcessPool} (h : pool.ValidSize size) :
    ∃ k, 10 ≤ k ∧ k < 32 ∧ size = 2 ^ k := by
  have hlt := pool.size_lt
  obtain ⟨hpow, hle, hge⟩ := h
  obtain ⟨k, rfl⟩ := (Nat.and_sub_one_eq_zero_iff_isPowerOfTwo (by omega)).mp hpow
  refine ⟨k, ?_, ?_, rfl⟩
  · exact (Nat.pow_le_pow_iff_right (a := 2) (by norm_num)).mp (by omega)
  · exact (Nat.pow_lt_pow_iff_right (a := 2) (by norm_num)).mp (by omega)

theorem createProcess_ok {pool pool' : ProcessPool} {image : ℕ}
    (h : ProcessPool.allocate size pool = .ok image pool') :
    createProcess elf size pool = .ok ⟨image, size, .new elf.elfPoolStart
      (roundSizeForMPU ((elf.elfPoolEnd - elf.elfPoolStart) / 4 * 4)) image size⟩ pool' := by
  simp only [createProcess, bind, EStateM.bind, h, pure, EStateM.pure]

theorem createProcess_error {pool pool' : ProcessPool} {e : PoolError}
    (h : ProcessPool.allocate size pool = .error e pool') :
    createProcess elf size pool = .error e pool' := by
  simp only [createProcess, bind, EStateM.bind, h]

/-- **How a creation ends**: the process owns a free block, or nothing changes. -/
theorem createProcess_cases (pool : ProcessPool) (hs : pool.Good) (elf : ElfPool) (size : ℕ) :
    (∃ P pool', createProcess elf size pool = .ok P pool' ∧ pool'.Good ∧
      pool'.toPoolRegion = pool.toPoolRegion ∧ Owns elf pool' P ∧
      pool.allocatedBlocks P.image = none ∧
      ∀ q, q ≠ P.image → pool'.allocatedBlocks q = pool.allocatedBlocks q) ∨
    ∃ e, createProcess elf size pool = .error e pool := by
  by_cases hv : pool.ValidSize size
  · rcases ProcessPool.allocate_cases hs hv with ⟨i, b, he, hb, hfit, hal, hfree⟩ | ⟨he, -⟩ | ⟨he, -⟩
    · have hsize := hv.2.2
      refine .inl ⟨_, _, createProcess_ok he, ProcessPool.take_good hs hv hb hfit hal hfree, rfl,
        ⟨?_, power_of_validSize hv, rfl⟩, hfree.eq_none hs (by omega), fun q hq => ?_⟩
      · simp [ProcessPool.take, blockSize_eq]
      · simp only [ProcessPool.take, blockSize_eq]
        exact Function.update_of_ne hq _ _
    · exact .inr ⟨_, createProcess_error he⟩
    · exact .inr ⟨_, createProcess_error he⟩
  · exact .inr ⟨_, createProcess_error (ProcessPool.allocate_invalid hv)⟩

theorem Owns.congr {pool pool' : ProcessPool} {P : ProcessMemory} (h : Owns elf pool P)
    (heq : pool'.allocatedBlocks P.image = pool.allocatedBlocks P.image) : Owns elf pool' P :=
  ⟨heq.trans h.allocated, h.power, h.mpu⟩

theorem create_separate (hs : s.Separate elf r) (h : s.step elf (.create pid size) = some s') :
    s'.Separate elf r := by
  rw [step] at h
  cases hlive : s.live pid with
  | some P =>
    rw [hlive] at h
    cases h
    exact hs
  | none =>
    rw [hlive] at h
    rcases createProcess_cases s.pool hs.good elf size with
      ⟨P, pool', he, hgood, hregion, howns, hnone, hother⟩ | ⟨e, he⟩
    · rw [he] at h
      cases h
      -- an image that was live before is still allocated, so it is not the new one
      have hne : ∀ q Q, s.live q = some Q → Q.image ≠ P.image := by
        intro q Q hq heq
        have := (hs.owns q Q hq).allocated
        rw [heq, hnone] at this
        cases this
      have hold : ∀ q Q, Function.update s.live pid (some P) q = some Q →
          (q = pid ∧ Q = P) ∨ (q ≠ pid ∧ s.live q = some Q) := by
        intro q Q hq
        by_cases hqp : q = pid
        · left
          subst hqp
          exact ⟨rfl, by simpa using hq.symm⟩
        · right
          rw [Function.update_of_ne hqp] at hq
          exact ⟨hqp, hq⟩
      refine ⟨hgood, hregion.trans hs.region, fun q Q hq => ?_, fun q q' Q Q' hq hq' hqq => ?_⟩
      · rcases hold q Q hq with ⟨-, rfl⟩ | ⟨-, hq⟩
        · exact howns
        · exact (hs.owns q Q hq).congr (hother _ (hne q Q hq))
      · rcases hold q Q hq with ⟨rfl, rfl⟩ | ⟨-, hq₁⟩ <;>
          rcases hold q' Q' hq' with ⟨rfl, rfl⟩ | ⟨-, hq₂⟩
        · exact absurd rfl hqq
        · exact (hne q' Q' hq₂).symm
        · exact hne q Q hq₁
        · exact hs.distinct q q' Q Q' hq₁ hq₂ hqq
    · rw [he] at h
      cases e <;> cases h <;> exact ⟨hs.good, hs.region, hs.owns, hs.distinct⟩

theorem destroy_separate (hs : s.Separate elf r) (h : s.step elf (.destroy pid) = some s') :
    s'.Separate elf r := by
  rw [step] at h
  cases hlive : s.live pid with
  | none =>
    rw [hlive] at h
    cases h
    exact hs
  | some P =>
    have hP := (hs.owns pid P hlive).allocated
    obtain ⟨b, he, hsize, hhas⟩ := ProcessPool.deallocate_some hs.good hP
    simp only [hlive, he, Option.some.injEq] at h
    subst h
    have hold : ∀ q Q, Function.update s.live pid none q = some Q → q ≠ pid ∧ s.live q = some Q := by
      intro q Q hq
      by_cases hqp : q = pid
      · rw [hqp, Function.update_self] at hq
        cases hq
      · rw [Function.update_of_ne hqp] at hq
        exact ⟨hqp, hq⟩
    refine ⟨ProcessPool.release_good hs.good hP hsize hhas, hs.region, fun q Q hq => ?_,
      fun q q' Q Q' hq hq' => ?_⟩
    · obtain ⟨hqp, hq⟩ := hold q Q hq
      have hne : Q.image ≠ P.image := hs.distinct q pid Q P hq hlive hqp
      refine (hs.owns q Q hq).congr ?_
      simp only [ProcessPool.release]
      rw [Function.update_of_ne hne]
    · exact hs.distinct q q' Q Q' (hold q Q hq).2 (hold q' Q' hq').2

/-- **One event** keeps the processes separate. -/
theorem step_separate (hs : s.Separate elf r) (e : Event) (h : s.step elf e = some s') :
    s'.Separate elf r := by
  cases e with
  | create pid size => exact create_separate hs h
  | destroy pid => exact destroy_separate hs h

/-- A creation that meets the condition fails with an exception, if it fails. -/
theorem createProcess_exception {pool pool' : ProcessPool} (hs : pool.Good)
    (hm : pool.MeetsBitmap (.allocate size)) {e : PoolError}
    (h : createProcess elf size pool = .error e pool') : e = .runtimeError ∨ e = .badAlloc := by
  cases halloc : ProcessPool.allocate size pool with
  | ok image pool₁ =>
    rw [createProcess_ok halloc] at h
    cases h
  | error e₁ pool₁ =>
    rw [createProcess_error halloc] at h
    cases h
    have hexec : (ProcessPool.Call.allocate size).exec pool = .error e pool' := by
      rw [ProcessPool.exec_allocate, halloc]
    exact ((ProcessPool.callCorrect_iff hs _).mpr hm).bounds e pool' hexec

/-- **One event** that meets the condition has a next state. -/
theorem step_isSome (hs : s.Separate elf r) (e : Event) (hm : s.MeetsBitmap e) :
    ∃ s', s.step elf e = some s' := by
  cases e with
  | create pid size =>
    rw [step]
    cases hlive : s.live pid with
    | some P => exact ⟨s, rfl⟩
    | none =>
      cases hcreate : createProcess elf size s.pool with
      | ok P pool => exact ⟨_, rfl⟩
      | error e pool => obtain rfl | rfl := createProcess_exception hs.good (hm hlive) hcreate <;> exact ⟨_, rfl⟩
  | destroy pid =>
    rw [step]
    cases hlive : s.live pid with
    | none => exact ⟨s, rfl⟩
    | some P =>
      obtain ⟨b, he, -⟩ := ProcessPool.deallocate_some hs.good (hs.owns pid P hlive).allocated
      exact ⟨⟨s.pool.release b P.image, Function.update s.live pid none⟩, by simp only [he]⟩

/-- **A whole run** whose events meet the condition ends, and keeps the processes separate. -/
theorem run_separate (hs : s.Separate elf r) (events : List Event) (hm : s.RunMeetsBitmap elf events) :
    ∃ s', run elf s events = some s' ∧ s'.Separate elf r := by
  induction events generalizing s with
  | nil => exact ⟨s, rfl, hs⟩
  | cons e events ih =>
    obtain ⟨s₁, hstep⟩ := step_isSome hs e hm.1
    obtain ⟨s', hrun, hs'⟩ := ih (step_separate hs e hstep) (hm.2 s₁ hstep)
    exact ⟨s', by rw [run, hstep, Option.bind_some, hrun], hs'⟩

/-! ## Isolation -/

/-- Two live processes share no byte. -/
theorem Separate.disjoint (hs : s.Separate elf r) {qid a : ℕ} {P Q : ProcessMemory}
    (hP : s.live pid = some P) (hQ : s.live qid = some Q) (hne : qid ≠ pid) (ha : a ∈ P.block) :
    a ∉ Q.block := by
  intro haQ
  refine hs.good.disjoint Q.image Q.size P.image P.size (hs.owns qid Q hQ).allocated
    (hs.owns pid P hP).allocated (hs.distinct qid pid Q P hQ hP hne) ⟨a, haQ, ha⟩

/-- The image of a live process is in the pool. -/
theorem Separate.block_subset (hs : s.Separate elf r) {a : ℕ} {P : ProcessMemory}
    (hP : s.live pid = some P) (ha : a ∈ P.block) : a ∈ r.addresses := by
  obtain ⟨hle, hend⟩ := hs.good.inside _ _ (hs.owns pid P hP).allocated
  rw [hs.region] at hle hend
  exact ⟨hle.trans ha.1, lt_of_lt_of_le ha.2 hend⟩

/-- What the registers of a live process let it do. -/
theorem Separate.mpu_spec (hs : s.Separate elf r) {P : ProcessMemory} (hP : s.live pid = some P) :
    P.mpu.writable = P.block ∧ ∀ ptr size : BitVec 32, P.mpu.withinForWriting ptr size = true →
      P.image ≤ ptr.toNat ∧ ptr.toNat + size.toNat < P.image + P.size ∧
        P.image + P.size < 2 ^ 32 := by
  obtain ⟨hal, ⟨k, hk10, hk, hsize⟩, hmpu⟩ := hs.owns pid P hP
  have haligned := hs.good.aligned _ _ hal
  obtain ⟨hle, hend⟩ := hs.good.inside _ _ hal
  have haddr := s.pool.addressable
  have hpos := (hs.good.whole _ _ hal).2
  rw [hmpu, ProcessMemory.block]
  rw [hsize] at haligned hend hpos ⊢
  refine ⟨MPUConfiguration.writable_eq (by omega) hk haligned (by omega), fun ptr size h => ?_⟩
  exact (MPUConfiguration.withinForWriting_iff (by omega) hk haligned (by omega) ptr size).mp h

theorem Separate.code_eq (hs : s.Separate elf r) {P : ProcessMemory} (hP : s.live pid = some P) :
    P.mpu.code = elf.codeRegion := by
  rw [(hs.owns pid P hP).mpu]
  rfl

/-- **Memory isolation.** A history of creations and destructions in which the scan of the pool stays in its
bitmap goes on to its end. Then the memory that the registers of a live process let it write is its block of
the pool; and the bytes that the kernel would write for it, wrapping around at the end of memory, are in that
block, in the block of no other process, not in the program files, if they are outside the pool, and not in
their region, if that is outside the pool. -/
theorem run_isolated (elf : ElfPool) (r : PoolRegion) (events : List Event)
    (h : (init r).RunMeetsBitmap elf events) :
    ∃ s, run elf (init r) events = some s ∧ ∀ pid P, s.live pid = some P →
      s.pool.allocatedBlocks P.image = some P.size ∧ P.mpu.writable = P.block ∧
      P.block ⊆ r.addresses ∧ P.mpu.code = elf.codeRegion ∧
      ∀ ptr size : BitVec 32, 0 < size → P.mpu.withinForWriting ptr size = true →
        ∀ i < size.toNat,
          (ptr + BitVec.ofNat 32 i).toNat ∈ P.block ∧
          (∀ qid Q, s.live qid = some Q → qid ≠ pid → (ptr + BitVec.ofNat 32 i).toNat ∉ Q.block) ∧
          ((∀ a ∈ elf.files, a ∉ r.addresses) → (ptr + BitVec.ofNat 32 i).toNat ∉ elf.files) ∧
          ((∀ a ∈ elf.codeRegion, a ∉ r.addresses) → (ptr + BitVec.ofNat 32 i).toNat ∉ elf.codeRegion) := by
  obtain ⟨s, hrun, hs⟩ := run_separate (init_separate elf r) events h
  refine ⟨s, hrun, fun pid P hP => ?_⟩
  obtain ⟨hwritable, hwithin⟩ := hs.mpu_spec hP
  refine ⟨(hs.owns pid P hP).allocated, hwritable, fun a ha => hs.block_subset hP ha, hs.code_eq hP,
    fun ptr size _ hw i hi => ?_⟩
  obtain ⟨hle, hlt, hend⟩ := hwithin ptr size hw
  have haddr : (ptr + BitVec.ofNat 32 i).toNat = ptr.toNat + i := by
    rw [BitVec.toNat_add, BitVec.toNat_ofNat]
    omega
  have hblock : (ptr + BitVec.ofNat 32 i).toNat ∈ P.block := by
    rw [haddr]
    exact ⟨by omega, by omega⟩
  have hpool := hs.block_subset hP hblock
  exact ⟨hblock, fun qid Q hQ hne => hs.disjoint hP hQ hne hblock, fun hfiles ha => hfiles _ ha hpool,
    fun hcode ha => hcode _ ha hpool⟩

/-- Flash at its usual address, and two processes in a pool of 32 KBytes. -/
theorem run_isolated_twoProcesses :
    ∃ s P Q, run ⟨0x08000000, 0x08100000⟩ (init ProcessPool.region32K)
      [.create 1 1024, .create 2 2048] = some s ∧ s.live 1 = some P ∧ s.live 2 = some Q ∧
      P.mpu.withinForWriting 0x20008000#32 1023#32 = true ∧
      P.mpu.writable = P.block ∧ (0x20008000#32 + BitVec.ofNat 32 1022).toNat ∉ Q.block := by
  have hmeets : (init ProcessPool.region32K).RunMeetsBitmap ⟨0x08000000, 0x08100000⟩
      [.create 1 1024, .create 2 2048] := by
    refine ⟨fun _ _ => .inl ⟨0x20008000, by decide, by decide, by decide, nofun⟩, fun s' hs' => ?_⟩
    have hgood := (step_separate (init_separate _ ProcessPool.region32K) _ hs').good
    obtain ⟨hregion, hbits⟩ : s'.pool.toPoolRegion = ProcessPool.region32K ∧ ¬s'.pool.Blocked 2 2 := by
      obtain rfl := Option.some.inj hs'
      refine ⟨rfl, ?_⟩
      rw [ProcessPool.Blocked]
      decide
    have hfree := (not_congr (ProcessPool.blocked_iff hgood)).mp hbits
    rw [not_not, hregion] at hfree
    refine ⟨fun _ _ => .inl ⟨0x20008800, by decide, ?_, ?_, hfree⟩, fun _ _ => trivial⟩
    · rw [hregion]
      decide
    · rw [ProcessPool.mappedEnd, hregion]
      decide
  obtain ⟨s, hrun, hisolated⟩ := run_isolated _ _ _ hmeets
  obtain ⟨P, Q, hP, hQ, hw⟩ : ∃ P Q, s.live 1 = some P ∧ s.live 2 = some Q ∧
      P.mpu.withinForWriting 0x20008000#32 1023#32 = true := by
    obtain rfl := Option.some.inj hrun
    exact ⟨_, _, rfl, rfl, by decide⟩
  obtain ⟨-, hwritable, -, -, hwithin⟩ := hisolated 1 P hP
  exact ⟨s, P, Q, hrun, hP, hQ, hw, hwritable,
    (hwithin _ _ (by decide) hw 1022 (by decide)).2.1 2 Q hQ (by decide)⟩

/-- Program files of 24 KBytes right before the pool: their region has 32 KBytes, and the first blocks of the
pool are in it. -/
theorem run_isolated_codeOverlap :
    ∃ s P, run ⟨0x20000000, 0x20006000⟩
      (init ⟨0x20006000, 0x8000, by decide, by decide, by norm_num, by norm_num⟩) [.create 1 1024] = some s ∧
      s.live 1 = some P ∧ (∀ a ∈ (ElfPool.mk 0x20000000 0x20006000).files, a ∉ s.pool.toPoolRegion.addresses) ∧
      P.mpu.withinForWriting 0x20006000#32 1#32 = true ∧ (0x20006000#32).toNat ∈ P.mpu.code := by
  refine ⟨_, _, rfl, rfl, ?_, by decide, ?_⟩
  · rintro a ⟨-, ha⟩ ⟨ha', -⟩
    exact absurd ha (Nat.not_lt.mpr ha')
  · exact ⟨by decide, by decide⟩

end ProcessSystem

end Miosix
