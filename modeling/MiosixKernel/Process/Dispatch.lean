import MiosixKernel.Process.Syscall

/-!
# System call dispatch

A system call stands for one operation of the file table, or for none. Handling it is right if that operation
is performed after its checks, no other one is, and its result is returned.

* `operation`: the operation of a system call, with its parameters;
* `Right`: what handling a call should do; `Dispatched`: the condition under which it does;
* `handleSvc_memory`: an operation only gets memory that was checked, whatever the call is;
* **`handleSvc_right_iff`**: a call is handled right exactly under the condition.
-/

namespace Miosix

open MPUConfiguration

/-- The operation of a system call, with that call's parameters. -/
def SyscallParameters.operation (sp : SyscallParameters) : Syscall → Option FileOperation
  | .sysWrite => some (.write sp.first.toInt sp.second sp.third)
  | .sysRead => some (.read sp.first.toInt sp.second sp.third)
  | .sysOpen => some (.openFile sp.first sp.second.toInt
    (if sp.second &&& Process.O_CREAT ≠ 0 then sp.third.toInt else 0))
  | .sysClose => some (.close sp.first.toInt)
  | .sysLseek => some (.lseek sp.first.toInt sp.second.toNat sp.third.toInt)
  | .sysFstat => some (.fstat sp.first.toInt sp.second)
  | .sysIsatty => some (.isatty sp.first.toInt)
  | .sysStat => some (.stat sp.first sp.second)
  | .sysLstat => some (.lstat sp.first sp.second)
  | .sysFcntl => some (.fcntl sp.first.toInt sp.second.toInt sp.third.toInt)
  | .sysIoctl => some (.ioctl sp.first.toInt sp.second.toInt sp.third)
  | .sysGetdents => some (.getdents sp.first.toInt sp.second sp.third.toInt)
  | .sysGetcwd => some (.getcwd sp.first sp.second)
  | .sysChdir => some (.chdir sp.first)
  | .sysMkdir => some (.mkdir sp.first sp.second.toInt)
  | .sysRmdir => some (.rmdir sp.first)
  | .sysUnlink => some (.unlink sp.first)
  | .sysRename => some (.rename sp.first sp.second)
  | .sysExit | .sysUsleep | .sysSystem => none

/-- The operation of the call that a process makes. -/
def SvcState.operation {σ : Type} (s : SvcState σ) : Option FileOperation :=
  s.sp.getSyscallId.bind s.sp.operation

namespace Process

variable {σ : Type} (k : Kernel σ) (mpu : MPUConfiguration)

/-- The memory that an operation uses is the process's own. -/
def MemoryOk (op : FileOperation) (kernel : σ) : Prop :=
  (∀ a ∈ op.accesses k.sizeofStat, a.check mpu (k.memory kernel) = true) ∧ op.isAligned = true

/-- The value that an operation returns to the process. -/
def Returned (op : FileOperation) (kernel : σ) (ret : ℤ) : Prop :=
  (¬ MemoryOk k mpu op kernel → ret = -EFAULT) ∧
    (MemoryOk k mpu op kernel → ret = (k.fileTable op kernel).1.getD (-ENOMEM))

/-- What handling a call does, when it is right. -/
structure Right (s : SvcState σ) : Prop where
  /-- The operation of the call is performed once, after its checks. -/
  once : ∀ op, s.operation = some op → MemoryOk k mpu op s.kernel →
    (handleSvc k mpu s).2.performed = s.performed ++ [(op, s.kernel)]
  /-- No other operation is performed. -/
  none_else : (∀ op, s.operation = some op → ¬ MemoryOk k mpu op s.kernel) →
    (handleSvc k mpu s).2.performed = s.performed
  returned : ∀ op, s.operation = some op → Returned k mpu op s.kernel (handleSvc k mpu s).2.sp.first.toInt
  /-- Memory is only passed to an operation after a check. -/
  memory : ∀ e ∈ (handleSvc k mpu s).2.performed, e ∈ s.performed ∨ MemoryOk k mpu e.1 e.2
  running : (handleSvc k mpu s).1 = false ↔
    s.sp.getSyscallId = none ∨ s.sp.getSyscallId = some .sysExit

/-- The condition. The call is not `SYS_IOCTL`; if it is `SYS_STAT` or `SYS_LSTAT` the operation is reached
and throws; if it is `SYS_LSEEK` the position is one of 32 bits. -/
def Dispatched (s : SvcState σ) : Prop :=
  match s.sp.getSyscallId with
  | some .sysIoctl => False
  | some .sysStat => MemoryOk k mpu (.stat s.sp.first s.sp.second) s.kernel ∧
    (k.fileTable (.stat s.sp.first s.sp.second) s.kernel).1 = none
  | some .sysLstat => MemoryOk k mpu (.lstat s.sp.first s.sp.second) s.kernel ∧
    (k.fileTable (.lstat s.sp.first s.sp.second) s.kernel).1 = none
  | some .sysLseek => ∀ v,
    (k.fileTable (.lseek s.sp.first.toInt s.sp.second.toNat s.sp.third.toInt) s.kernel).1 = some v →
    -2 ^ 31 ≤ v ∧ v < 2 ^ 31
  | _ => True

/-! ## One operation -/

variable {k mpu} {s s' : SvcState σ} {op : FileOperation}

/-- The state after an operation was performed. -/
def afterPerform (k : Kernel σ) (s : SvcState σ) (op : FileOperation) : SvcState σ :=
  { s with performed := s.performed ++ [(op, s.kernel)], kernel := (k.fileTable op s.kernel).2 }

/-- The state with a return value. -/
def returning (s : SvcState σ) (ret : ℤ) : SvcState σ :=
  { s with sp := { s.sp with first := BitVec.ofInt 32 ret } }

/-- A case makes the checks that its operation needs. -/
theorem checks_iff {checks : List Access} {isAligned : Bool} (hc : checks = op.accesses k.sizeofStat)
    (ha : isAligned = op.isAligned) (kernel : σ) :
    (checks.all (Access.check mpu (k.memory kernel)) && isAligned) = true ↔ MemoryOk k mpu op kernel := by
  rw [hc, ha, Bool.and_eq_true, List.all_eq_true, MemoryOk]

theorem perform_eq (s : SvcState σ) (op : FileOperation) : perform k op s =
    match (k.fileTable op s.kernel).1 with
    | some v => .ok v (afterPerform k s op)
    | none => .error .exception (afterPerform k s op) := by
  show call (k.fileTable op) { s with performed := s.performed ++ [(op, s.kernel)] } = _
  rcases hr : k.fileTable op s.kernel with ⟨r, kernel⟩
  simp only [call, afterPerform, hr]
  cases r <;> rfl

section Checked

variable {checks : List Access} {isAligned : Bool}

theorem checked_refused (hc : checks = op.accesses k.sizeofStat) (ha : isAligned = op.isAligned)
    (hm : ¬ MemoryOk k mpu op s.kernel) :
    checked k mpu checks isAligned op s = .ok () (returning s (-EFAULT)) := by
  show (if (checks.all (Access.check mpu (k.memory s.kernel)) && isAligned) = true then _ else _ : SvcM σ Unit) s
    = _
  rw [if_neg ((checks_iff hc ha s.kernel).not.2 hm)]
  rfl

theorem checked_passed (hc : checks = op.accesses k.sizeofStat) (ha : isAligned = op.isAligned)
    (hm : MemoryOk k mpu op s.kernel) : checked k mpu checks isAligned op s =
      match (k.fileTable op s.kernel).1 with
      | some v => .ok () (returning (afterPerform k s op) v)
      | none => .error .exception (afterPerform k s op) := by
  show (if (checks.all (Access.check mpu (k.memory s.kernel)) && isAligned) = true then
    (do let result ← perform k op; setReturnValue result : SvcM σ Unit) else _) s = _
  rw [if_pos ((checks_iff hc ha s.kernel).2 hm)]
  show EStateM.bind (perform k op) setReturnValue s = _
  rw [EStateM.bind, perform_eq]
  cases (k.fileTable op s.kernel).1 <;> rfl

variable {α : Type} {f : Unit → SvcM σ α}

/-- What comes after an operation that is refused. -/
theorem bind_refused (hc : checks = op.accesses k.sizeofStat) (ha : isAligned = op.isAligned)
    (hm : ¬ MemoryOk k mpu op s.kernel) :
    EStateM.bind (checked k mpu checks isAligned op) f s = f () (returning s (-EFAULT)) := by
  rw [EStateM.bind, checked_refused hc ha hm]

theorem bind_returned (hc : checks = op.accesses k.sizeofStat) (ha : isAligned = op.isAligned)
    (hm : MemoryOk k mpu op s.kernel) {v : ℤ} (hr : (k.fileTable op s.kernel).1 = some v) :
    EStateM.bind (checked k mpu checks isAligned op) f s = f () (returning (afterPerform k s op) v) := by
  rw [EStateM.bind, checked_passed hc ha hm, hr]

theorem bind_thrown (hc : checks = op.accesses k.sizeofStat) (ha : isAligned = op.isAligned)
    (hm : MemoryOk k mpu op s.kernel) (hr : (k.fileTable op s.kernel).1 = none) :
    EStateM.bind (checked k mpu checks isAligned op) f s = .error .exception (afterPerform k s op) := by
  rw [EStateM.bind, checked_passed hc ha hm, hr]

end Checked

/-! ## What a part of the code performs -/

/-- The state that is left, however a case ends. -/
def final {α : Type} : EStateM.Result StdException (SvcState σ) α → SvcState σ
  | .ok _ s => s
  | .error _ s => s

theorem performed_handleSvc (k : Kernel σ) (mpu : MPUConfiguration) (s : SvcState σ) :
    (handleSvc k mpu s).2.performed = (final (dispatch k mpu s.sp.getSyscallId s)).performed := by
  rw [handleSvc]
  cases dispatch k mpu s.sp.getSyscallId s <;> rfl

/-- A part of the code that performs no operation of the file table. -/
def Silent {α : Type} (m : SvcM σ α) : Prop := ∀ s, (final (m s)).performed = s.performed

theorem Silent.bind {α β : Type} {m : SvcM σ α} {f : α → SvcM σ β} (hm : Silent m) (hf : ∀ a, Silent (f a)) :
    Silent (m >>= f) := fun s => by
  have hs := hm s
  show (final (EStateM.bind m f s)).performed = s.performed
  rw [EStateM.bind]
  cases h : m s with
  | ok a s' =>
    rw [h] at hs
    exact (hf a s').trans hs
  | error e s' =>
    rw [h] at hs
    exact hs

theorem call_silent {α : Type} (f : σ → Option α × σ) : Silent (call f) := fun s => by
  rw [call]
  split <;> rfl

theorem setReturnValue_silent (ret : ℤ) : Silent (setReturnValue (σ := σ) ret) := fun _ => rfl

theorem usleep_silent (k : Kernel σ) (sp : SyscallParameters) : Silent (usleep k sp) :=
  Silent.bind (fun _ => rfl) fun ret => setReturnValue_silent ret

theorem system_silent (k : Kernel σ) (mpu : MPUConfiguration) (sp : SyscallParameters) :
    Silent (system k mpu sp) := by
  refine Silent.bind (fun _ => rfl) fun s => ?_
  split_ifs
  · refine (call_silent _).bind fun res => ?_
    split_ifs
    · exact setReturnValue_silent _
    · refine (call_silent _).bind fun child => ?_
      exact Silent.bind (fun _ => rfl) fun ret => setReturnValue_silent _
  · exact setReturnValue_silent _

/-- A part of the code that only passes memory to an operation after the checks of that operation. -/
def Checks (k : Kernel σ) (mpu : MPUConfiguration) {α : Type} (m : SvcM σ α) : Prop :=
  ∀ s, ∀ e ∈ (final (m s)).performed, e ∈ s.performed ∨ MemoryOk k mpu e.1 e.2

theorem Silent.checks {α : Type} {m : SvcM σ α} (hm : Silent m) : Checks k mpu m := fun s e he => by
  rw [hm s] at he
  exact .inl he

theorem Checks.bind {α β : Type} {m : SvcM σ α} {f : α → SvcM σ β} (hm : Checks k mpu m)
    (hf : ∀ a, Checks k mpu (f a)) : Checks k mpu (m >>= f) := fun s e he => by
  have hs := hm s
  change e ∈ (final (EStateM.bind m f s)).performed at he
  rw [EStateM.bind] at he
  cases h : m s with
  | ok a s' =>
    rw [h] at hs he
    rcases hf a s' e he with he' | hok
    · exact hs e he'
    · exact .inr hok
  | error x s' =>
    rw [h] at hs he
    exact hs e he

theorem checked_checks {checks : List Access} {isAligned : Bool} (hc : checks = op.accesses k.sizeofStat)
    (ha : isAligned = op.isAligned) : Checks k mpu (checked k mpu checks isAligned op) := fun s e he => by
  by_cases hm : MemoryOk k mpu op s.kernel
  · have hperformed : (final (checked k mpu checks isAligned op s)).performed =
        s.performed ++ [(op, s.kernel)] := by
      rw [checked_passed hc ha hm]
      cases (k.fileTable op s.kernel).1 <;> rfl
    rw [hperformed] at he
    rcases List.mem_append.1 he with he | he
    · exact .inl he
    · obtain rfl := List.mem_singleton.1 he
      exact .inr hm
  · rw [checked_refused hc ha hm] at he
    exact .inl he

/-- A case reads its parameters, and goes on after it. -/
theorem Checks.case {f : SyscallParameters → SvcM σ Unit} {rest : SvcM σ Bool}
    (hf : ∀ sp, Checks k mpu (f sp)) (hrest : Checks k mpu rest) :
    Checks k mpu (do f (← parameters); rest) := by
  have hparameters : Silent (parameters (σ := σ)) := fun _ => rfl
  exact hparameters.checks.bind fun sp => (hf sp).bind fun _ => hrest

theorem dispatch_checks (c : Option Syscall) : Checks k mpu (dispatch k mpu c) := by
  have hpure (b : Bool) : Checks k mpu (pure b : SvcM σ Bool) := Silent.checks fun _ => rfl
  have hfcntl (sp : SyscallParameters) : Checks k mpu (fcntl k mpu sp) := checked_checks rfl rfl
  have hlstat (sp : SyscallParameters) : Checks k mpu (lstat k mpu sp) := checked_checks rfl rfl
  rcases c with _ | c
  · exact Silent.checks fun _ => rfl
  cases c with
  | sysExit => exact .case (fun sp => Silent.checks fun _ => rfl) (hpure _)
  | sysUsleep => exact .case (fun sp => (usleep_silent k sp).checks) (hpure _)
  | sysSystem => exact .case (fun sp => (system_silent k mpu sp).checks) (hpure _)
  | sysStat => exact .case (fun sp => checked_checks rfl rfl) (.case hlstat (.case hfcntl (hpure _)))
  | sysLstat => exact .case hlstat (.case hfcntl (hpure _))
  | sysIoctl => exact hpure _
  | sysGetdents =>
    refine .case (fun sp => checked_checks ?_ rfl) (hpure _)
    simp [FileOperation.accesses]
  | _ => exact .case (fun sp => checked_checks rfl rfl) (hpure _)

/-- Whatever the call is, an operation only gets memory that was checked. -/
theorem handleSvc_memory (k : Kernel σ) (mpu : MPUConfiguration) (s : SvcState σ) :
    ∀ e ∈ (handleSvc k mpu s).2.performed, e ∈ s.performed ∨ MemoryOk k mpu e.1 e.2 := by
  rw [performed_handleSvc]
  exact dispatch_checks _ s

/-! ## The calls that are handled right -/

theorem handleSvc_ok {b : Bool} (h : dispatch k mpu s.sp.getSyscallId s = .ok b s') :
    handleSvc k mpu s = (b, s') := by
  rw [handleSvc, h]

theorem handleSvc_error (h : dispatch k mpu s.sp.getSyscallId s = .error .exception s') :
    handleSvc k mpu s = (true, returning s' (-ENOMEM)) := by
  rw [handleSvc, h]
  rfl

theorem toInt_ofInt {v : ℤ} (h : -2 ^ 31 ≤ v ∧ v < 2 ^ 31) : (BitVec.ofInt 32 v).toInt = v := by
  rw [BitVec.toInt_ofInt]
  exact Int.bmod_eq_of_le (by omega) (by omega)

/-- The call is not one that ends the process. -/
def Continues (s : SvcState σ) : Prop :=
  s.sp.getSyscallId ≠ none ∧ s.sp.getSyscallId ≠ some .sysExit

theorem Right.of_operation (hop : s.operation = some op) (hcont : Continues s)
    (hrun : handleSvc k mpu s = (true, s'))
    (hdone : MemoryOk k mpu op s.kernel → s'.performed = s.performed ++ [(op, s.kernel)])
    (hrefused : ¬ MemoryOk k mpu op s.kernel → s'.performed = s.performed)
    (hret : Returned k mpu op s.kernel s'.sp.first.toInt) : Right k mpu s where
  once op' h hm := by
    obtain rfl := Option.some.inj (hop.symm.trans h)
    rw [hrun]
    exact hdone hm
  none_else h := by
    rw [hrun]
    exact hrefused (h op hop)
  returned op' h := by
    obtain rfl := Option.some.inj (hop.symm.trans h)
    rwa [hrun]
  memory := handleSvc_memory k mpu s
  running := by
    rw [hrun]
    exact iff_of_false (by simp) (not_or.2 hcont)

theorem Right.of_none (hop : s.operation = none)
    (hperformed : (handleSvc k mpu s).2.performed = s.performed)
    (hrunning : (handleSvc k mpu s).1 = false ↔
      s.sp.getSyscallId = none ∨ s.sp.getSyscallId = some .sysExit) : Right k mpu s where
  once op h := by simp [hop] at h
  none_else _ := hperformed
  returned op h := by simp [hop] at h
  memory := handleSvc_memory k mpu s
  running := hrunning

section Case

variable {c : Syscall} {checks : List Access} {isAligned : Bool} {rest : SvcM σ Bool}

theorem operation_eq (hid : s.sp.getSyscallId = some c) : s.operation = s.sp.operation c := by
  rw [SvcState.operation, hid, Option.bind_some]

theorem continues_of_ne (hid : s.sp.getSyscallId = some c) (hexit : c ≠ .sysExit) : Continues s := by
  rw [Continues, hid]
  exact ⟨nofun, fun h => hexit (Option.some.inj h)⟩

/-- The operation of a case throws: what comes after it is not reached. -/
theorem right_of_thrown (hid : s.sp.getSyscallId = some c) (hexit : c ≠ .sysExit)
    (hop : s.sp.operation c = some op)
    (hd : dispatch k mpu (some c) s = EStateM.bind (checked k mpu checks isAligned op) (fun _ => rest) s)
    (hc : checks = op.accesses k.sizeofStat) (ha : isAligned = op.isAligned)
    (hm : MemoryOk k mpu op s.kernel) (hr : (k.fileTable op s.kernel).1 = none) : Right k mpu s := by
  have hrun : handleSvc k mpu s = (true, returning (afterPerform k s op) (-ENOMEM)) := by
    refine handleSvc_error ?_
    rw [hid, hd, bind_thrown hc ha hm hr]
  refine .of_operation (by rw [operation_eq hid, hop]) (continues_of_ne hid hexit) hrun (fun _ => rfl)
    (fun hn => absurd hm hn) ⟨fun hn => absurd hm hn, fun _ => ?_⟩
  rw [hr]
  exact toInt_ofInt (by decide)

/-- A case that ends with its operation. -/
theorem right_of_checked (hid : s.sp.getSyscallId = some c) (hexit : c ≠ .sysExit)
    (hop : s.sp.operation c = some op)
    (hd : dispatch k mpu (some c) s =
      EStateM.bind (checked k mpu checks isAligned op) (fun _ => pure true) s)
    (hc : checks = op.accesses k.sizeofStat) (ha : isAligned = op.isAligned)
    (hfit : ∀ v, (k.fileTable op s.kernel).1 = some v → -2 ^ 31 ≤ v ∧ v < 2 ^ 31) : Right k mpu s := by
  have hop' : s.operation = some op := by rw [operation_eq hid, hop]
  have hcont := continues_of_ne hid hexit
  by_cases hm : MemoryOk k mpu op s.kernel
  · cases hr : (k.fileTable op s.kernel).1 with
    | some v =>
      have hrun : handleSvc k mpu s = (true, returning (afterPerform k s op) v) := by
        refine handleSvc_ok ?_
        rw [hid, hd, bind_returned hc ha hm hr]
        rfl
      refine .of_operation hop' hcont hrun (fun _ => rfl) (fun hn => absurd hm hn)
        ⟨fun hn => absurd hm hn, fun _ => ?_⟩
      rw [hr]
      exact toInt_ofInt (hfit v hr)
    | none => exact right_of_thrown hid hexit hop hd hc ha hm hr
  · have hrun : handleSvc k mpu s = (true, returning s (-EFAULT)) := by
      refine handleSvc_ok ?_
      rw [hid, hd, bind_refused hc ha hm]
      rfl
    exact .of_operation hop' hcont hrun (fun h => absurd h hm) (fun _ => rfl)
      ⟨fun _ => toInt_ofInt (by decide), fun h => absurd h hm⟩

end Case

/-! ## The calls that run into the next case -/

/-- A part of the code that performs some operation, whatever the state is. -/
def Performs {α : Type} (m : SvcM σ α) : Prop := ∀ s, s.performed.length < (final (m s)).performed.length

/-- A case performs something if it is let through, or else if what comes after it does. -/
theorem performs_of_rest {checks : List Access} {isAligned : Bool} {rest : SvcM σ Bool}
    (hc : checks = op.accesses k.sizeofStat) (ha : isAligned = op.isAligned)
    (hrest : (Performs rest) ∨ (rest = pure true ∧ MemoryOk k mpu op s.kernel)) :
    s.performed.length <
      (final (EStateM.bind (checked k mpu checks isAligned op) (fun _ => rest) s)).performed.length := by
  by_cases hm : MemoryOk k mpu op s.kernel
  · cases hr : (k.fileTable op s.kernel).1 with
    | none =>
      rw [bind_thrown hc ha hm hr]
      simp [final, afterPerform]
    | some v =>
      rw [bind_returned hc ha hm hr]
      rcases hrest with hrest | ⟨rfl, -⟩
      · refine lt_trans ?_ (hrest (returning (afterPerform k s op) v))
        simp [afterPerform, returning]
      · simp [final, afterPerform, returning, pure, EStateM.pure]
  · rw [bind_refused hc ha hm]
    exact (hrest.resolve_right fun h => hm h.2) (returning s (-EFAULT))

/-- The end of the cases of `SYS_LSTAT` and `SYS_STAT`. -/
def fcntlCase (k : Kernel σ) (mpu : MPUConfiguration) : SvcM σ Bool := do
  fcntl k mpu (← parameters)
  pure true

def lstatCase (k : Kernel σ) (mpu : MPUConfiguration) : SvcM σ Bool := do
  lstat k mpu (← parameters)
  fcntlCase k mpu

/-- `fcntl` is performed whatever the parameters are. -/
theorem fcntlCase_performs : Performs (fcntlCase k mpu) := fun s => by
  have hc : [] = FileOperation.accesses k.sizeofStat
    (.fcntl s.sp.first.toInt s.sp.second.toInt s.sp.third.toInt) := rfl
  exact performs_of_rest hc rfl (.inr ⟨rfl, nofun, rfl⟩)

theorem lstatCase_performs : Performs (lstatCase k mpu) := fun s => by
  have hc : [.readingStr s.sp.first, .writing s.sp.second k.sizeofStat] =
    FileOperation.accesses k.sizeofStat (.lstat s.sp.first s.sp.second) := rfl
  exact performs_of_rest hc rfl (.inl fcntlCase_performs)

/-- A case that runs into others is right only if they are not reached. -/
theorem right_iff_of_performs {c : Syscall} {checks : List Access} {isAligned : Bool} {rest : SvcM σ Bool}
    (hid : s.sp.getSyscallId = some c) (hexit : c ≠ .sysExit) (hop : s.sp.operation c = some op)
    (hd : dispatch k mpu (some c) s = EStateM.bind (checked k mpu checks isAligned op) (fun _ => rest) s)
    (hc : checks = op.accesses k.sizeofStat) (ha : isAligned = op.isAligned) (hrest : Performs rest) :
    Right k mpu s ↔ MemoryOk k mpu op s.kernel ∧ (k.fileTable op s.kernel).1 = none := by
  have hop' : s.operation = some op := by rw [operation_eq hid, hop]
  have hperformed := performed_handleSvc k mpu s
  rw [hid, hd] at hperformed
  refine ⟨fun h => ?_, fun ⟨hm, hr⟩ => right_of_thrown hid hexit hop hd hc ha hm hr⟩
  by_cases hm : MemoryOk k mpu op s.kernel
  · refine ⟨hm, Option.eq_none_iff_forall_ne_some.2 fun v hr => ?_⟩
    have hlt := hrest (returning (afterPerform k s op) v)
    rw [bind_returned hc ha hm hr, h.once op hop' hm] at hperformed
    exact absurd (congrArg List.length hperformed) hlt.ne
  · have hnone := h.none_else fun op' h' => by
      obtain rfl := Option.some.inj (hop'.symm.trans h')
      exact hm
    have hlt := hrest (returning s (-EFAULT))
    rw [bind_refused hc ha hm, hnone] at hperformed
    exact absurd (congrArg List.length hperformed) hlt.ne

/-! ## The calls without an operation -/

theorem right_of_silent {c : Syscall} {m : SvcM σ Unit} (hid : s.sp.getSyscallId = some c)
    (hexit : c ≠ .sysExit) (hop : s.sp.operation c = none)
    (hd : dispatch k mpu (some c) s = EStateM.bind m (fun _ => pure true) s) (hm : Silent m) :
    Right k mpu s := by
  have hs := hm s
  have hperformed := performed_handleSvc k mpu s
  have hrunning : (handleSvc k mpu s).1 = true := by
    rw [handleSvc, hid, hd, EStateM.bind]
    cases m s <;> rfl
  rw [hid, hd, EStateM.bind] at hperformed
  refine .of_none (by rw [operation_eq hid, hop]) ?_ ?_
  · rw [hperformed, ← hs]
    cases m s <;> rfl
  · rw [hrunning]
    exact iff_of_false (by simp) (not_or.2 (continues_of_ne hid hexit))

/-! ## Every call -/

theorem right_ends (h : s.sp.getSyscallId = none ∨ s.sp.getSyscallId = some .sysExit) : Right k mpu s := by
  have hop : s.operation = none := by
    rcases h with h | h
    · rw [SvcState.operation, h, Option.bind_none]
    · rw [operation_eq h]
      rfl
  have hrun : (handleSvc k mpu s).1 = false ∧ (handleSvc k mpu s).2.performed = s.performed := by
    rcases h with h | h <;> rw [handleSvc, h] <;> exact ⟨rfl, rfl⟩
  exact .of_none hop hrun.2 (iff_of_true hrun.1 h)

/-- An operation that returns a 32 bit integer. -/
theorem right_of_int {c : Syscall} {checks : List Access} {isAligned : Bool}
    (hid : s.sp.getSyscallId = some c) (hexit : c ≠ .sysExit) (hop : s.sp.operation c = some op)
    (hd : dispatch k mpu (some c) s =
      EStateM.bind (checked k mpu checks isAligned op) (fun _ => pure true) s)
    (hc : checks = op.accesses k.sizeofStat) (ha : isAligned = op.isAligned) (hseek : op.isSeek = false) :
    Right k mpu s :=
  right_of_checked hid hexit hop hd hc ha fun v => k.inRange op s.kernel v hseek

/-- **When a system call is handled right**: exactly the operation of the call is performed, and its result
returned, unless the call runs into another one, has no operation yet, or returns a position that is too
large. -/
theorem handleSvc_right_iff (k : Kernel σ) (mpu : MPUConfiguration) (s : SvcState σ) :
    Right k mpu s ↔ Dispatched k mpu s := by
  unfold Dispatched
  cases hid : s.sp.getSyscallId with
  | none => exact iff_of_true (right_ends (.inl hid)) trivial
  | some c =>
    cases c with
    | sysExit => exact iff_of_true (right_ends (.inr hid)) trivial
    | sysWrite => exact iff_of_true (right_of_int hid nofun rfl rfl rfl rfl rfl) trivial
    | sysRead => exact iff_of_true (right_of_int hid nofun rfl rfl rfl rfl rfl) trivial
    | sysUsleep => exact iff_of_true (right_of_silent hid nofun rfl rfl (usleep_silent k s.sp)) trivial
    | sysOpen => exact iff_of_true (right_of_int hid nofun rfl rfl rfl rfl rfl) trivial
    | sysClose => exact iff_of_true (right_of_int hid nofun rfl rfl rfl rfl rfl) trivial
    | sysLseek =>
      refine ⟨fun h v hv => ?_, right_of_checked hid nofun rfl rfl rfl rfl⟩
      have hret := (h.returned _ (operation_eq hid)).2 ⟨nofun, rfl⟩
      rw [hv, Option.getD_some] at hret
      exact hret ▸ ⟨BitVec.le_toInt _, BitVec.toInt_lt⟩
    | sysSystem => exact iff_of_true (right_of_silent hid nofun rfl rfl (system_silent k mpu s.sp)) trivial
    | sysFstat => exact iff_of_true (right_of_int hid nofun rfl rfl rfl rfl rfl) trivial
    | sysIsatty => exact iff_of_true (right_of_int hid nofun rfl rfl rfl rfl rfl) trivial
    | sysStat => exact right_iff_of_performs hid nofun rfl rfl rfl rfl lstatCase_performs
    | sysLstat => exact right_iff_of_performs hid nofun rfl rfl rfl rfl fcntlCase_performs
    | sysFcntl => exact iff_of_true (right_of_int hid nofun rfl rfl rfl rfl rfl) trivial
    | sysIoctl =>
      refine iff_of_false (fun h => ?_) id
      have hdone := h.once _ (operation_eq hid) ⟨nofun, rfl⟩
      rw [performed_handleSvc, hid] at hdone
      exact List.append_ne_nil_of_right_ne_nil [] (List.cons_ne_nil _ []) (List.self_eq_append_right.1 hdone)
    | sysGetdents =>
      refine iff_of_true (right_of_int hid nofun rfl rfl ?_ rfl rfl) trivial
      simp [FileOperation.accesses]
    | sysGetcwd => exact iff_of_true (right_of_int hid nofun rfl rfl rfl rfl rfl) trivial
    | sysChdir => exact iff_of_true (right_of_int hid nofun rfl rfl rfl rfl rfl) trivial
    | sysMkdir => exact iff_of_true (right_of_int hid nofun rfl rfl rfl rfl rfl) trivial
    | sysRmdir => exact iff_of_true (right_of_int hid nofun rfl rfl rfl rfl rfl) trivial
    | sysUnlink => exact iff_of_true (right_of_int hid nofun rfl rfl rfl rfl rfl) trivial
    | sysRename => exact iff_of_true (right_of_int hid nofun rfl rfl rfl rfl rfl) trivial

/-- A kernel whose operations all return zero. -/
def quietKernel : Kernel Unit where
  memory _ _ := 0
  sizeofStat := 64
  fileTable _ _ := (some 0, ())
  inRange _ _ v _ h := by
    obtain rfl := Option.some.inj h
    decide
  usleep _ _ := (0, ())
  getElfProgram _ _ := (none, ())
  create _ _ := (none, ())
  waitpid _ _ := (0, ())

/-- `SYS_STAT` on a string and a structure in the data. -/
def statCall : SvcState Unit := ⟨⟨0x20000400, 0x20000410, 0, 12⟩, (), 0, []⟩

/-- The call also performs an `fcntl` on the descriptor `-EFAULT`. -/
theorem not_right_stat : ¬ Right quietKernel (ofRegions flashRegion ramRegion) statCall := by
  intro h
  have hok : MemoryOk quietKernel (ofRegions flashRegion ramRegion) (.stat 0x20000400 0x20000410) () := by
    refine ⟨fun a ha => ?_, by decide⟩
    simp only [FileOperation.accesses, List.mem_cons, List.not_mem_nil, or_false] at ha
    rcases ha with rfl | rfl <;> decide
  have hdone := h.once _ rfl hok
  have hfcntl : (FileOperation.fcntl (-EFAULT) 0x20000410 0, ()) ∈
      (handleSvc quietKernel (ofRegions flashRegion ramRegion) statCall).2.performed := by decide
  rw [hdone] at hfcntl
  exact absurd hfcntl (by decide)

end Process

end Miosix
