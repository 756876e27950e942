import MiosixKernel.Process.MpuAccess
import MiosixKernel.Util.Errno

/-!
# System calls

`Process::handleSvc` performs the system call of a process on its file table. The parameters are in the
registers, the result goes to the first one, and the rest of the kernel is a state that operations change.

* `FileOperation`, `Kernel`: the operations of a file table, and what the kernel does for them;
* `checked`: an operation after its checks, which is what most cases are;
* `handleSvc`: the switch over the cases, where two of them run into the next one.
-/

namespace Miosix

open MPUConfiguration

/-! ## The file table and the kernel -/

/-- The calls of a file table. Pointers are addresses of the process. -/
inductive FileOperation where
  | write (fd : ℤ) (data : BitVec 32) (len : BitVec 32)
  | read (fd : ℤ) (data : BitVec 32) (len : BitVec 32)
  | openFile (name : BitVec 32) (flags mode : ℤ)
  | close (fd : ℤ)
  | lseek (fd : ℤ) (pos : ℤ) (whence : ℤ)
  | fstat (fd : ℤ) (pstat : BitVec 32)
  | isatty (fd : ℤ)
  | stat (name pstat : BitVec 32)
  | lstat (name pstat : BitVec 32)
  | fcntl (fd cmd opt : ℤ)
  | ioctl (fd cmd : ℤ) (arg : BitVec 32)
  | getdents (fd : ℤ) (dp : BitVec 32) (len : ℤ)
  | getcwd (buf len : BitVec 32)
  | chdir (name : BitVec 32)
  | mkdir (name : BitVec 32) (mode : ℤ)
  | rmdir (name : BitVec 32)
  | unlink (name : BitVec 32)
  | rename (oldName newName : BitVec 32)
deriving DecidableEq

namespace FileOperation

/-- `lseek` returns a 64 bit position, the others a 32 bit integer. -/
def isSeek : FileOperation → Bool
  | lseek .. => true
  | _ => false

/-- The memory of the process that an operation uses. -/
def accesses (sizeofStat : BitVec 32) : FileOperation → List Access
  | write _ data len => [.reading data len]
  | read _ data len => [.writing data len]
  | openFile name _ _ | chdir name | mkdir name _ | rmdir name | unlink name => [.readingStr name]
  | fstat _ pstat => [.writing pstat sizeofStat]
  | stat name pstat | lstat name pstat => [.readingStr name, .writing pstat sizeofStat]
  | getdents _ dp len => [.writing dp (BitVec.ofInt 32 len)]
  | getcwd buf len => [.writing buf len]
  | rename oldName newName => [.readingStr oldName, .readingStr newName]
  | close _ | lseek .. | isatty _ | fcntl .. | ioctl .. => []

end FileOperation

/-- Used to check if a pointer passed from userspace is aligned. -/
def aligned (x : BitVec 32) : Bool := x &&& 3#32 == 0#32

/-- A structure of the process has to be aligned. -/
def FileOperation.isAligned : FileOperation → Bool
  | fstat _ pstat | stat _ pstat | lstat _ pstat => aligned pstat
  | _ => true

/-- The rest of the kernel. A call without a result throws. -/
structure Kernel (σ : Type) where
  memory : σ → ℕ → UInt8
  sizeofStat : BitVec 32
  fileTable : FileOperation → σ → Option ℤ × σ
  inRange : ∀ op s v, op.isSeek = false → (fileTable op s).1 = some v → -2 ^ 31 ≤ v ∧ v < 2 ^ 31
  usleep : BitVec 32 → σ → ℤ × σ
  getElfProgram : BitVec 32 → σ → Option (BitVec 32 × BitVec 32) × σ
  /-- The constructor of `ElfProgram` and `Process::create`. -/
  create : BitVec 32 × BitVec 32 → σ → Option ℤ × σ
  /-- The status of the process that was waited for. -/
  waitpid : ℤ → σ → ℤ × σ

structure SyscallParameters where
  first : BitVec 32
  second : BitVec 32
  third : BitVec 32
  id : BitVec 32

inductive Syscall where
  | sysExit
  | sysWrite
  | sysRead
  | sysUsleep
  | sysOpen
  | sysClose
  | sysLseek
  | sysSystem
  | sysFstat
  | sysIsatty
  | sysStat
  | sysLstat
  | sysFcntl
  | sysIoctl
  | sysGetdents
  | sysGetcwd
  | sysChdir
  | sysMkdir
  | sysRmdir
  | sysUnlink
  | sysRename
deriving DecidableEq

/-- The labels of the cases. -/
def SyscallParameters.getSyscallId (sp : SyscallParameters) : Option Syscall :=
  match sp.id.toNat with
  | 2 => some .sysExit
  | 3 => some .sysWrite
  | 4 => some .sysRead
  | 5 => some .sysUsleep
  | 6 => some .sysOpen
  | 7 => some .sysClose
  | 8 => some .sysLseek
  | 9 => some .sysSystem
  | 10 => some .sysFstat
  | 11 => some .sysIsatty
  | 12 => some .sysStat
  | 13 => some .sysLstat
  | 14 => some .sysFcntl
  | 15 => some .sysIoctl
  | 16 => some .sysGetdents
  | 17 => some .sysGetcwd
  | 18 => some .sysChdir
  | 19 => some .sysMkdir
  | 20 => some .sysRmdir
  | 21 => some .sysUnlink
  | 22 => some .sysRename
  | _ => none

/-- The state of a process in a system call. -/
structure SvcState (σ : Type) where
  sp : SyscallParameters
  kernel : σ
  exitCode : ℤ
  /-- The operations that were performed, each with the state before it. -/
  performed : List (FileOperation × σ)

/-- An exception of the kernel. -/
inductive StdException where
  | exception

abbrev SvcM (σ : Type) := EStateM StdException (SvcState σ)

/-! ## The cases -/

namespace Process

variable {σ : Type} (k : Kernel σ) (mpu : MPUConfiguration)

def setReturnValue (ret : ℤ) : SvcM σ Unit :=
  modify fun s => { s with sp := { s.sp with first := BitVec.ofInt 32 ret } }

/-- A part of the kernel that does not throw. -/
def run {α : Type} (f : σ → α × σ) : SvcM σ α := fun s =>
  .ok (f s.kernel).1 { s with kernel := (f s.kernel).2 }

/-- A part of the kernel that may throw. -/
def call {α : Type} (f : σ → Option α × σ) : SvcM σ α := fun s =>
  match f s.kernel with
  | (some a, kernel) => .ok a { s with kernel := kernel }
  | (none, kernel) => .error .exception { s with kernel := kernel }

/-- An operation of the file table. -/
def perform (op : FileOperation) : SvcM σ ℤ := do
  modify fun s => { s with performed := s.performed ++ [(op, s.kernel)] }
  call (k.fileTable op)

/-- An operation after its checks. -/
def checked (checks : List Access) (isAligned : Bool) (op : FileOperation) : SvcM σ Unit := do
  let s ← get
  if checks.all (Access.check mpu (k.memory s.kernel)) && isAligned then
    let result ← perform k op
    setReturnValue result
  else setReturnValue (-EFAULT)

def O_CREAT : BitVec 32 := 0x200

def SIGSYS : ℤ := 12

def exit (sp : SyscallParameters) : SvcM σ Unit :=
  modify fun s => { s with exitCode := ((sp.first &&& 0xff) <<< 8).toInt }

def write (sp : SyscallParameters) : SvcM σ Unit :=
  checked k mpu [.reading sp.second sp.third] true (.write sp.first.toInt sp.second sp.third)

def read (sp : SyscallParameters) : SvcM σ Unit :=
  checked k mpu [.writing sp.second sp.third] true (.read sp.first.toInt sp.second sp.third)

def usleep (sp : SyscallParameters) : SvcM σ Unit := do
  let result ← run (k.usleep sp.first)
  setReturnValue result

def openFile (sp : SyscallParameters) : SvcM σ Unit :=
  checked k mpu [.readingStr sp.first] true (.openFile sp.first sp.second.toInt
    (if sp.second &&& O_CREAT ≠ 0 then sp.third.toInt else 0))

def close (sp : SyscallParameters) : SvcM σ Unit := checked k mpu [] true (.close sp.first.toInt)

/-- The position is extended with zeros. -/
def lseek (sp : SyscallParameters) : SvcM σ Unit :=
  checked k mpu [] true (.lseek sp.first.toInt sp.second.toNat sp.third.toInt)

def system (sp : SyscallParameters) : SvcM σ Unit := do
  let s ← get
  if Access.check mpu (k.memory s.kernel) (.readingStr sp.first) then
    let res ← call (k.getElfProgram sp.first)
    if res.1 = 0 ∨ res.2 = 0 then setReturnValue (-1)
    else do
      let child ← call (k.create res)
      let ret ← run (k.waitpid child)
      setReturnValue (ret / 256 % 256)
  else setReturnValue (-EFAULT)

def fstat (sp : SyscallParameters) : SvcM σ Unit :=
  checked k mpu [.writing sp.second k.sizeofStat] (aligned sp.second) (.fstat sp.first.toInt sp.second)

def isatty (sp : SyscallParameters) : SvcM σ Unit := checked k mpu [] true (.isatty sp.first.toInt)

def stat (sp : SyscallParameters) : SvcM σ Unit :=
  checked k mpu [.readingStr sp.first, .writing sp.second k.sizeofStat] (aligned sp.second)
    (.stat sp.first sp.second)

def lstat (sp : SyscallParameters) : SvcM σ Unit :=
  checked k mpu [.readingStr sp.first, .writing sp.second k.sizeofStat] (aligned sp.second)
    (.lstat sp.first sp.second)

def fcntl (sp : SyscallParameters) : SvcM σ Unit :=
  checked k mpu [] true (.fcntl sp.first.toInt sp.second.toInt sp.third.toInt)

def getdents (sp : SyscallParameters) : SvcM σ Unit :=
  checked k mpu [.writing sp.second sp.third] true (.getdents sp.first.toInt sp.second sp.third.toInt)

def getcwd (sp : SyscallParameters) : SvcM σ Unit :=
  checked k mpu [.writing sp.first sp.second] true (.getcwd sp.first sp.second)

def chdir (sp : SyscallParameters) : SvcM σ Unit :=
  checked k mpu [.readingStr sp.first] true (.chdir sp.first)

def mkdir (sp : SyscallParameters) : SvcM σ Unit :=
  checked k mpu [.readingStr sp.first] true (.mkdir sp.first sp.second.toInt)

def rmdir (sp : SyscallParameters) : SvcM σ Unit :=
  checked k mpu [.readingStr sp.first] true (.rmdir sp.first)

def unlink (sp : SyscallParameters) : SvcM σ Unit :=
  checked k mpu [.readingStr sp.first] true (.unlink sp.first)

def rename (sp : SyscallParameters) : SvcM σ Unit :=
  checked k mpu [.readingStr sp.first, .readingStr sp.second] true (.rename sp.first sp.second)

/-- A case reads its parameters when it starts. -/
def parameters : SvcM σ SyscallParameters := do
  let s ← get
  pure s.sp

/-- The switch. The process goes on unless the call is to exit or is not known. -/
def dispatch : Option Syscall → SvcM σ Bool
  | none => do
    modify fun s => { s with exitCode := SIGSYS }
    pure false
  | some .sysExit => do exit (← parameters); pure false
  | some .sysWrite => do write k mpu (← parameters); pure true
  | some .sysRead => do read k mpu (← parameters); pure true
  | some .sysUsleep => do usleep k (← parameters); pure true
  | some .sysOpen => do openFile k mpu (← parameters); pure true
  | some .sysClose => do close k mpu (← parameters); pure true
  | some .sysLseek => do lseek k mpu (← parameters); pure true
  | some .sysSystem => do system k mpu (← parameters); pure true
  | some .sysFstat => do fstat k mpu (← parameters); pure true
  | some .sysIsatty => do isatty k mpu (← parameters); pure true
  | some .sysStat => do
    -- this case has no break, nor has the next one
    stat k mpu (← parameters)
    lstat k mpu (← parameters)
    fcntl k mpu (← parameters)
    pure true
  | some .sysLstat => do
    lstat k mpu (← parameters)
    fcntl k mpu (← parameters)
    pure true
  | some .sysFcntl => do fcntl k mpu (← parameters); pure true
  | some .sysIoctl => pure true
  | some .sysGetdents => do getdents k mpu (← parameters); pure true
  | some .sysGetcwd => do getcwd k mpu (← parameters); pure true
  | some .sysChdir => do chdir k mpu (← parameters); pure true
  | some .sysMkdir => do mkdir k mpu (← parameters); pure true
  | some .sysRmdir => do rmdir k mpu (← parameters); pure true
  | some .sysUnlink => do unlink k mpu (← parameters); pure true
  | some .sysRename => do rename k mpu (← parameters); pure true

/-- `handleSvc`, with the result and the state it leaves. -/
def handleSvc (s : SvcState σ) : Bool × SvcState σ :=
  match dispatch k mpu s.sp.getSyscallId s with
  | .ok running s => (running, s)
  | .error .exception s => (true, { s with sp := { s.sp with first := BitVec.ofInt 32 (-ENOMEM) } })

end Process

end Miosix
