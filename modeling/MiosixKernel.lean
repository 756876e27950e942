import MiosixKernel.Lib.Word
import MiosixKernel.Lib.Loop
import MiosixKernel.Time.Conversion
import MiosixKernel.Time.Calibrate
import MiosixKernel.Time.RoundTrip
import MiosixKernel.Timer.Model
import MiosixKernel.Timer.Read
import MiosixKernel.Timer.Run
import MiosixKernel.Timer.Irq
import MiosixKernel.Timer.Wakeup
import MiosixKernel.Lib.Circular
import MiosixKernel.Sched.Lists
import MiosixKernel.Sched.Invariant
import MiosixKernel.Sched.Run
import MiosixKernel.Sched.Fair
import MiosixKernel.Lib.Bitmap
import MiosixKernel.Process.Pool
import MiosixKernel.Process.Alloc
import MiosixKernel.Process.Isolation
import MiosixKernel.Lib.Ring
import MiosixKernel.Queue.Queue
import MiosixKernel.Lib.Linked
import MiosixKernel.Queue.EventQueue
import MiosixKernel.Sched.Pause
import MiosixKernel.Sync.Pthread
import MiosixKernel.Sync.PthreadInvariant
import MiosixKernel.Sync.PthreadRun
import MiosixKernel.Sched.Join
import MiosixKernel.Sched.JoinInvariant
import MiosixKernel.Sched.JoinRun
import MiosixKernel.Process.Table
import MiosixKernel.Process.TableInvariant
import MiosixKernel.Process.TableRun
import MiosixKernel.Lib.Fault
import MiosixKernel.Process.Elf
import MiosixKernel.Process.ElfRecognition
import MiosixKernel.Process.ElfSafety
import MiosixKernel.Lib.Heap
import MiosixKernel.Sync.Mutex
import MiosixKernel.Lib.Reach
import MiosixKernel.Sync.MutexInvariant
import MiosixKernel.Sync.MutexSteps
import MiosixKernel.Sync.ConditionVariable
import MiosixKernel.Kernel.IntrusiveList
import MiosixKernel.Kernel.IntrusiveListRun
import MiosixKernel.Sched.Sleeping
import MiosixKernel.Timer.SetTime
import MiosixKernel.Timer.SleepingList
import MiosixKernel.Lib.PrefixCode
import MiosixKernel.Util.Unicode
import MiosixKernel.Util.UnicodeCodes
import MiosixKernel.Util.UnicodeConvert
import MiosixKernel.Kernel.IntrusiveRefPtr
import MiosixKernel.Kernel.IntrusiveRefPtrRun
import MiosixKernel.Lib.Separated
import MiosixKernel.Util.Errno
import MiosixKernel.Path.Resolution
import MiosixKernel.Path.Canonical
import MiosixKernel.Path.Walk
import MiosixKernel.Path.Links
import MiosixKernel.Path.Mount
import MiosixKernel.Path.Operations
import MiosixKernel.Lib.DirTree
import MiosixKernel.Path.Anchored
import MiosixKernel.Process.Creation
import MiosixKernel.Process.Wakeup
import MiosixKernel.Sched.Control
import MiosixKernel.Sched.ControlThreads
import MiosixKernel.Sched.Multiburst
import MiosixKernel.Sched.ControlRound
import MiosixKernel.Sched.MultiburstRound
import MiosixKernel.Sched.Edf
import MiosixKernel.Sched.EdfOrder
import MiosixKernel.Sync.Reschedule
import MiosixKernel.Sync.MutexWalk
import MiosixKernel.Lib.PendingBit
import MiosixKernel.Timer.SplitClock
import MiosixKernel.Timer.Driver
import MiosixKernel.Timer.CounterDriver
import MiosixKernel.Timer.AtsamAst
import MiosixKernel.Timer.AtsamTc
import MiosixKernel.Timer.AtsamTcRun
import MiosixKernel.Sched.JoinReuse
import MiosixKernel.Time.Exact
import MiosixKernel.Filesystem.DevFsFile
import MiosixKernel.Filesystem.Getdents
import MiosixKernel.Process.MpuAccess
import MiosixKernel.Process.ProcessImageLoad
import MiosixKernel.Process.ProcessImageElf
import MiosixKernel.Process.Syscall
import MiosixKernel.Process.Dispatch
import MiosixKernel.Lib.Once
import MiosixKernel.Sync.Once
import MiosixKernel.Path.WorkingDirectory
import MiosixKernel.Filesystem.Terminal
import MiosixKernel.Filesystem.TerminalRun
import MiosixKernel.Filesystem.StringPartRun
import MiosixKernel.Lib.Crc
import MiosixKernel.Util.Crc16
import MiosixKernel.Util.UnicodeValidate
import MiosixKernel.Lib.Fifo
import MiosixKernel.Queue.BufferQueue
import MiosixKernel.Time.Bisection
import MiosixKernel.Sched.Sleep
import MiosixKernel.Time.Flopsync
import MiosixKernel.Sched.ControlFixedPoint
import MiosixKernel.Sync.MutexRun
import MiosixKernel.Lib.Inherit
import MiosixKernel.Sync.PriorityInheritance
import MiosixKernel.Lib.Overlay
import MiosixKernel.Fat.Volume
import MiosixKernel.Fat.Entry
import MiosixKernel.Lib.Chains
import MiosixKernel.Fat.Chain
import MiosixKernel.Fat.ChainRun
import MiosixKernel.Lib.Code
import MiosixKernel.Lib.Calls
import MiosixKernel.Lib.ByteFile
import MiosixKernel.Fat.File
import MiosixKernel.Fat.Clusters
import MiosixKernel.Fat.FileState
import MiosixKernel.Fat.FileTransfer
import MiosixKernel.Fat.FileWrite
import MiosixKernel.Fat.FileRead
import MiosixKernel.Fat.FileSeek
import MiosixKernel.Fat.FileSync
import MiosixKernel.Fat.FileRun
import MiosixKernel.Fat.LongName
import MiosixKernel.Fat.Directory
import MiosixKernel.Fat.DirTable
import MiosixKernel.Fat.DirScan
import MiosixKernel.Fat.DirFind
import MiosixKernel.Fat.DirRun
import MiosixKernel.Fat.DirAlloc
import MiosixKernel.Fat.DirRegister
import MiosixKernel.Fat.DirStretch
import MiosixKernel.Fat.DirRemove
