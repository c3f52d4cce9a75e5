import ShellOS.Library.Runs
import ShellOS.Library.Tiling
import ShellOS.Memory.Heap2Run
import ShellOS.Memory.BuddyRun
import ShellOS.Ipc.PipeWaiters
import ShellOS.Ipc.SemaphoreRun
import ShellOS.Ipc.SemaphoreLock
import ShellOS.Ipc.SemaphoreClose
import ShellOS.Time.Timer
import ShellOS.Time.TimerSpec
import ShellOS.Time.TimerRun
import ShellOS.Library.Matching
import ShellOS.Memory.Heap2Replay
import ShellOS.Memory.BuddyAccounting
import ShellOS.Memory.BuddyCanonical
import ShellOS.Ipc.PipeTable
import ShellOS.Ipc.PipeEnds
import ShellOS.Library.StableInsert
import ShellOS.Sched.ProcessList
import ShellOS.Library.FirstMin
import ShellOS.Sched.SwitchSpec
import ShellOS.Sched.SchedulerRun
import ShellOS.Sched.Foreground
import ShellOS.Sched.ListOrder
import ShellOS.Sched.Selection
import ShellOS.Sched.Context
import ShellOS.Sched.Soundness
import ShellOS.Sched.Keyboard
import ShellOS.System.Machine
import ShellOS.System.MachineRun
import ShellOS.System.KilledWaiters
import ShellOS.System.KilledPipes
import ShellOS.Sched.RoundRobin
import ShellOS.Sched.NullReads
import ShellOS.Ipc.SemaphoreRelease
import ShellOS.Ipc.SemaphoreTable
import ShellOS.Sched.KeyboardRing
import ShellOS.Asm.Processor
import ShellOS.Asm.Yield
import ShellOS.Ipc.PipeConsole
import ShellOS.Userland.Philo
import ShellOS.Userland.PhiloTable
import ShellOS.Userland.PhiloExclusion
import ShellOS.Memory.Heap2BestFit
import ShellOS.Memory.Adequacy
import ShellOS.Ipc.PipeOpen
import ShellOS.Ipc.SemaphoreRemoval
import ShellOS.Ipc.PipeFailure
import ShellOS.Ipc.PipeCapacity
import ShellOS.Terminal.NaiveConsole
import ShellOS.Terminal.Read
import ShellOS.Terminal.LineDiscipline
import ShellOS.Terminal.PipeLine
import ShellOS.Terminal.PipeReader
import ShellOS.Library.Numerals
import ShellOS.Userland.Libc
import ShellOS.Library.LineMachine
import ShellOS.Userland.Filters
import ShellOS.Userland.FiltersRun
import ShellOS.Userland.Numbers
import ShellOS.Userland.PhiloMutex
import ShellOS.Terminal.ConsoleNumbers
import ShellOS.Terminal.ConsoleText
import ShellOS.Asm.Syscall
import ShellOS.Ipc.PipeDelivery
import ShellOS.Library.Tokens
import ShellOS.Userland.Strings
import ShellOS.Userland.CommandLine
import ShellOS.Userland.Shell
import ShellOS.Userland.StaleArgs
import ShellOS.Asm.InitProcess
import ShellOS.Userland.Packing
import ShellOS.System.ProcessArgs
import ShellOS.System.TypedNumbers
import ShellOS.System.Pipeline
import ShellOS.Terminal.NumeralBuffers
import ShellOS.Boot.ModuleLoader
import ShellOS.Memory.Heap2BytesRun
import ShellOS.Userland.TestMm
import ShellOS.Userland.PhiloProgress
import ShellOS.System.Preemption
import ShellOS.Terminal.Keyboard
import ShellOS.Asm.SyscallReturn
import ShellOS.Asm.Snapshot
import ShellOS.Boot.IdtLoader
import ShellOS.Asm.Exception
import ShellOS.Asm.Clock
import ShellOS.Userland.TestSync
import ShellOS.Userland.TestProcesses
