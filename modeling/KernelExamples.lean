import KernelExamples.CInt
import KernelExamples.Traces
import KernelExamples.Threads
import KernelExamples.Lifecycle
import KernelExamples.Deferred
import KernelExamples.Memory
import KernelExamples.Buffer
import KernelExamples.Text
import KernelExamples.Hex
import KernelExamples.Waveform
import KernelExamples.Kernel
import KernelExamples.Sbd
import KernelExamples.SbdDisk
import KernelExamples.SbdBounds
import KernelExamples.SbdGeometry
import KernelExamples.SbdLife
import KernelExamples.Sema
import KernelExamples.SpinDead
import KernelExamples.CharDev
import KernelExamples.MyDynamic
import KernelExamples.MyChar
import KernelExamples.Seek
import KernelExamples.MyDynamicUdev
import KernelExamples.Pread
import KernelExamples.PartialWrite
import KernelExamples.Streams
import KernelExamples.CopyRace
import KernelExamples.OpenCounter
import KernelExamples.CharDevLife
import KernelExamples.EfiMonitor
import KernelExamples.EfiNames
import KernelExamples.EfiRace
import KernelExamples.PortMonitor
import KernelExamples.Proc
import KernelExamples.ParamProc
import KernelExamples.ProcStore
import KernelExamples.Processes
import KernelExamples.SigProc
import KernelExamples.Snapshot
import KernelExamples.ReadEnds
import KernelExamples.TaskProc
import KernelExamples.ProcMemory
import KernelExamples.ProcTree
import KernelExamples.SysFs
import KernelExamples.TimerDrv
import KernelExamples.PeriodicTimer
import KernelExamples.Irq
import KernelExamples.Unload
import KernelExamples.Morse
import KernelExamples.Speaker
import KernelExamples.MorseWrite
import KernelExamples.SpeakerRace
import KernelExamples.MorseLine
import KernelExamples.HexDump
import KernelExamples.NetLoop
import KernelExamples.OpenName
import KernelExamples.SyscallHook
import KernelExamples.ModuleLife
import KernelExamples.DriverLife
