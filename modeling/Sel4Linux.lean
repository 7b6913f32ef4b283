import Sel4Linux.Reading
import Sel4Linux.Writing
import Sel4Linux.FileStack
import Sel4Linux.Robustness
import Sel4Linux.DeviceFds
import Sel4Linux.Forks
import Sel4Linux.Reaping
import Sel4Linux.Threads
import Sel4Linux.GuestMemory
import Sel4Linux.FaultSlots
import Sel4Linux.TaskIsolation
import Sel4Linux.AnonMemory
import Sel4Linux.PageFaults
import Sel4Linux.Errnos
import Sel4Linux.FreeArea
import Sel4Linux.SyscallSites
import Sel4Linux.MemoryCalls
import Sel4Linux.Heap
import Sel4Linux.ChildSpace
import Sel4Linux.Executables
import Sel4Linux.ElfDecoding
import Sel4Linux.HeapBytes
import Sel4Linux.EntryStack
import Sel4Linux.FirstStack
import Sel4Linux.LoadedImage
import Sel4Linux.PagePlan
import Sel4Linux.TaskImage
import Sel4Linux.Console
import Sel4Linux.Marshalling
import Sel4Linux.Seeking
import Sel4Linux.SyscallFrames
import Sel4Linux.Truncation
import Sel4Linux.Paging
import Sel4Linux.Disk
import Sel4Linux.DiskEnd
import Sel4Linux.Pipes
import Sel4Linux.Signals
import Sel4Linux.SignalMasks
import Sel4Linux.SignalActions
import Sel4Linux.Timers
import Sel4Linux.SlotSpace
import Sel4Linux.FrameSlots
import Sel4Linux.Draining
import Sel4Linux.BumpAlloc
import Sel4Linux.GuestStrings
import Sel4Linux.BootInfoScan
import Sel4Linux.FlatImage
import Sel4Linux.BootNotes
import Sel4Linux.ProgramHeaders
import Sel4Linux.KernelWrapper
import Sel4Linux.Refinement
import Sel4Linux.FlatSpace
import Sel4Linux.AddressSpace
import Sel4Linux.BlockService
import Sel4Linux.BzImage
import Sel4Linux.LinuxMachine
import Sel4Linux.LinuxLayer
