import Sakura.Lib.BitField
import Sakura.Lib.Bitmap
import Sakura.MemoryManager.Paging
import Sakura.MemoryManager.PhysicalAllocator
import Sakura.MemoryManager.AllocationArray
import Sakura.MemoryManager.AllocationArrayTheorems
import Sakura.MemoryManager.VirtualMemoryManager
import Sakura.Multiboot
import Sakura.MemoryManager.MemoryManager
import Sakura.MultibootTheorems
import Sakura.MemoryManager.VirtualMapTheorems
import Sakura.MemoryManager.KernelSpace
import Sakura.MemoryManager.BootTheorems
import Sakura.MemoryManager.InitTheorems
import Sakura.MemoryManager.RamTheorems
import Sakura.Lib.Run
import Sakura.MemoryManager.KernelMemoryTheorems
import Sakura.MemoryManager.DealTheorems
import Sakura.MemoryManager.PageTableTheorems
import Sakura.MemoryManager.StrayTheorems
import Sakura.MemoryManager.Paged
import Sakura.MemoryManager.PagedTheorems
import Sakura.MemoryManager.DirectoryRoles
import Sakura.MemoryManager.VirtualAllocateTheorems
import Sakura.MemoryManager.FirstFitTheorems
import Sakura.MemoryManager.RangeTheorems
import Sakura.MemoryManager.IdentityMapTheorems
import Sakura.MemoryManager.UserRangeTheorems
import Sakura.MemoryManager.FreeTheorems
import Sakura.MemoryManager.InterruptTheorems
import Sakura.MemoryManager.DirectoryTheorems
import Sakura.MemoryManager.KeepsPagesTheorems
import Sakura.MemoryManager.MemoryMapTheorems
import Sakura.Lib.Routine
import Sakura.MemoryManager.Routines
import Sakura.MemoryManager.RoutineTheorems
import Sakura.MemoryManager.ExclusionTheorems
import Sakura.MemoryManager.KernelHalfTheorems
import Sakura.MemoryManager.KernelHalfRunTheorems
import Sakura.MemoryManager.PermissionTheorems
import Sakura.MemoryManager.Bytes
import Sakura.MemoryManager.KeepsDataTheorems
import Sakura.MemoryManager.FreeBlockTheorems
import Sakura.MemoryManager.KeepsButTheorems
import Sakura.MemoryManager.UndoTheorems
import Sakura.MemoryManager.AccountingTheorems
import Sakura.MemoryManager.ZeroedTheorems
import Sakura.Lib.I386
import Sakura.Lib.I386Trap
import Sakura.TaskSwitch
import Sakura.TaskSwitchTheorems
import Sakura.Lib.Fifo
import Sakura.Lib.FlatMemory
import Sakura.Lib.DoublyLinked
import Sakura.Lib.Tiling
import Sakura.Libk.Libk
import Sakura.Libk.LibkTheorems
import Sakura.Libk.RingBuffer
import Sakura.Libk.RingBufferTheorems
import Sakura.Libk.Kmalloc
import Sakura.Libk.KmallocTagTheorems
import Sakura.Libk.KmallocRegionTheorems
import Sakura.Libk.KmallocStepTheorems
import Sakura.Libk.KmallocTheorems
import Sakura.Libk.Krealloc
import Sakura.Libk.Blocks
import Sakura.Libk.KmallocFrameTheorems
import Sakura.Libk.BlockTheorems
import Sakura.Lib.ExitList
import Sakura.Libk.Cpp
import Sakura.Libk.CppTheorems
import Sakura.Lib.RoundRobin
import Sakura.Scheduler
import Sakura.SchedulerTheorems
import Sakura.SchedulerRunTheorems
import Sakura.Sleep
import Sakura.SleepTheorems
import Sakura.SchedulerWaitTheorems
import Sakura.CreateTask
import Sakura.Starting
import Sakura.StartingTheorems
import Sakura.Kernel
import Sakura.CreateTaskTheorems
import Sakura.Elf
import Sakura.ElfTheorems
import Sakura.LoadTheorems
import Sakura.SegmentTheorems
import Sakura.Modules
import Sakura.ModulesTheorems
import Sakura.Devices.Keyboard
import Sakura.Devices.KeyboardTheorems
import Sakura.Devices.TTY
import Sakura.Devices.TTYTheorems
import Sakura.Devices.PageTheorems
import Sakura.Devices.Console
import Sakura.Devices.ConsoleTheorems
import Sakura.Sections
import Sakura.SectionsTheorems
import Sakura.Libk.Printf
import Sakura.Libk.PrintfTheorems
import Sakura.Libk.PrintkTheorems
import Sakura.Libk.FormatTheorems
import Sakura.Libk.Snprintf
import Sakura.Lib.Numeral
import Sakura.Libk.NumeralTheorems
import Sakura.Syscalls
import Sakura.SyscallsTheorems
import Sakura.ScreenTheorems
import Sakura.Interrupts
import Sakura.InterruptsTheorems
import Sakura.Lib.I386Segment
import Sakura.Gdt
import Sakura.GdtTheorems
