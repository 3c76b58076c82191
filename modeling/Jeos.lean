import Jeos.Lib.Run
import Jeos.Lib.Dyadic
import Jeos.Buddy
import Jeos.BuddyLists
import Jeos.BuddySpec
import Jeos.BuddyOwnership
import Jeos.Lib.CircularBuffer
import Jeos.Pipe
import Jeos.PipeMemory
import Jeos.Files
import Jeos.FilesSpec
import Jeos.PipeLifetime
import Jeos.Lib.WordMemory
import Jeos.Lib.Machine
import Jeos.SyscallEntry
import Jeos.ForkFrame
import Jeos.Lib.Holding
import Jeos.Scheduler
import Jeos.ActivePml4
import Jeos.Lib.TreeWalk
import Jeos.Paging
import Jeos.PagingSpec
import Jeos.ForkMemory
import Jeos.ForkIsolation
import Jeos.Descriptors
import Jeos.Lib.History
import Jeos.ProcLife
import Jeos.ProcLifeSpec
import Jeos.ExitWait
import Jeos.Orphans
import Jeos.InterruptFlag
import Jeos.BlockRequests
import Jeos.Lib.Fallible
import Jeos.Vfs
import Jeos.VfsSpec
import Jeos.DotDot
import Jeos.Lib.Extent
import Jeos.FileOps
import Jeos.UserPointers
import Jeos.UserPointersSpec
import Jeos.Teardown
import Jeos.Lib.Loop
import Jeos.Loader
import Jeos.LoaderSpec
import Jeos.ElfImage
import Jeos.KernelHalf
import Jeos.ElfBounds
import Jeos.Exhaustion
import Jeos.ForkPages
import Jeos.Fork
import Jeos.HeapBreak
import Jeos.Ext2
import Jeos.Lib.StateRun
import Jeos.Ext2Spec
import Jeos.Ext2Read
import Jeos.Ext2Errors
import Jeos.Ext2Mount
import Jeos.Ext2Access
import Jeos.Lib.Chain
import Jeos.Ext2Dir
import Jeos.Ext2Bounds
import Jeos.Ext2Listing
import Jeos.Ext2Sectors
import Jeos.Lib.RegisterField
import Jeos.DiskTransfers
import Jeos.Pci
import Jeos.PciScan
import Jeos.PciEnumeration
import Jeos.Acpi
import Jeos.Console
import Jeos.ConsolePixels
import Jeos.ConsoleBounds
import Jeos.Terminal
import Jeos.ConsoleScreen
import Jeos.CloseHook
import Jeos.Ring
import Jeos.Pids
import Jeos.Lib.RadixTree
import Jeos.Ext2BlockMap
import Jeos.Freerange
import Jeos.Mapping
import Jeos.MappingLaw
import Jeos.Mmio
import Jeos.KernelTree
import Jeos.MmioSpec
import Jeos.VfsCalls
import Jeos.MountTable
import Jeos.TempDentries
import Jeos.Registry
import Jeos.RegistrySpec
import Jeos.Puts
import Jeos.Anchors
import Jeos.Mirror
import Jeos.MountVisible
import Jeos.MountUndo
import Jeos.Ext2Traversal
import Jeos.Ext2Cleanup
import Jeos.MountCleanup
import Jeos.UserStack
import Jeos.ReadElf
import Jeos.Exec
import Jeos.ExecSpec
import Jeos.ExecSuccess
import Jeos.ExecFailure
import Jeos.ExecStrings
import Jeos.PipeCleanup
import Jeos.PathSyntax
import Jeos.Lib.NameTable
import Jeos.Initfs
import Jeos.InitfsNamespace
import Jeos.InitfsNames
import Jeos.Lib.Splice
import Jeos.BlockDevice
import Jeos.Seek
import Jeos.DevfsRegistry
import Jeos.Lib.RecordWalk
import Jeos.Madt
import Jeos.Create
import Jeos.Lib.Preemption
import Jeos.Lapic
import Jeos.PciCap
import Jeos.Strings
import Jeos.Fbinfo
import Jeos.Mouse
import Jeos.Keyboard
import Jeos.Lib.Buffer
import Jeos.Print
import Jeos.PrintSpec
import Jeos.ContextSwitch
import Jeos.ExecFrame
import Jeos.PrintSpec
import Jeos.ContextSwitch
import Jeos.ExecFrame
import Jeos.Spinlock
import Jeos.Shell
import Jeos.Typing
import Jeos.AddressSpaces
import Jeos.DiskTree
import Jeos.Fairness
import Jeos.SharedReads
import Jeos.FbDevice
