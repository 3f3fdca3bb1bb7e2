import NeKernel.Heap.Containment
import NeKernel.Hal.PageRuns
import NeKernel.FS.Addresses
import NeKernel.FS.Remount
import NeKernel.FS.NeLayout
import NeKernel.FS.NeResolution
import NeKernel.Sched.ProcessCount
import NeKernel.Sched.MutexRuns
import NeKernel.Sched.UltraHigh
import NeKernel.Sched.HeapTreeRuns
import NeKernel.Smp.SpinFlags
import NeKernel.FS.FileTransfers
import NeKernel.FS.Entries
import NeKernel.Ldr.PEFLoader
import NeKernel.Ldr.PE32Lookups
import NeKernel.Ldr.ImageWindow
import NeKernel.Ldr.SymbolRuns
import NeKernel.Boot.ImageSafety
import NeKernel.FS.DiskImage
import NeKernel.FS.MkfsHefs
import NeKernel.Swap.DiskSwap
import NeKernel.Hal.PageTraffic
import NeKernel.Hal.FrameExclusion
import NeKernel.Hal.IdentityMap
import NeKernel.Hal.Arm64PagingMgr
import NeKernel.Arch.CallHashes
import NeKernel.Arch.SystemCalls
import NeKernel.Msg.Server
import NeKernel.Acpi.FactoryInterface
import NeKernel.Storage.SectorCounts
import NeKernel.Storage.IFS
import NeKernel.Dma.DmaPool
import NeKernel.Boot.MemoryScan
import NeKernel.Sched.SpawnedSlots
import NeKernel.Sched.InteractiveBoost
import NeKernel.Sched.HeapAccounting
import NeKernel.Smp.CoreSelection
import NeKernel.FS.NeCreation
import NeKernel.FS.NeForkChain
import NeKernel.Ldr.FatSections
import NeKernel.Ldr.FailedLoads
import NeKernel.Ldr.ImageContents
import NeKernel.LibSystem.MemoryCopy
import NeKernel.Hal.PlatformSplit
import NeKernel.Network.IPCMessage
import NeKernel.Storage.AHCICommands
import NeKernel.Storage.AHCIPorts
import NeKernel.Smp.MadtWalk
import NeKernel.LibSystem.MemoryFill
import NeKernel.NeKit.CrcTable
import NeKernel.NeKit.NumberText
import NeKernel.NeKit.StringSearch
import NeKernel.Boot.StringToLong
import NeKernel.Boot.BootSupport
import NeKernel.Boot.BootFileReader
import NeKernel.FS.MkfsOptions
import NeKernel.FS.MkfsRanges
import NeKernel.Network.RTL8139
import NeKernel.Arch.RegisteredCalls
import NeKernel.Hal.TaskStateSegment
import NeKernel.Network.IPAddress
import NeKernel.NeKit.MutableArray
import NeKernel.FS.PathSplit
import NeKernel.Ldr.NameMangling
import NeKernel.NeKit.StringFormat
import NeKernel.NeKit.Json
import NeKernel.NeKit.StringRuns
import NeKernel.LibThread.Thread
import NeKernel.Network.RawIPAddress
import NeKernel.Arch.DispatchCores
import NeKernel.Storage.PartitionTables
import NeKernel.Pci.Device
import NeKernel.Lib.Cells
import NeKernel.Storage.AHCIStructures
import NeKernel.Storage.AHCITransfers
import NeKernel.Storage.AHCIRuns
import NeKernel.Storage.AHCIContents
import NeKernel.Storage.PIOTransfers
import NeKernel.Arch.Users
import NeKernel.Sched.ThreadLocalStorage
import NeKernel.FS.ChkHefs
import NeKernel.Sched.Timers
import NeKernel.Sched.Semaphore
import NeKernel.FS.NeFileSystemMgr
