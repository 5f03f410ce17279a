import RtThread.Library.Transition
import RtThread.Library.RingList
import RtThread.Library.CircularFifo
import RtThread.Library.OrderedQueue
import RtThread.Library.PairedRows
import RtThread.Library.ByteMemory
import RtThread.Library.Tiling
import RtThread.Library.BoundedFifo
import RtThread.Library.WakeUps
import RtThread.Library.SinglyLinked
import RtThread.Library.RecentQueue
import RtThread.Library.SlashPath
import RtThread.Kernel.Rtdef
import RtThread.Kernel.Types
import RtThread.Kernel.Timer
import RtThread.Kernel.Ffs
import RtThread.Kernel.Scheduler
import RtThread.Kernel.Thread
import RtThread.Kernel.ReadyInvariant
import RtThread.Kernel.SchedulerRuns
import RtThread.Kernel.WaitLists
import RtThread.Kernel.IpcLists
import RtThread.Kernel.Semaphore
import RtThread.Kernel.SemaphoreWaiters
import RtThread.Kernel.Mutex
import RtThread.Kernel.MutexOwnership
import RtThread.Kernel.MutexNesting
import RtThread.Kernel.MutexPriorities
import RtThread.Kernel.PriorityQueues
import RtThread.Kernel.Event
import RtThread.Kernel.EventWaiters
import RtThread.Kernel.EventConsumption
import RtThread.Kernel.Mailbox
import RtThread.Kernel.MailboxRuns
import RtThread.Kernel.MessageQueue
import RtThread.Kernel.MessageBlocks
import RtThread.Kernel.MessageQueueRuns
import RtThread.Kernel.MessageQueueDelivery
import RtThread.Kernel.WakeUpCounts
import RtThread.Kernel.Preemption
import RtThread.Kernel.MemPool
import RtThread.Kernel.MemPoolWaiters
import RtThread.Kernel.Mem
import RtThread.Kernel.MemShape
import RtThread.Kernel.MemPlugHoles
import RtThread.Kernel.MemAccounts
import RtThread.Kernel.MemInvariant
import RtThread.Kernel.MemRuns
import RtThread.Kernel.ThreadRemoval
import RtThread.Kernel.HardTimer
import RtThread.Kernel.TimerList
import RtThread.Kernel.TimerRuns
import RtThread.Kernel.TimerExpiry
import RtThread.Kernel.TimerFlags
import RtThread.Kernel.TimerSections
import RtThread.Kernel.ThreadTimers
import RtThread.Kernel.ThreadSections
import RtThread.Kernel.LiveThreads
import RtThread.Kernel.ThreadLife
import RtThread.Kernel.ThreadEndOfLife
import RtThread.Kernel.Device
import RtThread.Kernel.DeviceCounting
import RtThread.DeviceDrivers.Ringbuffer
import RtThread.DeviceDrivers.RingbufferFifo
import RtThread.DeviceDrivers.RingbufferOverwrite
import RtThread.DeviceDrivers.DataQueue
import RtThread.DeviceDrivers.DataQueueFifo
import RtThread.DeviceDrivers.DataQueueWakeup
import RtThread.DeviceDrivers.SerialDmaTx
import RtThread.DeviceDrivers.Serial
import RtThread.DeviceDrivers.SerialSessions
import RtThread.DeviceDrivers.SerialModes
import RtThread.DeviceDrivers.SerialRxFifo
import RtThread.DeviceDrivers.Workqueue
import RtThread.DeviceDrivers.WorkqueueRuns
import RtThread.DeviceDrivers.Completion
import RtThread.DeviceDrivers.Pipe
import RtThread.Filesystems.DfsNormalizePath
import RtThread.Filesystems.DfsNormalizeResult
import RtThread.Filesystems.DfsFs
import RtThread.Filesystems.DfsOps
import RtThread.Filesystems.DfsFd
import RtThread.Filesystems.DfsFile
import RtThread.Filesystems.DfsPosix
import RtThread.Filesystems.DfsOpenFiles
import RtThread.Filesystems.DfsMount
import RtThread.Filesystems.DfsMountTable
import RtThread.Filesystems.DfsMountedFiles
import RtThread.Filesystems.DfsDescriptors
import RtThread.Filesystems.DfsChdir
import RtThread.Finsh.Shell
import RtThread.Finsh.ShellBuffer
import RtThread.Finsh.ShellEditing
import RtThread.Finsh.ShellWakeup
import RtThread.Finsh.FinshVar
import RtThread.Finsh.FinshHeap
import RtThread.Finsh.FinshHeapBlocks
import RtThread.Finsh.FinshHeapSplit
import RtThread.Finsh.FinshHeapInvariant
import RtThread.Finsh.FinshHeapRuns
import RtThread.Finsh.MshMove
import RtThread.DeviceDrivers.SpiCore
import RtThread.DeviceDrivers.SpiConfiguration
import RtThread.DeviceDrivers.SpiSelect
import RtThread.Library.Procedure
import RtThread.DeviceDrivers.W25qxx
import RtThread.DeviceDrivers.W25qxxSectors
import RtThread.Drivers.Msd
import RtThread.Drivers.MsdTransfer
import RtThread.Drivers.MsdTalks
import RtThread.Drivers.MsdBus
import RtThread.Drivers.MsdCounts
import RtThread.Drivers.MsdInit
import RtThread.Drivers.MsdInitEnds
import RtThread.Drivers.SpiPoll
import RtThread.Drivers.SpiPollInvariant
import RtThread.Drivers.SpiPollUnmixed
import RtThread.Filesystems.DfsCopy
import RtThread.Filesystems.DfsCopyTree
import RtThread.Filesystems.DfsCopyEmpty
import RtThread.Filesystems.DfsCopyFile
import RtThread.Library.CrcDivision
import RtThread.Drivers.MsdFrames
import RtThread.Drivers.MsdTimeout
import RtThread.Drivers.MsdCapacity
import RtThread.Finsh.FinshToken
import RtThread.Finsh.FinshTokenText
import RtThread.Finsh.FinshTokenScan
import RtThread.Finsh.FinshNode
import RtThread.Finsh.FinshParse
import RtThread.Finsh.FinshTokenRest
import RtThread.Finsh.FinshParseEnds
import RtThread.Library.LongestMatch
import RtThread.Finsh.FinshLongest
import RtThread.Finsh.FinshTokenLongest
import RtThread.Finsh.FinshTokenQuotes
import RtThread.Finsh.FinshTokenised
import RtThread.Library.CStrings
import RtThread.Finsh.MshSplit
import RtThread.Kernel.Kservice
import RtThread.Finsh.ShellPrompt
import RtThread.Filesystems.DfsElm
import RtThread.Filesystems.DfsElmMount
import RtThread.Filesystems.DfsDirStream
import RtThread.Filesystems.DfsElmPosition
import RtThread.Library.BoundedOutput
import RtThread.Kernel.Vsnprintf
import RtThread.Kernel.VsnprintfTruncation
import RtThread.Filesystems.DfsElmPath
import RtThread.Library.NameSearch
import RtThread.Finsh.FinshNames
import RtThread.Library.CommonPrefix
import RtThread.Finsh.MshComplete
import RtThread.Library.ByteCopies
import RtThread.Kernel.KserviceMemory
import RtThread.Drivers.Uart
import RtThread.Kernel.MemArena
import RtThread.Kernel.MemSearch
import RtThread.Kernel.MemContents
import RtThread.Kernel.MemCapacity
import RtThread.Kernel.TimerCheckEnds
import RtThread.Library.NestedRows
import RtThread.Kernel.SkipTimers
import RtThread.Kernel.SkipTimerRows
import RtThread.Kernel.SkipTimerOrder
import RtThread.Library.Numerals
import RtThread.Kernel.VsnprintfNumbers
import RtThread.Library.DoubleRing
import RtThread.Kernel.MemHeap
import RtThread.Kernel.MemHeapShape
import RtThread.Kernel.MemHeapFrames
import RtThread.Kernel.MemHeapInvariant
import RtThread.Kernel.MemHeapRelease
import RtThread.Kernel.KserviceCompare
import RtThread.Kernel.VsnprintfBounds
import RtThread.Kernel.Kprintf
import RtThread.Kernel.AlignedBlocks
import RtThread.Library.GappedRuns
import RtThread.Kernel.SlabPages
import RtThread.Kernel.SlabPageRuns
import RtThread.Library.LockedPrograms
import RtThread.Kernel.Slab
import RtThread.Kernel.SlabLocks
import RtThread.DeviceDrivers.Portal
import RtThread.DeviceDrivers.PortalBalance
import RtThread.Kernel.SoftTimerThread
import RtThread.Kernel.MemPoolBlocks
import RtThread.Kernel.MemHeapMove
import RtThread.Kernel.MemHeapSystem
import RtThread.Kernel.MemHeapRuns
import RtThread.Finsh.FinshVm
import RtThread.Finsh.FinshCompiler
import RtThread.Finsh.FinshEvaluation
import RtThread.Finsh.FinshForest
import RtThread.Library.BlockWindow
import RtThread.Filesystems.FatVolume
import RtThread.Filesystems.FatChains
