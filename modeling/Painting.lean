import Painting.Core.Memory
import Painting.Core.Transition
import Painting.Core.Bitmap
import Painting.Mm.Buddy
import Painting.Mm.BuddyInvariant
import Painting.User.Malloc
import Painting.User.MallocInvariant
import Painting.User.MallocSafety
import Painting.Fs.Descriptors
import Painting.Fs.DescriptorInvariant
import Painting.Mm.PageTable
import Painting.Mm.PageTableInvariant
import Painting.Mm.Mapping
import Painting.Sched.Threads
import Painting.Sched.ThreadsInvariant
import Painting.Sched.SleepLock
import Painting.Sched.WaitExit
import Painting.Fs.Fat32
import Painting.Fs.FatVolume
import Painting.Fs.FatChains
import Painting.Fs.FatMirror
import Painting.Fs.FileWrite
import Painting.Fs.BufferCache
import Painting.Fs.BufferCacheInvariant
import Painting.Mm.BuddyConservation
import Painting.Mm.UserCopy
import Painting.Sys.SysRead
import Painting.Sys.SysReadSafety
import Painting.Mm.Slab
import Painting.Mm.SlabInvariant
import Painting.Mm.Uvm
import Painting.Mm.Ownership
import Painting.Mm.Spaces
import Painting.Mm.SpaceCopy
import Painting.Mm.SpaceFree
import Painting.Mm.SpaceLife
import Painting.Fs.DirentCounts
import Painting.Mm.Parties
import Painting.Proc.Kernel
import Painting.Sched.SleepLockExclusion
import Painting.Dev.Virt
import Painting.Dev.VirtInvariant
import Painting.Sched.RunQueue
import Painting.Sched.ExitLocks
import Painting.Mm.SlabRuns
import Painting.Mm.SlabRunsInvariant
import Painting.Mm.SlabObjects
import Painting.Mm.SlabSearch
import Painting.Mm.SlabPages
import Painting.Mm.TableCount
import Painting.Proc.Create
import Painting.Fs.SequentialRead
import Painting.Fs.Directory
import Painting.Fs.DirectoryListing
import Painting.Fs.LongNames
import Painting.Fs.NameMatch
import Painting.Fs.DeletedSlots
import Painting.Core.Threaded
import Painting.Fs.PathWalk
import Painting.Mm.FreePages
import Painting.User.Stdio
import Painting.User.ShellGrammar
import Painting.Dev.DeviceTree
import Painting.Dev.DeviceTreeBlocks
import Painting.Proc.Ledger
import Painting.Proc.Lifecycle
import Painting.Proc.ForkExit
import Painting.Proc.KernelStacks
import Painting.Fs.ReadCount
import Painting.Fs.ClusterBytes
import Painting.Sys.FilePosition
import Painting.Fs.BootSector
import Painting.Fs.ChainWalks
import Painting.Fs.BufferRecency
import Painting.Mm.UvmGrow
import Painting.Mm.FlatCopy
import Painting.Mm.Kalloc
import Painting.Mm.BuddyMerge
import Painting.Proc.Loader
import Painting.Proc.LoadedImage
import Painting.Proc.Exec
import Painting.Proc.ExecStack
import Painting.Sys.SysExec
import Painting.Proc.ForkFailure
import Painting.Dev.Printf
import Painting.Fs.ShortNames
import Painting.Fs.StringCompare
import Painting.Sys.Console
import Painting.Sys.SysWrite
import Painting.User.MallocSizes
import Painting.User.ShellSpans
import Painting.Mm.PageRanges
import Painting.Fs.FileRemove
import Painting.Fs.FileExtend
import Painting.Fs.ClusterBoundaries
import Painting.Fs.LookupStores
import Painting.Core.Links
import Painting.Lib.List
import Painting.Lib.ListEdits
import Painting.Core.NaturalMerge
import Painting.Lib.ListSort
import Painting.Lib.ListOrder
import Painting.Lib.ListRuns
import Painting.Sched.QueueLinks
import Painting.Sys.Sbrk
import Painting.Sched.Startup
import Painting.Proc.Families
import Painting.Proc.Isolation
import Painting.Sched.Interrupts
import Painting.Sched.InterruptsInvariant
