import Ltfs.Format
import Ltfs.Lib.Log
import Ltfs.Lib.Run
import Ltfs.Lib.Cells
import Ltfs.Lib.Sparse
import Ltfs.Lib.Paths
import Ltfs.Lib.Ordered
import Ltfs.Records
import Ltfs.Constructs
import Ltfs.TapeDevice
import Ltfs.TapeSpec
import Ltfs.WriteIndex
import Ltfs.WriteSession
import Ltfs.IndexSession
import Ltfs.IndexBody
import Ltfs.Stamp
import Ltfs.DataSession
import Ltfs.VolumeRun
import Ltfs.FileEnd
import Ltfs.BackPointers
import Ltfs.GoodDrive
import Ltfs.Consistent
import Ltfs.CrashSafe
import Ltfs.Revalidate
import Ltfs.RevalidateRun
import Ltfs.Mount
import Ltfs.MountSpec
import Ltfs.Coherent
import Ltfs.MountRun
import Ltfs.RawFile
import Ltfs.RawSpec
import Ltfs.ExtentMap
import Ltfs.ExtentOrder
import Ltfs.ExtentWords
import Ltfs.RawWrite
import Ltfs.RawRead
import Ltfs.BlockCache
import Ltfs.BlockCacheSpec
import Ltfs.IndexStream
import Ltfs.Requests
import Ltfs.RequestSpec
import Ltfs.Unified
import Ltfs.Dentry
import Ltfs.Fsops
import Ltfs.LockSpec
import Ltfs.Handles
import Ltfs.DentryTree
import Ltfs.Lookup
import Ltfs.CreateSpec
import Ltfs.UnlinkSpec
import Ltfs.RenameLookup
import Ltfs.TreeSteps
import Ltfs.RenameSpec
import Ltfs.NamespaceRun
import Ltfs.HandleCounts
import Ltfs.PathNames
import Ltfs.FileCounts
import Ltfs.UsedBlocks
import Ltfs.RenameTree
import Ltfs.FailedCalls
import Ltfs.LockBalance
import Ltfs.VolumeLock
import Ltfs.VolumeLockSpec
import Ltfs.XmlReader
import Ltfs.XmlIndex
import Ltfs.XmlExtents
import Ltfs.XmlSpec
import Ltfs.Queues
import Ltfs.QueueSpec
import Ltfs.RequestCalls
import Ltfs.CallSpec
import Ltfs.WriteCalls
import Ltfs.DrainCalls
import Ltfs.SchedulerRun
import Ltfs.SchedulerSpec
import Ltfs.SchedulerCounts
import Ltfs.ExtQueue
import Ltfs.ExtQueueSpec
import Ltfs.Lib.Census
import Ltfs.MrswLock
import Ltfs.MrswInvariant
import Ltfs.MrswSpec
import Ltfs.Lib.Labels
import Ltfs.XmlUids
import Ltfs.UidRun
import Ltfs.XmlNames
import Ltfs.XmlNamesSpec
import Ltfs.Lib.Calendar
import Ltfs.Lib.Decimal
import Ltfs.TimeFormat
import Ltfs.TimeSpec
import Ltfs.Lib.Program
import Ltfs.Lib.Program
import Ltfs.CacheManager
import Ltfs.BlockCalls
import Ltfs.BlockLabels
import Ltfs.BlockRun
import Ltfs.LastRef
import Ltfs.LastRefSpec
import Ltfs.ExtentRange
import Ltfs.IndexSearch
import Ltfs.SeekSpec
import Ltfs.TraverseSpec
import Ltfs.Rollback
import Ltfs.RealSize
import Ltfs.AltExtents
import Ltfs.AltReplay
import Ltfs.ReadSpec
import Ltfs.FlushSpec
import Ltfs.FlushAll
import Ltfs.WriteClear
import Ltfs.WriteVisit
import Ltfs.WriteStart
import Ltfs.WriteRefill
import Ltfs.WriteOrder
import Ltfs.RequestOrder
import Ltfs.CalendarSpec
import Ltfs.Base64
import Ltfs.Lib.Base64
import Ltfs.Base64Spec
import Ltfs.Criteria
import Ltfs.CriteriaSize
import Ltfs.Lib.Split
import Ltfs.CriteriaFind
import Ltfs.CriteriaParse
import Ltfs.Lib.Machine
import Ltfs.Lib.Glob
import Ltfs.Lib.Backtrack
import Ltfs.GlobMatch
import Ltfs.GlobSpec
import Ltfs.ExtentAlloc
import Ltfs.WritePass
import Ltfs.WritePassBlocks
import Ltfs.RevalidateSane
import Ltfs.WritePassSpec
import Ltfs.Lib.Oracle
import Ltfs.XmlNumbers
import Ltfs.XmlNumbersSpec
import Ltfs.Lib.Keyed
import Ltfs.Xattr
import Ltfs.XattrSpec
import Ltfs.LostFound
import Ltfs.LostFoundSpec
import Ltfs.Lib.Lexical
import Ltfs.SymlinkPath
import Ltfs.SymlinkSpec
import Ltfs.SafeName
import Ltfs.SafeNameSpec
import Ltfs.PolicyOverride
import Ltfs.SpaceSpec
import Ltfs.Lib.ShiftRegister
import Ltfs.Crc32c
import Ltfs.Crc32cSpec
import Ltfs.Crc32cCheck
import Ltfs.Lib.LongDivision
import Ltfs.ReedSolomon
import Ltfs.Lib.BinaryField
import Ltfs.ReedSolomonSpec
import Ltfs.ReedSolomonCheck
import Ltfs.CacheRun
import Ltfs.Lib.MergeRuns
import Ltfs.DirSort
import Ltfs.IndexVersion
import Ltfs.Lib.Recursive
import Ltfs.ConfigFile
import Ltfs.ConfigSpec
import Ltfs.ConfigReach
import Ltfs.ConfigCycles
import Ltfs.KeyFormat
import Ltfs.KeyList
import Ltfs.KeyBytes
import Ltfs.KeyFormatSpec
import Ltfs.FileDrive
import Ltfs.Cassette
import Ltfs.FileDriveCrash
import Ltfs.FileDriveEod
import Ltfs.FileDriveStamp
import Ltfs.FileDriveTape
import Ltfs.FileDriveFormat
import Ltfs.KeyFlatfile
import Ltfs.Fcfs
