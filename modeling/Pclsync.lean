import Pclsync.Proofs.CryptoLayout
import Pclsync.Proofs.CryptoSize
import Pclsync.Proofs.Filename
import Pclsync.Proofs.ResultBuild
import Pclsync.Proofs.Prepare
import Pclsync.Proofs.Pattern
import Pclsync.Proofs.RangeNext
import Pclsync.Proofs.Checksum
import Pclsync.Proofs.BlockHeader
import Pclsync.Proofs.BlockTable
import Pclsync.Proofs.DownloadRanges
import Pclsync.Proofs.LogIntervals
import Pclsync.Proofs.LogName
import Pclsync.Proofs.Ctr
import Pclsync.Proofs.Qpartition
import Pclsync.Proofs.Pqsort
import Pclsync.Proofs.Clean
import Pclsync.Proofs.Restart
import Pclsync.Proofs.RwLockSafety
import Pclsync.Proofs.ObjectsOwned
import Pclsync.Proofs.Alarms
import Pclsync.Proofs.DriveTasks
import Pclsync.Proofs.SyncTasks
import Pclsync.Proofs.ParentCache
import Pclsync.Proofs.Upload
import Pclsync.Proofs.Urls
import Pclsync.Proofs.Flush
import Pclsync.Proofs.Pool
import Pclsync.Proofs.Manager
import Pclsync.Proofs.OpenFile
import Pclsync.Proofs.Socket
import Pclsync.Proofs.Resolve
import Pclsync.Proofs.RunTasks
import Pclsync.Proofs.SyncMove
import Pclsync.Proofs.Finish
import Pclsync.Proofs.Entries
import Pclsync.Proofs.Downloads
import Pclsync.Proofs.CryptoSectorId
import Pclsync.Proofs.IntervalTree
import Pclsync.Proofs.Syncer
import Pclsync.Proofs.Trashes
import Pclsync.Proofs.ScanRename
import Pclsync.Proofs.ScanFolder
import Pclsync.Proofs.NamedTrees
import Pclsync.Proofs.OpenFiles
import Pclsync.Proofs.Removal
import Pclsync.Proofs.Rename
import Pclsync.Proofs.PathStatus
import Pclsync.Proofs.Handlers
import Pclsync.Proofs.Crc32c
import Pclsync.Proofs.FastHash
import Pclsync.Proofs.Refresh
import Pclsync.Proofs.WriteSpace
import Pclsync.Proofs.Delayed
import Pclsync.Proofs.FolderPaths
import Pclsync.Proofs.UploadCounters
import Pclsync.Proofs.Reopen
import Pclsync.Proofs.Xattr
import Pclsync.Proofs.Depend
import Pclsync.Proofs.Base64
import Pclsync.Proofs.StatusLine
import Pclsync.Proofs.Transaction
import Pclsync.Proofs.Conflict
import Pclsync.Proofs.Builder
