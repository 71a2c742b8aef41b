import SliceFs.LittleEndian
import SliceFs.ByteFile
import SliceFs.ProgramLogic
import SliceFs.Checked
import SliceFs.Blockset
import SliceFs.Codec
import SliceFs.Directory
import SliceFs.EntryListDecoder
import SliceFs.Numerals
import SliceFs.Segment
import SliceFs.SegmentLog
import SliceFs.Gc
import SliceFs.SegmentReader
import SliceFs.Compaction
import SliceFs.BackgroundGc
import SliceFs.Commands
import SliceFs.MountLock
import SliceFs.HandleFrame
import SliceFs.Snapshots
import SliceFs.SnapshotNames
import SliceFs.SnapshotSwitch
import SliceFs.Xattr
import SliceFs.Wal
import SliceFs.MemoryBackend
import SliceFs.MetadataStore
import SliceFs.RootRecord
import SliceFs.LoadSafety
import SliceFs.StoreHistory
import SliceFs.OpenFiles
import SliceFs.Namespace
import SliceFs.Files
import SliceFs.StoreContents
import SliceFs.FilesView
import SliceFs.OpenView
import SliceFs.NamespaceView
import SliceFs.Seed
import SliceFs.Mount
import SliceFs.Numbers
import SliceFs.WritePath
import SliceFs.Rewrite
import SliceFs.Tree
import SliceFs.TreeView
import SliceFs.TreeSteps
import SliceFs.DirectoryMap
import SliceFs.Links
import SliceFs.Paths
import SliceFs.Orphans
import SliceFs.DirScan
import SliceFs.LongNames
import SliceFs.Directories
import SliceFs.Planting
import SliceFs.Attributes
import SliceFs.Ledger
import SliceFs.Truncation
import SliceFs.Readable
import SliceFs.Unmount
import SliceFs.OpenTable
import SliceFs.CasFailure
import SliceFs.NodeWrites
import SliceFs.WalStrategies
import SliceFs.SharedFile
import SliceFs.Sizes
import SliceFs.Counting
import SliceFs.Setters
import SliceFs.Holders
import SliceFs.Leaks
import SliceFs.Gregorian
import SliceFs.Timestamps
import SliceFs.PathFs
import SliceFs.Chunking
import SliceFs.Compression
import SliceFs.DedupIndex
import SliceFs.BlockStores
import SliceFs.XattrMap
import SliceFs.Journal
import SliceFs.StoreRecords
import SliceFs.CrashLog
import SliceFs.StoreLifetime
import SliceFs.SeededStore
import SliceFs.Accounts
import SliceFs.Sessions
import SliceFs.NameRuns
import SliceFs.RootDirectory
import SliceFs.Interleavings
