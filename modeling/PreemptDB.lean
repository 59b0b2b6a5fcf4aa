import PreemptDB.StepRun
import PreemptDB.Command
import PreemptDB.LinkedChain
import PreemptDB.NewestBelow
import PreemptDB.ByteMem
import PreemptDB.WordMem
import PreemptDB.X86
import PreemptDB.FatPtr
import PreemptDB.SizeEncode
import PreemptDB.LogRecord
import PreemptDB.Mvcc
import PreemptDB.MvccMove
import PreemptDB.ChainInv
import PreemptDB.ChainLink
import PreemptDB.ChainLoop
import PreemptDB.CommitRound
import PreemptDB.VersionChain
import PreemptDB.FirstUpdater
import PreemptDB.SnapshotRead
import PreemptDB.AbortAtomic
import PreemptDB.LogRoundTrip
import PreemptDB.TlsLog
import PreemptDB.LogPlacement
import PreemptDB.Pcommit
import PreemptDB.DurableCsn
import PreemptDB.PipelinedCommit
import PreemptDB.XidContext
import PreemptDB.ContextRecycle
import PreemptDB.WorkerState
import PreemptDB.Worker
import PreemptDB.Preemption
import PreemptDB.LockScopes
import PreemptDB.LockHolder
import PreemptDB.CommitWindow
import PreemptDB.ContextSwitch
import PreemptDB.SwitchFrame
import PreemptDB.SwitchBack
import PreemptDB.Transparency
import PreemptDB.OneToOneQueue
import PreemptDB.Scheduling
import PreemptDB.ExactlyOnce
import PreemptDB.Segment
import PreemptDB.SparseBitset
import PreemptDB.OidAlloc
import PreemptDB.OidBitmaps
import PreemptDB.OidPartition
import PreemptDB.Epoch
import PreemptDB.EpochSafety
import PreemptDB.EpochStep
import PreemptDB.EpochRun
import PreemptDB.EpochOrder
import PreemptDB.Addresses
import PreemptDB.FdTable
import PreemptDB.SegmentFiles
import PreemptDB.BlockLayout
import PreemptDB.ReadOnlyWait
import PreemptDB.EpochWatch
import PreemptDB.EpochStuck
import PreemptDB.ReturnCode
import PreemptDB.PhantomCheck
import PreemptDB.Yielding
import PreemptDB.EpochEffect
import PreemptDB.XidAlloc
import PreemptDB.XidPlaces
import PreemptDB.XidInv
import PreemptDB.XidUnique
import PreemptDB.DoubleBuffer
import PreemptDB.LogCommit
import PreemptDB.ColdAddress
import PreemptDB.Engine
import PreemptDB.EmptyChain
import PreemptDB.SegmentBound
import PreemptDB.Ring
import PreemptDB.CommitFifo
import PreemptDB.CommitOrder
import PreemptDB.Pin
import PreemptDB.GetRecord
import PreemptDB.Scan
import PreemptDB.OidContext
import PreemptDB.CacheOverrun
import PreemptDB.ThreadExit
import PreemptDB.OidL3
import PreemptDB.L3Words
import PreemptDB.L3Drain
import PreemptDB.L3Conservation
import PreemptDB.BitsetValues
import PreemptDB.Dynarray
import PreemptDB.ByteOrder
import PreemptDB.KeyCodec
import PreemptDB.RecordCodec
import PreemptDB.SizeCodes
import PreemptDB.ScanBoundary
import PreemptDB.Delivery
import PreemptDB.ThreadHandOff
import PreemptDB.ScHash
import PreemptDB.ScHashSet
import PreemptDB.SecondaryIndex
import PreemptDB.CommittedHead
import PreemptDB.SingleClient
