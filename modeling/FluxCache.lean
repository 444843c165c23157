import FluxCache.Foundation.Runtime
import FluxCache.Foundation.Environment
import FluxCache.Foundation.Search
import FluxCache.Foundation.Association
import FluxCache.Foundation.LastWriter
import FluxCache.Foundation.Memory
import FluxCache.Foundation.Ownership
import FluxCache.Foundation.Interleaving
import FluxCache.Foundation.RWMutex
import FluxCache.Foundation.Linearizability
import FluxCache.Foundation.Decimal
import FluxCache.Foundation.Duration
import FluxCache.Foundation.Bufio
import FluxCache.Foundation.FileReader
import FluxCache.Foundation.BigEndian
import FluxCache.Foundation.PaddedRead
import FluxCache.Foundation.Truncation
import FluxCache.Foundation.ShiftedRead
import FluxCache.Foundation.Records
import FluxCache.Foundation.File
import FluxCache.Foundation.Listing
import FluxCache.Store.MapStore
import FluxCache.Store.Slots
import FluxCache.Store.BPTree
import FluxCache.Store.BPTreeRows
import FluxCache.Store.BPTreeInvariant
import FluxCache.Store.BPTreeInsert
import FluxCache.Store.BPTreeLeaf
import FluxCache.Store.BPTreeRefinement
import FluxCache.Store.BPTreeShape
import FluxCache.Store.BPTreeQueries
import FluxCache.Store.SkipList
import FluxCache.Store.SkipListInvariant
import FluxCache.Store.SkipListRefinement
import FluxCache.Store.SkipListQueries
import FluxCache.Store.ART
import FluxCache.Store.ARTEntries
import FluxCache.Store.ARTPlacement
import FluxCache.Store.ARTLayout
import FluxCache.Store.ARTRefinement
import FluxCache.Store.ARTCompletion
import FluxCache.Store.ARTQueries
import FluxCache.Store.ARTFrame
import FluxCache.Store.Bitcask
import FluxCache.Store.BitcaskCrash
import FluxCache.Store.CRDT
import FluxCache.Store.CRDTHistory
import FluxCache.Store.CRDTJoin
import FluxCache.Store.CRDTDelivery
import FluxCache.Store.CRDTLocks
import FluxCache.Store.Eviction
import FluxCache.Store.TTL
import FluxCache.Store.TTLLimit
import FluxCache.Store.TTLSweep
import FluxCache.Store.PolicyMemory
import FluxCache.Store.PolicyKeys
import FluxCache.Store.Recency
import FluxCache.Store.WriteEviction
import FluxCache.Store.Expiry
import FluxCache.Store.TTLInterleaving
import FluxCache.Store.TTLLimitInterleaving
import FluxCache.Store.TTLDeadlineInterleaving
import FluxCache.Store.LockFree
import FluxCache.Store.LockFreeInvariant
import FluxCache.Store.LockFreeAtomicity
import FluxCache.Store.LockFreeLinearizable
import FluxCache.Store.SyncMap
import FluxCache.Store.SyncMapLedger
import FluxCache.Store.SyncMapLinearizable
import FluxCache.Store.Sharded
import FluxCache.Store.Backend
import FluxCache.Store.TTLBackend
import FluxCache.Resp.Value
import FluxCache.Resp.Reader
import FluxCache.Resp.RoundTrip
import FluxCache.Resp.Delivery
import FluxCache.Resp.Torn
import FluxCache.Resp.Safety
import FluxCache.Network.Connection
import FluxCache.Network.Backends
import FluxCache.Network.Authentication
import FluxCache.Network.Replies
import FluxCache.Network.Related
import FluxCache.Network.Listener
import FluxCache.Persistence.Interface
import FluxCache.Persistence.WALCodec
import FluxCache.Persistence.WAL
import FluxCache.Persistence.WALFailure
import FluxCache.Persistence.AOF
import FluxCache.Persistence.AOFCrash
import FluxCache.Persistence.Dual
import FluxCache.Persistence.RDB
import FluxCache.Persistence.RDBLong
import FluxCache.Persistence.RDBSessions
import FluxCache.Persistence.RDBCrash
import FluxCache.Persistence.RDBShutdown
import FluxCache.Configuration.Validate
import FluxCache.Configuration.BuildNetwork
import FluxCache.Configuration.Build
import FluxCache.Configuration.MemorySize
import FluxCache.Configuration.PersistenceTree
import FluxCache.Server.Handler
import FluxCache.Server.Main
import FluxCache.Server.Restart
import FluxCache.Server.WriteOrder
import FluxCache.Server.RequestSteps
import FluxCache.Server.Rejected
import FluxCache.Server.Deadline
import FluxCache.Server.Framing
import FluxCache.Server.Existing
import FluxCache.Server.Widths
import FluxCache.Server.BackendIndependence
import FluxCache.Server.Shutdown
