import Rudurru.Compaction
import Rudurru.Deferral
import Rudurru.Discard
import Rudurru.Expiry
import Rudurru.Filters
import Rudurru.Forgery
import Rudurru.Found
import Rudurru.Head
import Rudurru.History
import Rudurru.KeysOnly
import Rudurru.LeaseIds
import Rudurru.LeaseReplies
import Rudurru.Leases
import Rudurru.Lib.Alarm
import Rudurru.Lib.FramedLog
import Rudurru.Lib.KeyedLog
import Rudurru.Lib.Paging
import Rudurru.Lib.Prog
import Rudurru.Lib.Refine
import Rudurru.Lib.Resync
import Rudurru.Lib.Selection
import Rudurru.Lib.Trace
import Rudurru.Lib.Varint
import Rudurru.Lifetimes
import Rudurru.Listing
import Rudurru.Migration
import Rudurru.Mvcc
import Rudurru.MvccRuns
import Rudurru.MvccSound
import Rudurru.Oblivious
import Rudurru.Optimistic
import Rudurru.Orphans
import Rudurru.Overflow
import Rudurru.Proto
import Rudurru.Recovery
import Rudurru.Reference
import Rudurru.Representation
import Rudurru.Restart
import Rudurru.Salvage
import Rudurru.Server.Answers
import Rudurru.Server.Batching
import Rudurru.Server.Cancel
import Rudurru.Server.Channels
import Rudurru.Server.Delivery
import Rudurru.Server.ExactlyOnce
import Rudurru.Server.Handoff
import Rudurru.Server.HandoffSound
import Rudurru.Server.Hash
import Rudurru.Server.Isolation
import Rudurru.Server.ListWatch
import Rudurru.Server.PrevKv
import Rudurru.Server.Progress
import Rudurru.Server.Rebuilt
import Rudurru.Server.Replica
import Rudurru.Server.Snapshot
import Rudurru.Server.Stream
import Rudurru.Server.StreamSound
import Rudurru.Server.Transport
import Rudurru.Server.Watch
import Rudurru.Server.WatchIds
import Rudurru.Server.WatchOrder
import Rudurru.Server.WatchSound
import Rudurru.Server.WatchStart
import Rudurru.Storage.Apply
import Rudurru.Storage.Blob
import Rudurru.Storage.Bounds
import Rudurru.Storage.BoundsSound
import Rudurru.Storage.Codec
import Rudurru.Storage.CodecSound
import Rudurru.Storage.Fsync
import Rudurru.Storage.Keyspace
import Rudurru.Storage.Legacy
import Rudurru.Storage.OpenSound
import Rudurru.Storage.Pages
import Rudurru.Storage.Range
import Rudurru.Storage.RangeSound
import Rudurru.Storage.Records
import Rudurru.Storage.Scanning
import Rudurru.Storage.Sorting
import Rudurru.Storage.State
import Rudurru.Storage.Store
import Rudurru.Storage.StoreSound
import Rudurru.Storage.Wal
import Rudurru.Storage.WalSound
import Rudurru.Storage.Walkers
import Rudurru.System
import Rudurru.SystemSound
import Rudurru.Txn.Abort
import Rudurru.Txn.Backwards
import Rudurru.Txn.Commute
import Rudurru.Txn.Deferred
import Rudurru.Txn.Duplicates
import Rudurru.Txn.Overlap
import Rudurru.Txn.Panics
import Rudurru.Txn.Ready
import Rudurru.Txn.Trace
import Rudurru.Undelete
import Rudurru.Verify
import Rudurru.Watermark
