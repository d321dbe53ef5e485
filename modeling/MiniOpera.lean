import MiniOpera.Lib.Batches
import MiniOpera.Lib.Blocks
import MiniOpera.Lib.ByteOrder
import MiniOpera.Lib.Cache
import MiniOpera.Lib.Chunks
import MiniOpera.Lib.Dag
import MiniOpera.Lib.EvictingSet
import MiniOpera.Lib.GoRuntime
import MiniOpera.Lib.Holdings
import MiniOpera.Lib.LittleEndian
import MiniOpera.Lib.Recency
import MiniOpera.Lib.RecordStream
import MiniOpera.Lib.RlpItem
import MiniOpera.Lib.Threads
import MiniOpera.Fast
import MiniOpera.InterEvent
import MiniOpera.EventWire
import MiniOpera.EventDecode
import MiniOpera.EventCodec
import MiniOpera.EventCheck
import MiniOpera.GossipStore
import MiniOpera.Consensus
import MiniOpera.Service
import MiniOpera.Genesis
import MiniOpera.Ledger
import MiniOpera.Refinement
import MiniOpera.Runs
import MiniOpera.Heads
import MiniOpera.Packs
import MiniOpera.PinnedHeads
import MiniOpera.Rejection
import MiniOpera.Interleaving
import MiniOpera.Emitting
import MiniOpera.AdvertisedPacks
import MiniOpera.BitArrays
import MiniOpera.Bits
import MiniOpera.BlockCounters
import MiniOpera.BroadcastCost
import MiniOpera.BuiltEvents
import MiniOpera.CacheTransparency
import MiniOpera.CompactIntegers
import MiniOpera.DialTarget
import MiniOpera.DialTermination
import MiniOpera.EntryQueue
import MiniOpera.EventIteration
import MiniOpera.EventReplies
import MiniOpera.ExecQueue
import MiniOpera.ForeignChains
import MiniOpera.GenesisDigest
import MiniOpera.Handshake
import MiniOpera.HandshakeRuns
import MiniOpera.HeavyCheck
import MiniOpera.HeavyCheckProgress
import MiniOpera.HeavyCheckRuns
import MiniOpera.KnownEvents
import MiniOpera.KnownNodes
import MiniOpera.MalformedEvents
import MiniOpera.Migrations
import MiniOpera.PackMessages
import MiniOpera.PeerSessions
import MiniOpera.Peers
import MiniOpera.PinnedPacks
import MiniOpera.PoolDialing
import MiniOpera.PoolEntries
import MiniOpera.PoolIndex
import MiniOpera.PoolRefinement
import MiniOpera.PoolRuns
import MiniOpera.PoolShutdown
import MiniOpera.PoolSums
import MiniOpera.ProgressRuns
import MiniOpera.Publication
import MiniOpera.QueueOrder
import MiniOpera.QueuedCalls
import MiniOpera.RandSelect
import MiniOpera.Readers
import MiniOpera.Restart
import MiniOpera.RestartRuns
import MiniOpera.Roster
import MiniOpera.SelectionChoice
import MiniOpera.SelectionCounters
import MiniOpera.SelectionMap
import MiniOpera.ServerPool
import MiniOpera.SessionLimits
import MiniOpera.SessionShutdown
import MiniOpera.SharedState
import MiniOpera.SharedView
import MiniOpera.Startup
import MiniOpera.StopProgress
import MiniOpera.UnlockedReads
