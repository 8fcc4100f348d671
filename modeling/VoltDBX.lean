import VoltDBX.KeyedList
import VoltDBX.TextLines
import VoltDBX.Text
import VoltDBX.HashTable
import VoltDBX.HashTableMap
import VoltDBX.Memory
import VoltDBX.StorageEngine
import VoltDBX.Config
import VoltDBX.KeyScanner
import VoltDBX.Parser
import VoltDBX.PubSub
import VoltDBX.AofLog
import VoltDBX.Snapshot
import VoltDBX.Handlers
import VoltDBX.Dispatcher
import VoltDBX.Conversions
import VoltDBX.Reference
import VoltDBX.Effects
import VoltDBX.Durability
import VoltDBX.ScanIteration
import VoltDBX.ScanStability
import VoltDBX.LogRewrite
import VoltDBX.Races
import VoltDBX.Expiry
import VoltDBX.Sweeps
import VoltDBX.Session
import VoltDBX.Framing
import VoltDBX.Isolation
import VoltDBX.Restart
import VoltDBX.TornLog
import VoltDBX.Delivery
import VoltDBX.Teardown
import VoltDBX.Fanout
import VoltDBX.Admission
import VoltDBX.Password
import VoltDBX.Tokens
import VoltDBX.Glob
import VoltDBX.ScanPages
import VoltDBX.ArrayReplies
import VoltDBX.TableGrowth
import VoltDBX.Deadlines
import VoltDBX.SessionLines
import VoltDBX.Counters
import VoltDBX.Transport
import VoltDBX.Regions
import VoltDBX.Arena
import VoltDBX.ArenaReuse
import VoltDBX.PoolOwners
import VoltDBX.Interleavings
import VoltDBX.Wire
import VoltDBX.Lifetimes
import VoltDBX.Footprints
import VoltDBX.Draining
import VoltDBX.Progress
import VoltDBX.ServerProcess
import VoltDBX.Shutdown
import VoltDBX.ConcurrentCopies
import VoltDBX.CallTurns
import VoltDBX.Programs
import VoltDBX.Reads
import VoltDBX.TableCalls
import VoltDBX.Descriptors
import VoltDBX.Startup
import VoltDBX.Linearization
import VoltDBX.Indivisible
import VoltDBX.CallProcess
import VoltDBX.CallOrder
import VoltDBX.Gauges
import VoltDBX.Scans
