import Flotsync.Lib.Pointwise
import Flotsync.Lib.Checked
import Flotsync.Lib.Search
import Flotsync.Lib.Chunks
import Flotsync.Lib.BigEndian
import Flotsync.Lib.PositionMap
import Flotsync.Lib.SortedMap
import Flotsync.Lib.CausalChain
import Flotsync.Lib.PrefixCode
import Flotsync.Lib.MinQueue
import Flotsync.Lib.Simulation
import Flotsync.Lib.Subslice
import Flotsync.Versions.FlatVector
import Flotsync.Versions.Compare
import Flotsync.Versions.Lattice
import Flotsync.Versions.Update
import Flotsync.Versions.Group
import Flotsync.Replication.VersionCodec
import Flotsync.Replication.ApplyPlan
import Flotsync.Replication.RetryQueue
import Flotsync.Security.Transcript
import Flotsync.Io.Framing
import Flotsync.Io.ChunkPool
import Flotsync.Io.Lease
import Flotsync.Io.Pools
import Flotsync.Io.Coverage
import Flotsync.Member.Identifier
import Flotsync.Member.Trie
import Flotsync.Member.TrieEntries
import Flotsync.Member.GroupMembers
import Flotsync.LinearData.Node
import Flotsync.LinearData.Vec
import Flotsync.LinearData.Coalesced
import Flotsync.LinearData.Positions
import Flotsync.LinearData.Split
import Flotsync.LinearData.DeleteRange
import Flotsync.LinearData.VecIntegrity
import Flotsync.LinearData.RightTree
import Flotsync.LinearData.Integrity
import Flotsync.LinearData.Snapshot
import Flotsync.LinearData.Runs
import Flotsync.LinearData.Elements
import Flotsync.LinearData.Edits
import Flotsync.AnyData.LatestValue
import Flotsync.AnyData.LatestValueMerge
import Flotsync.AnyData.LinearList
import Flotsync.Schema.InMemory
import Flotsync.Schema.Operations
import Flotsync.Schema.Convergence
import Flotsync.Udpour.Types
import Flotsync.Udpour.Sender
import Flotsync.Udpour.SenderIds
import Flotsync.Udpour.SenderFrames
import Flotsync.Udpour.SenderRun
import Flotsync.Udpour.Receiver
import Flotsync.Udpour.Reassembly
import Flotsync.Udpour.ReceiverSteps
import Flotsync.Udpour.ReceiverSafety
import Flotsync.Udpour.Repair
import Flotsync.Udpour.Codec
import Flotsync.Udpour.ReceiverTotal
import Flotsync.Udpour.EndToEnd
import Flotsync.AnyData.LinearDiff
