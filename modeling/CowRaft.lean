import CowRaft.Foundations.SearchTree
import CowRaft.Foundations.HeapTree
import CowRaft.Foundations.Refinement
import CowRaft.Foundations.Completeness
import CowRaft.Btree.InternalOps
import CowRaft.Btree.Meta
import CowRaft.Btree.TreeShape
import CowRaft.Btree.Cuts
import CowRaft.Btree.TreeContents
import CowRaft.Btree.WellFormed
import CowRaft.Btree.Isolation
import CowRaft.Btree.Growth
import CowRaft.Btree.FileStore
import CowRaft.Raft.Safety
import CowRaft.Btree.Codec
import CowRaft.Btree.Splits
import CowRaft.Btree.Offsets
import CowRaft.Raft.Repair
import CowRaft.Raft.Snapshots
import CowRaft.Raft.Lanes
import CowRaft.Raft.Hints
import CowRaft.Raft.NodeConfig
import CowRaft.Raft.Timers
import CowRaft.Raft.Ledger
import CowRaft.Raft.Refusals
import CowRaft.Raft.CommitIndex
import CowRaft.Raft.MatchIndex
import CowRaft.Raft.Durability
import CowRaft.Raft.Linearizable
import CowRaft.Btree.Recovery
import CowRaft.Btree.Cost
import CowRaft.Btree.FileRuns
import CowRaft.Raft.Progress
import CowRaft.Raft.HttpApi
