import DistributedLabs.Lib.Transition
import DistributedLabs.Lib.Linearizability
import DistributedLabs.Lib.Json
import DistributedLabs.Lib.Grouping
import DistributedLabs.Lib.Loop
import DistributedLabs.Lib.Balance
import DistributedLabs.Lib.Stream
import DistributedLabs.Lib.Search
import DistributedLabs.Lib.Pool
import DistributedLabs.Lib.Explore
import DistributedLabs.KvSrv.Server
import DistributedLabs.KvSrv.Network
import DistributedLabs.KvSrv.Accounting
import DistributedLabs.KvSrv.Verdicts
import DistributedLabs.KvSrv.Linearizable
import DistributedLabs.KvSrv.Versions
import DistributedLabs.KvSrv.NoKey
import DistributedLabs.KvSrv.Append
import DistributedLabs.KvSrv.AppendSafety
import DistributedLabs.KvSrv.AppendCheck
import DistributedLabs.KvSrv.OnePut
import DistributedLabs.KvSrv.PutConcurrent
import DistributedLabs.KvSrv.ReadBack
import DistributedLabs.KvSrv.Wraparound
import DistributedLabs.KvSrv.Model
import DistributedLabs.KvSrv.OpLog
import DistributedLabs.KvSrv.Lock
import DistributedLabs.KvSrv.LockInvariant
import DistributedLabs.KvSrv.LockSafety
import DistributedLabs.KvSrv.Release
import DistributedLabs.MapReduce.Coordinator
import DistributedLabs.MapReduce.Protocol
import DistributedLabs.MapReduce.CoordinatorSafety
import DistributedLabs.MapReduce.Records
import DistributedLabs.MapReduce.Dataflow
import DistributedLabs.MapReduce.Files
import DistributedLabs.MapReduce.Worker
import DistributedLabs.MapReduce.Intermediate
import DistributedLabs.MapReduce.Rerun
import DistributedLabs.MapReduce.EndToEnd
import DistributedLabs.MapReduce.Partition
import DistributedLabs.MapReduce.Replay
import DistributedLabs.MapReduce.Provenance
import DistributedLabs.MapReduce.Progress
import DistributedLabs.MapReduce.Applications
import DistributedLabs.ShardCfg.Config
import DistributedLabs.ShardCfg.Rebalance
import DistributedLabs.ShardCfg.Membership
import DistributedLabs.ShardCfg.Orders
import DistributedLabs.Demux.Client
import DistributedLabs.Demux.Delivery
import DistributedLabs.Demux.Results
import DistributedLabs.Demux.Server
import DistributedLabs.Demux.Dispatch
import DistributedLabs.Demux.Transport
import DistributedLabs.LabRpc.Network
import DistributedLabs.LabRpc.Semantics
import DistributedLabs.KvSrv.OnLabRpc
import DistributedLabs.KvSrv.QuietNetwork
import DistributedLabs.LabGob.CheckType
import DistributedLabs.Tester.Group
import DistributedLabs.Tester.Connectivity
import DistributedLabs.Tester.MakePartition
import DistributedLabs.Tester.Clnt
import DistributedLabs.Raft.CheckLogs
import DistributedLabs.Raft.Applier
import DistributedLabs.Raft.CommonLog
import DistributedLabs.Raft.LateIngest
import DistributedLabs.Raft.Exact
import DistributedLabs.Crawler.Serial
import DistributedLabs.Crawler.Mutex
import DistributedLabs.Crawler.Channel
import DistributedLabs.Crawler.Agreement
import DistributedLabs.Lecture.Schedule
