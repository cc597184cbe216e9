import DistSystem.Lib.Fallible
import DistSystem.Lib.OrderStat
import DistSystem.Lib.Dedup
import DistSystem.Lib.Replog
import DistSystem.Lib.ReplogElection
import DistSystem.Lib.ReplogLog
import DistSystem.Lib.ReplogCommit
import DistSystem.Lib.Grouping
import DistSystem.Lib.Fields
import DistSystem.Lib.Interleaving
import DistSystem.Lib.Linear
import DistSystem.Raft.Server
import DistSystem.Raft.Cluster
import DistSystem.Raft.Shared
import DistSystem.LabRPC.Network
import DistSystem.Raft.Config
import DistSystem.KV.Server
import DistSystem.KV.Service
import DistSystem.KV.Channels
import DistSystem.KV.Deployment
import DistSystem.MapReduce.Common
import DistSystem.MapReduce.Json
import DistSystem.MapReduce.Tasks
import DistSystem.MapReduce.InvertedIndex
import DistSystem.MapReduce.WordCount
import DistSystem.MapReduce.Master
import DistSystem.Etcd.Storage
import DistSystem.Etcd.Codec
import DistSystem.Etcd.Node
import DistSystem.Proofs.RaftServer
import DistSystem.Proofs.RaftAppend
import DistSystem.Proofs.RaftLeader
import DistSystem.Proofs.RaftInv
import DistSystem.Proofs.RaftStep
import DistSystem.Proofs.RaftRefine
import DistSystem.Proofs.RaftSingle
import DistSystem.Proofs.RaftSafety
import DistSystem.Proofs.RaftDurable
import DistSystem.Proofs.RaftReply
import DistSystem.Proofs.RaftShared
import DistSystem.Proofs.RaftBallot
import DistSystem.Proofs.RaftStale
import DistSystem.Proofs.RaftVotes
import DistSystem.Proofs.RaftApply
import DistSystem.Proofs.RaftStream
import DistSystem.Proofs.RaftLead
import DistSystem.Proofs.RaftProgress
import DistSystem.Proofs.RaftBackup
import DistSystem.Proofs.RaftCalls
import DistSystem.Proofs.RPCStep
import DistSystem.Proofs.RPCCall
import DistSystem.Proofs.RPCReturn
import DistSystem.Proofs.ConfigWiring
import DistSystem.Proofs.ConfigStep
import DistSystem.Proofs.ConfigMail
import DistSystem.Proofs.ConfigRefine
import DistSystem.Proofs.KVStep
import DistSystem.Proofs.KVNode
import DistSystem.Proofs.KVLinear
import DistSystem.Proofs.KVLog
import DistSystem.Proofs.KVStore
import DistSystem.Proofs.KVOnce
import DistSystem.Proofs.KVRaft
import DistSystem.Proofs.KVChannels
import DistSystem.Proofs.KVAtomic
import DistSystem.Proofs.KVDeploy
import DistSystem.Proofs.KVSimulate
import DistSystem.Proofs.KVRefine
import DistSystem.Proofs.KVPanic
import DistSystem.Proofs.MRNames
import DistSystem.Proofs.MRTasks
import DistSystem.Proofs.MRRepeat
import DistSystem.Proofs.MRFiles
import DistSystem.Proofs.MRSequential
import DistSystem.Proofs.MRIndex
import DistSystem.Proofs.MRLeftover
import DistSystem.Proofs.MRCleanup
import DistSystem.Proofs.MRBarrier
import DistSystem.Proofs.MRTokens
import DistSystem.Proofs.MRCalls
import DistSystem.Proofs.MRDistributed
import DistSystem.Proofs.MRWords
import DistSystem.Proofs.EtcdStep
import DistSystem.Proofs.EtcdStore
import DistSystem.Proofs.EtcdPublish
import DistSystem.Proofs.EtcdRun
import DistSystem.Proofs.EtcdCompact
import DistSystem.Proofs.EtcdSnapshot
import DistSystem.Proofs.EtcdConf
