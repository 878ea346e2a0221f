import OpenMPI.Class.Graph
import OpenMPI.Lib.Collective
import OpenMPI.Lib.Grid
import OpenMPI.Lib.ShortestPath
import OpenMPI.Proofs.Allocator.Align
import OpenMPI.Proofs.Allocator.Bsend
import OpenMPI.Proofs.Allocator.Bucket
import OpenMPI.Proofs.Attribute.Counts
import OpenMPI.Proofs.Bml.Session
import OpenMPI.Proofs.Btl.SmFifo
import OpenMPI.Proofs.Class.Graph
import OpenMPI.Proofs.Class.NodeTable
import OpenMPI.Proofs.Class.OpalList
import OpenMPI.Proofs.Class.PointerArray
import OpenMPI.Proofs.Class.RbTree
import OpenMPI.Proofs.Class.SeqTracker
import OpenMPI.Proofs.Class.Spf
import OpenMPI.Proofs.Coll.Barrier
import OpenMPI.Proofs.Coll.Bcast
import OpenMPI.Proofs.Coll.DynamicRules
import OpenMPI.Proofs.Coll.Gather
import OpenMPI.Proofs.Coll.LinearSync
import OpenMPI.Proofs.Coll.RankOrder
import OpenMPI.Proofs.Coll.Temporaries
import OpenMPI.Proofs.Coll.Trees
import OpenMPI.Proofs.Comm.Cid
import OpenMPI.Proofs.Comm.Split
import OpenMPI.Proofs.Ddt.Contig
import OpenMPI.Proofs.Ddt.Datatype
import OpenMPI.Proofs.Ddt.ElementCount
import OpenMPI.Proofs.Ddt.Flags
import OpenMPI.Proofs.Ddt.Merge
import OpenMPI.Proofs.Ddt.Subarray
import OpenMPI.Proofs.Ddt.Walk
import OpenMPI.Proofs.Dss.Payload
import OpenMPI.Proofs.Dss.Queue
import OpenMPI.Proofs.Group.Sparse
import OpenMPI.Proofs.Iof.Output
import OpenMPI.Proofs.Iof.Receive
import OpenMPI.Proofs.Iof.Stdin
import OpenMPI.Proofs.Mpool.Rdma
import OpenMPI.Proofs.Ob1.Early
import OpenMPI.Proofs.Ob1.InOrder
import OpenMPI.Proofs.Ob1.Mpi
import OpenMPI.Proofs.Ob1.Pending
import OpenMPI.Proofs.Ob1.RecvReq
import OpenMPI.Proofs.Ob1.Rndv
import OpenMPI.Proofs.Ob1.SendReq
import OpenMPI.Proofs.Oob.Tcp
import OpenMPI.Proofs.Osc.Eager
import OpenMPI.Proofs.Osc.FenceRun
import OpenMPI.Proofs.Osc.LockServer
import OpenMPI.Proofs.Osc.Sync
import OpenMPI.Proofs.Request.Completion
import OpenMPI.Proofs.Rmaps.LoadBalance
import OpenMPI.Proofs.Rmaps.Ranks
import OpenMPI.Proofs.Rmaps.RoundRobin
import OpenMPI.Proofs.Rmaps.Vpids
import OpenMPI.Proofs.Routed.Binomial
import OpenMPI.Proofs.Routed.RouteTable
import OpenMPI.Proofs.SocketRaw.Integrity
import OpenMPI.Proofs.SocketRaw.StartOfTx
import OpenMPI.Proofs.Topo.Cart
import OpenMPI.Proofs.Topo.Coords
import OpenMPI.Proofs.Topo.Dims
import OpenMPI.Proofs.Util.Argv
import OpenMPI.Proofs.Util.Nidmap
