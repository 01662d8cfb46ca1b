import Vccl.Accept
import Vccl.Ahead
import Vccl.Batch
import Vccl.Bf16Sum
import Vccl.Bootstrap
import Vccl.Bounds
import Vccl.FloatMax
import Vccl.GroupRun
import Vccl.InPlace
import Vccl.Latch
import Vccl.LiveMr
import Vccl.Lossless
import Vccl.Matching
import Vccl.MrCache
import Vccl.Net.Early
import Vccl.Net.Shared
import Vccl.Outcome
import Vccl.PinnedBuffers
import Vccl.QueueDepth
import Vccl.RedOps
import Vccl.Registry
import Vccl.Rounding
import Vccl.Routing
import Vccl.Scaling
import Vccl.SplitIds
import Vccl.TcpCollectives
import Vccl.TcpProgress
import Vccl.TorchLayout
