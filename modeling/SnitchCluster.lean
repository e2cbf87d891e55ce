import SnitchCluster.Core.Trap
import SnitchCluster.Core.Alignment
import SnitchCluster.Core.Consistency
import SnitchCluster.Ssr.Repeat
import SnitchCluster.Ssr.Reverse
import SnitchCluster.Ssr.Streamer
import SnitchCluster.Ssr.Crossing
import SnitchCluster.Tcdm.Mux
import SnitchCluster.Reqrsp.Mux
import SnitchCluster.Reqrsp.Demux
import SnitchCluster.Reqrsp.Bridges
import SnitchCluster.Ssr.Masters
import SnitchCluster.Ssr.Gather
import SnitchCluster.Trace.Arrival
import SnitchCluster.Ipu.ExtractDeposit
import SnitchCluster.Ipu.Redundancy
import SnitchCluster.Ipu.SingleCycle
import SnitchCluster.Tcdm.WideNarrowMux
import SnitchCluster.Runtime.BankTiles
import SnitchCluster.Runtime.PartialBarrier
import SnitchCluster.Runtime.Communicator
import SnitchCluster.Runtime.UnsignedSchedule
import SnitchCluster.Runtime.Alloc
import SnitchCluster.Runtime.StatusRequests
import SnitchCluster.Kernels.FlashAttentionPhases
import SnitchCluster.Kernels.Publication
import SnitchCluster.Kernels.KmeansRounds
import SnitchCluster.Kernels.GemmJob
import SnitchCluster.Core.CsrCoherence
import SnitchCluster.Core.Dependencies
import SnitchCluster.Reqrsp.Atomics
import SnitchCluster.Reqrsp.WriteErrors
import SnitchCluster.Core.Regfile
import SnitchCluster.Kernels.Correlation
import SnitchCluster.Vm.TableIndex
import SnitchCluster.Vm.Replacement
import SnitchCluster.Core.Permissions
import SnitchCluster.Core.Accelerators
import SnitchCluster.Runtime.Multicast
import SnitchCluster.Runtime.Fork
import SnitchCluster.Core.SubWords
import SnitchCluster.Runtime.ThreadLocal
import SnitchCluster.Kernels.VariantsAgree
import SnitchCluster.Kernels.Maxpool
import SnitchCluster.Kernels.PiEstimationThreads
import SnitchCluster.Config.CacheableRegions
import SnitchCluster.Config.SsrRegisters
import SnitchCluster.Testbench.Ipc
import SnitchCluster.Testbench.Clint
import SnitchCluster.Kernels.Atax
import SnitchCluster.Kernels.Softmax
import SnitchCluster.Kernels.BatchnormRuns
import SnitchCluster.Kernels.BnRelu
import SnitchCluster.Kernels.Conv2dFp64
import SnitchCluster.Kernels.Stencils
import SnitchCluster.Runtime.Putchar
