import Fluxfer.Disagg.DecodeOffloadRuns
import Fluxfer.Disagg.Reshard
import Fluxfer.Disagg.StagingProgress
import Fluxfer.Gateway.CircuitBreaker
import Fluxfer.Gateway.Routing
import Fluxfer.Gateway.TokenBucket
import Fluxfer.Hi.Demotion
import Fluxfer.Hi.HostSlots
import Fluxfer.Hi.OnlineSplit
import Fluxfer.Hi.PrefillCost
import Fluxfer.Hi.StagedCopy
import Fluxfer.Memory.SwaAllocator
import Fluxfer.Radix.PairKey
import Fluxfer.Replay.SpinRwLock
import Fluxfer.Requests.DecodeMem
import Fluxfer.Requests.Finish
import Fluxfer.Sched.Runs
import Fluxfer.Storage.Hf3fsStore
import Fluxfer.Storage.PrefetchRuns
import Fluxfer.Unified.Runs
