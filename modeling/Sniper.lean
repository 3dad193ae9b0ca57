import Sniper.ApplicationBarriers
import Sniper.ApplicationIsolation
import Sniper.BarrierRuns
import Sniper.BranchTargets
import Sniper.BroadcastTree
import Sniper.BuddyAccounting
import Sniper.BuddyAlignment
import Sniper.BuddyFragmentation
import Sniper.ConcurrentPageFaults
import Sniper.ContentionQueues
import Sniper.DramBanks
import Sniper.ForwarderValidity
import Sniper.FutexCalls
import Sniper.HugePageAlignment
import Sniper.InstructionPages
import Sniper.LoopPredictor
import Sniper.MemoryControllers
import Sniper.MemoryProducers
import Sniper.MetadataPriority
import Sniper.NextTimeouts
import Sniper.NumaPageTables
import Sniper.NumaPlacement
import Sniper.PageTableFrames
import Sniper.PageWalkCaches
import Sniper.PageWalkCompletion
import Sniper.PerfectTranslation
import Sniper.PinnedScheduling
import Sniper.RadixUnmapping
import Sniper.RangeTableLookup
import Sniper.RequestCompletion
import Sniper.RequestedFrames
import Sniper.RripReplacement
import Sniper.SiftRoundTrip
import Sniper.SwapSpace
import Sniper.SynchronizationSafety
import Sniper.TlbDuplicates
import Sniper.TlbLatency
import Sniper.WakeupOrder
import Sniper.WindowedQueue
