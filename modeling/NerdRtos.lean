import NerdRtos.Analysis.StateAgreement
import NerdRtos.Analysis.HighestReady
import NerdRtos.Analysis.DeferredSwitch
import NerdRtos.Analysis.BoostCauses
import NerdRtos.Analysis.WaitOrder
import NerdRtos.Analysis.CachedPriority
import NerdRtos.Analysis.LiveOwners
import NerdRtos.Analysis.SemTokens
import NerdRtos.Analysis.QueueFifo
import NerdRtos.Analysis.EventDelivery
import NerdRtos.Analysis.WakeUps
import NerdRtos.Analysis.Grants
import NerdRtos.Analysis.Deadlines
import NerdRtos.Analysis.PoolBlocks
import NerdRtos.Analysis.HeapLaws
import NerdRtos.Analysis.RefusedCalls
import NerdRtos.Analysis.PoolGeometry
import NerdRtos.Analysis.ShellEditor
import NerdRtos.Analysis.AlarmCover
import NerdRtos.Analysis.PendingTarget
import NerdRtos.Analysis.YieldRequests
import NerdRtos.Analysis.SliceAccounting
import NerdRtos.Analysis.OrderOfEquals
import NerdRtos.Analysis.ExpiredSlices
import NerdRtos.Analysis.FinishedThreads
import NerdRtos.Analysis.LatePeers
import NerdRtos.Analysis.ControlSequences
import NerdRtos.Analysis.LineEndings
import NerdRtos.Analysis.Tokenising
import NerdRtos.Analysis.InitialFrame
import NerdRtos.Analysis.Formatting
import NerdRtos.Analysis.MemoryCopy
import NerdRtos.Analysis.TimerPass
import NerdRtos.Analysis.TimerDeadlines
import NerdRtos.Analysis.RbRuns
import NerdRtos.Analysis.TimerRefinement
import NerdRtos.Analysis.ListRefinement
import NerdRtos.Analysis.ContextRv32
