import Libcircle.Lib.Runs
import Libcircle.Lib.Channel
import Libcircle.Lib.Wave
import Libcircle.Lib.Progress
import Libcircle.Lib.Verdict
import Libcircle.Lib.Fold
import Libcircle.Lib.Ledger
import Libcircle.Lib.Turns
import Libcircle.Lib.Probe
import Libcircle.Lib.Memory
import Libcircle.Lib.StringPool
import Libcircle.Lib.Lines
import Libcircle.Lib.Loans
import Libcircle.Model.Tree
import Libcircle.Model.Abort
import Libcircle.Model.Barrier
import Libcircle.Model.Reduce
import Libcircle.Model.Term
import Libcircle.Model.Token
import Libcircle.Model.Work
import Libcircle.Model.Worker
import Libcircle.Model.Queue
import Libcircle.Model.Transfer
import Libcircle.Model.Sends
import Libcircle.Model.Checkpoint
import Libcircle.Model.TreeFields
import Libcircle.Model.ReduceData
import Libcircle.System.Local
import Libcircle.System.ReductionData
import Libcircle.System.Control
import Libcircle.System.Splitting
import Libcircle.System.Requests
import Libcircle.System.Conservation
import Libcircle.System.Receipts
import Libcircle.System.Waves
import Libcircle.System.TreeTermination
import Libcircle.System.TreeSoundness
import Libcircle.System.AbortAgreement
import Libcircle.System.BackgroundReduce
import Libcircle.System.Solo
import Libcircle.System.Drain
import Libcircle.System.Dismissal
import Libcircle.System.Passes
import Libcircle.System.Settling
import Libcircle.System.LastRound
import Libcircle.System.Cleanup
import Libcircle.System.Arrival
import Libcircle.System.Crossing
import Libcircle.System.TokenRing
import Libcircle.System.RingSoundness
import Libcircle.System.RingAbort
import Libcircle.System.Rounds
import Libcircle.System.Invocations
import Libcircle.System.TreeTurns
import Libcircle.System.AbortHistory
import Libcircle.System.TreeHistory
import Libcircle.Queue.Holds
import Libcircle.Queue.Transfer
import Libcircle.Queue.Checkpoint
import Libcircle.Queue.Failures
import Libcircle.Queue.Stack
import Libcircle.Queue.Capacity
import Libcircle.System.Blocking
import Libcircle.System.Records
import Libcircle.System.Reductions
import Libcircle.System.AbortReduction
import Libcircle.System.SyncReduction
import Libcircle.System.FinalReduction
import Libcircle.System.Reports
import Libcircle.System.Completion
import Libcircle.System.Outcome
import Libcircle.Lib.Deadline
import Libcircle.System.Promptness
import Libcircle.Model.Store
import Libcircle.System.Bytes
import Libcircle.System.Restart
import Libcircle.System.FinalCount
import Libcircle.System.ProgressCount
import Libcircle.System.RingPromptness
import Libcircle.System.RingProgress
import Libcircle.Lib.Pool
import Libcircle.System.PoolRefinement
import Libcircle.System.Leftovers
import Libcircle.System.ReductionFold
import Libcircle.Model.Outbox
import Libcircle.System.SendRefinement
