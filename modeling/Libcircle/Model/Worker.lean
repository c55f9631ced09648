import Libcircle.Lib.Runs
import Libcircle.Model.Work
import Libcircle.Model.Token
import Libcircle.Model.Term
import Libcircle.Model.Barrier
import Libcircle.Model.Reduce
import Libcircle.Model.Abort

/-!
# The work loop on all ranks

The system of `size` ranks that call `CIRCLE_begin` any number of times on one
communicator.  A state has the position of every rank in `CIRCLE_worker` (`pc`
and `stage`), the global variables, and the state of each protocol with its
messages in flight.

An event is one rank going from one MPI call to the next.  An event carries what
the environment decides.

* A probe finds a message or not.  A message in flight may be found at any later
  probe, or later still, so delays are arbitrary.  Per sender, receiver and tag,
  messages are found in the order they were sent.
* A non-blocking send may be found complete by any test after it was posted.  The
  synchronous send of the token is complete once the token is received.
* A blocking receive waits until its message is there.  A send completes at once.
* `rand_r` returns any value, and the next rank to ask is any other rank.
* A callback makes any list of library calls.
* The size back-off of a transfer may lower the number of items to any positive one.

A loop over the children of a rank that only sends is one event.  `step` is the
system as an `EventSystem`.
-/

namespace Libcircle

/-! ## Options -/

/-- The options in force in one invocation. -/
structure Options where
  /-- `CIRCLE_TERM_TREE`. -/
  termTree : Bool
  /-- `CIRCLE_SPLIT_EQUAL`, with `false` for `CIRCLE_SPLIT_RANDOM`. -/
  splitEqual : Bool
  /-- `CIRCLE_CREATE_GLOBAL`. -/
  createGlobal : Bool
  /-- `reduce_period` is positive. -/
  reduceEnabled : Bool
  /-- `tree_width`. -/
  treeWidth : Nat
  treeWidth_pos : 0 < treeWidth

/-- `CIRCLE_init` sets the width of the tree to `64`. -/
theorem treeWidth_init_pos : 0 < 64 := by decide

/-- The number of ranks, and the options in force at each call of `CIRCLE_begin`,
counted from `1`. -/
structure Job where
  /-- The size of the communicator. -/
  size : Nat
  /-- The options of each invocation. -/
  opts : Nat → Options
  size_pos : 0 < size

/-- The job with the same options in every invocation. -/
def Job.uniform (size : Nat) (opts : Options) (h : 0 < size) : Job := ⟨size, fun _ => opts, h⟩

/-- The place of rank `r` in the tree of invocation `k`, which the source computes where
`r * treeWidth + treeWidth` fits in an `int` (`treeInitFields_eq`). -/
def Job.tree (job : Job) (k : Nat) (r : Rank) : TreeState :=
  treeInit r job.size (job.opts k).treeWidth

/-! ## Positions -/

/-- The part of `CIRCLE_worker` a rank is in. -/
inductive Stage where
  /-- Outside `CIRCLE_begin`. -/
  | outside
  /-- The main loop. -/
  | main
  /-- The cleanup loop. -/
  | cleanup
  /-- After the cleanup barrier. -/
  | after
deriving DecidableEq, Repr

/-- The next MPI call of a rank, or the decision before it. -/
inductive Pc where
  /-- Outside `CIRCLE_begin`. -/
  | idle
  /-- The receive loop of `CIRCLE_workreq_check`. -/
  | workreq
  /-- The send loop of `CIRCLE_send_work_to_many`. -/
  | sendWork
  /-- The loop of `CIRCLE_workreq_check` that turns requestors away. -/
  | sendNoWork
  /-- `CIRCLE_workreceipt_check`. -/
  | workreceipt
  /-- `CIRCLE_worksend_check`. -/
  | worksend
  /-- `CIRCLE_abort_check`, before the test of the own flag. -/
  | abortStart
  /-- `CIRCLE_abort_check`, before the probe. -/
  | abortRequest
  /-- `CIRCLE_abort_check`, before the test of the replies. -/
  | abortReplies
  /-- `CIRCLE_reduce_check`. -/
  | reduce
  /-- `CIRCLE_reduce_check`, at child `i` of the loop over the children. -/
  | reduceReplies (i : Nat)
  /-- `CIRCLE_request_work`. -/
  | request
  /-- The choice between processing an item and checking for termination. -/
  | work
  /-- `CIRCLE_check_for_term_allreduce`, the loop over the children. -/
  | termReplies
  /-- `CIRCLE_check_for_term_allreduce`, before the report. -/
  | termUp
  /-- `CIRCLE_check_for_term_allreduce`, before the result. -/
  | termDown
  /-- `CIRCLE_check_for_term`. -/
  | token
  /-- The head of the cleanup loop. -/
  | barrierStart
  /-- `CIRCLE_barrier_test`, before the probe for an arrival. -/
  | barrierReply
  /-- `CIRCLE_barrier_test`, before the report. -/
  | barrierUp
  /-- `CIRCLE_barrier_test`, before the release. -/
  | barrierDown
  /-- The token functions in the cleanup loop. -/
  | tokenDrain
  /-- `CIRCLE_worksend_wait`. -/
  | worksendWait
  /-- `CIRCLE_reduce_sync`. -/
  | reduceSync
  /-- `CIRCLE_reduce_sync`, at child `i` of the loop over the children. -/
  | reduceSyncReplies (i : Nat)
  /-- `CIRCLE_abort_reduce`, the loop over the children and the report. -/
  | abortReduce
  /-- `CIRCLE_abort_reduce`, before the result. -/
  | abortReduceDown
  /-- `CIRCLE_work_loop` has returned. -/
  | returned
deriving DecidableEq, Repr

/-- The index of a loop over the children. -/
def Pc.index : Pc → Nat
  | .reduceReplies i => i
  | .reduceSyncReplies i => i
  | _ => 0

/-- After `CIRCLE_workreq_check`. -/
def afterWorkreq : Stage → Pc
  | .cleanup => .worksend
  | _ => .workreceipt

/-- After `CIRCLE_worksend_check`. -/
def afterWorksend : Stage → Pc
  | .cleanup => .reduce
  | _ => .abortStart

/-- After `CIRCLE_abort_check`. -/
def afterAbort (termTree : Bool) : Stage → Pc
  | .cleanup => if termTree then .barrierStart else .tokenDrain
  | _ => .reduce

/-- After `CIRCLE_request_work`. -/
def afterRequest : Stage → Pc
  | .cleanup => .abortStart
  | _ => .work

/-! ## States -/

/-- The state of the system. -/
structure Sys (α : Type*) where
  /-- The position of a rank. -/
  pc : Rank → Pc
  /-- The part of `CIRCLE_worker` a rank is in. -/
  stage : Rank → Stage
  /-- The number of calls of `CIRCLE_begin` a rank made. -/
  inv : Rank → Nat
  /-- `CIRCLE_ABORT_FLAG`. -/
  abortFlag : Rank → Bool
  /-- `local_objects_processed`. -/
  objects : Rank → Nat
  /-- Requests, transfers and receipts. -/
  work : WorkNet α
  /-- The token. -/
  token : TokenNet
  /-- The termination allreduce. -/
  term : TermNet
  /-- The cleanup barrier. -/
  barrier : BarrierNet
  /-- The reductions. -/
  reduce : ReduceNet
  /-- The abort broadcast. -/
  abort : AbortNet
  /-- The abort reduction. -/
  abortReduce : AbortReduceNet
  /-- All items enqueued so far. -/
  enqueued : List α
  /-- All items dequeued so far. -/
  dequeued : List α
  /-- All items a checkpoint took from a queue so far. -/
  checkpointed : List α

/-- The state before the first call of `CIRCLE_begin`: no message in flight, with the
queues, abort flags and reduction data the ranks have at that point. -/
def Sys.start {α : Type*} (queue : Rank → List α) (abortFlag : Rank → Bool)
    (input : Rank → ReduceInput) (enqueued : List α) : Sys α where
  pc _ := .idle
  stage _ := .outside
  inv _ := 0
  abortFlag := abortFlag
  objects _ := 0
  work :=
    { queue := queue, requestors := fun _ => [], sizes := fun _ => [], request := fun _ => {}
      workOutstanding := fun _ => 0, sends := fun _ => [], requests := .empty
      replies := .empty, receipts := .empty }
  token := { st := fun _ => {}, net := .empty }
  term := { st := fun _ => {}, net := .empty }
  barrier := { st := fun _ => {}, net := .empty }
  reduce := { st := fun _ => {}, input := input, net := .empty }
  abort := { st := fun _ => {}, requests := .empty, replies := .empty }
  abortReduce := { st := fun _ => {}, net := .empty }
  enqueued := enqueued
  dequeued := []
  checkpointed := []

/-- The state before the first call of `CIRCLE_begin` of ranks that hold nothing. -/
def Sys.fresh {α : Type*} : Sys α := .start (fun _ => []) (fun _ => false) (fun _ => {}) []

/-! ## Events -/

/-- One rank going from one MPI call to the next. -/
inductive Event (α : Type*) where
  /-- `CIRCLE_begin` up to the main loop; `next` is the first rank to ask for work. -/
  | begin (r : Rank) (next : Option Rank) (ops : List (WorkOp α))
  /-- A request of `src` is found and received. -/
  | workreq (r src : Rank)
  /-- No request is found, and the requestors are serviced. -/
  | workreqDone (r : Rank) (rand : Nat)
  /-- The next requestor gets `count` items. -/
  | sendWork (r : Rank) (count : Nat)
  /-- The next requestor gets no work. -/
  | sendNoWork (r : Rank)
  /-- A receipt of `src` is found and received. -/
  | workreceipt (r src : Rank)
  | workreceiptDone (r : Rank)
  /-- The send at index `i` is found complete. -/
  | worksend (r : Rank) (i : Nat)
  | worksendDone (r : Rank)
  | abortStart (r : Rank)
  /-- An abort request of `src` is found, or none. -/
  | abortRequest (r : Rank) (src : Option Rank)
  /-- The requests of the abort broadcast are found complete, or not. -/
  | abortReplies (r : Rank) (done : Bool)
  /-- Reductions are disabled. -/
  | reduceSkip (r : Rank)
  /-- A reduction is outstanding. -/
  | reduceResume (r : Rank)
  /-- No reduction is outstanding; `due` is the test of the clock. -/
  | reduceBegin (r : Rank) (due hit : Bool) (calls : List ReduceCall)
  /-- A reply of the next child is found, or not. -/
  | reduceReply (r : Rank) (hit : Bool) (calls : List ReduceCall)
  | reduceDone (r : Rank) (calls : List ReduceCall)
  /-- `CIRCLE_request_work` is not called. -/
  | requestSkip (r : Rank)
  /-- A work reply is found and received; `sent` is the test of the request. -/
  | requestReply (r : Rank) (sent : Bool)
  /-- A work request is sent; `next` is the rank to ask after that. -/
  | requestSend (r : Rank) (sent : Bool) (next : Option Rank)
  /-- Neither a reply is received nor a request sent. -/
  | requestNone (r : Rank) (sent : Bool)
  /-- The process callback. -/
  | process (r : Rank) (ops : List (WorkOp α))
  /-- No item is processed. -/
  | checkForTerm (r : Rank)
  /-- The flag of a child is found and received. -/
  | termReply (r src : Rank)
  | termRepliesDone (r : Rank)
  | termUp (r : Rank)
  /-- The result of the parent is found, or not. -/
  | termDown (r : Rank) (hit : Bool)
  /-- `CIRCLE_check_for_term`; `hit` is the probe of `CIRCLE_token_check`. -/
  | token (r : Rank) (hit : Bool)
  | barrierStart (r : Rank)
  /-- An arrival from `src` is found, or none. -/
  | barrierReply (r : Rank) (src : Option Rank)
  | barrierUp (r : Rank)
  /-- The release of the parent is found, or not. -/
  | barrierDown (r : Rank) (hit : Bool)
  /-- The token is found, or not; the pending send is found complete, or not. -/
  | tokenDrain (r : Rank) (hit done : Bool)
  | worksendWait (r : Rank)
  | reduceSync (r : Rank) (calls : List ReduceCall)
  | reduceSyncReply (r : Rank) (calls : List ReduceCall)
  | reduceSyncDone (r : Rank) (calls : List ReduceCall)
  | abortReduceReply (r : Rank)
  | abortReduceUp (r : Rank)
  | abortReduceDown (r : Rank)
  /-- The rest of `CIRCLE_begin`, with the checkpoint. -/
  | finish (r : Rank)

/-! ## Steps -/

section Steps

variable {α : Type*} (job : Job)

/-- The options in force on `r`. -/
def Sys.opts (s : Sys α) (r : Rank) : Options := job.opts (s.inv r)

/-- The place of `r` in the tree in force. -/
def Sys.tree (s : Sys α) (r : Rank) : TreeState := job.tree (s.inv r) r

/-- `CIRCLE_get_next_proc` can choose `next` on rank `r`. -/
def NextProc (size : Nat) (r : Rank) : Option Rank → Prop
  | some d => d < size ∧ d ≠ r
  | none => size ≤ 1

instance (size : Nat) (r : Rank) : ∀ next, Decidable (NextProc size r next)
  | some _ => inferInstanceAs (Decidable (_ ∧ _))
  | none => inferInstanceAs (Decidable (_ ≤ _))

/-- `CIRCLE_workreq_check` turns its requestors away. -/
def Sys.Refuses (s : Sys α) (r : Rank) : Prop :=
  s.work.queue r = [] ∨ s.stage r = .cleanup ∨ s.abortFlag r = true ∨
    4 * job.size ≤ (s.work.sends r).length

instance (s : Sys α) (r : Rank) : Decidable (s.Refuses job r) :=
  inferInstanceAs (Decidable (_ ∨ _ ∨ _ ∨ _))

/-- The next requestor can be sent `count` items when `size` were planned for it.  The
size back-off leaves at least one. -/
def BackOff : List Nat → Nat → Prop
  | [], _ => False
  | size :: _, count => (size = 0 ∧ count = 0) ∨ (1 ≤ count ∧ count ≤ size)

instance : ∀ (sizes : List Nat) (count : Nat), Decidable (BackOff sizes count)
  | [], _ => .isFalse id
  | _ :: _, _ => inferInstanceAs (Decidable ((_ ∧ _) ∨ (_ ∧ _)))

/-- `CIRCLE_request_work` may post a request. -/
def Sys.MayRequest (s : Sys α) (r : Rank) (sent : Bool) : Prop :=
  s.stage r ≠ .cleanup ∧ s.abortFlag r = false ∧
    ((s.work.request r).workRequestReq && !sent) = false

instance (s : Sys α) (r : Rank) (sent : Bool) : Decidable (s.MayRequest r sent) :=
  inferInstanceAs (Decidable (_ ∧ _ ∧ _))

/-- `r` has items and does not see an abort, so the main loop processes one. -/
def Sys.Busy (s : Sys α) (r : Rank) : Prop := s.work.queue r ≠ [] ∧ s.abortFlag r = false

instance (s : Sys α) (r : Rank) : Decidable (s.Busy r) :=
  inferInstanceAs (Decidable (_ ∧ _))

/-- The cleanup loop starts the barrier. -/
def Sys.Settled (s : Sys α) (r : Rank) : Prop :=
  (s.work.request r).workRequested = false ∧ (s.reduce.st r).outstanding = false ∧
    (s.abort.st r).abortOutstanding = false ∧ s.work.sends r = [] ∧
    (s.work.request r).workRequestReq = false ∧ (s.token.st r).tokenSendReq = false

instance (s : Sys α) (r : Rank) : Decidable (s.Settled r) :=
  inferInstanceAs (Decidable (_ ∧ _ ∧ _ ∧ _ ∧ _ ∧ _))

/-- The child at index `i`. -/
def TreeState.child (t : TreeState) (i : Nat) : Rank := t.childRanks.getD i 0

/-- The child the loop of `r` is at. -/
def Sys.child (s : Sys α) (r : Rank) : Rank := (s.tree job r).child (s.pc r).index

/-- The events a state enables. -/
def Sys.Enabled (s : Sys α) : Event α → Prop
  | .begin r next ops =>
      s.pc r = .idle ∧ r < job.size ∧ NextProc job.size r next ∧
        (ops = [] ∨ r = 0 ∨ (job.opts (s.inv r + 1)).createGlobal = true)
  | .workreq r src => s.pc r = .workreq ∧ s.work.requests src r ≠ []
  | .workreqDone r _ => s.pc r = .workreq
  | .sendWork r count => s.pc r = .sendWork ∧ BackOff (s.work.sizes r) count
  | .sendNoWork r => s.pc r = .sendNoWork
  | .workreceipt r src =>
      s.pc r = .workreceipt ∧ 0 < s.work.workOutstanding r ∧ s.work.receipts src r ≠ []
  | .workreceiptDone r => s.pc r = .workreceipt
  | .worksend r i => s.pc r = .worksend ∧ i < (s.work.sends r).length
  | .worksendDone r => s.pc r = .worksend
  | .abortStart r => s.pc r = .abortStart
  | .abortRequest r src =>
      s.pc r = .abortRequest ∧ ∀ q ∈ src.toList, s.abort.requests q r ≠ []
  | .abortReplies r done =>
      s.pc r = .abortReplies ∧
        (done = true → (s.abort.st r).abortOutstanding = true ∧
          ∀ q ∈ (s.tree job r).neighbours, s.abort.replies q r ≠ [])
  | .reduceSkip r => s.pc r = .reduce ∧ (s.opts job r).reduceEnabled = false
  | .reduceResume r =>
      s.pc r = .reduce ∧ (s.opts job r).reduceEnabled = true ∧
        (s.reduce.st r).outstanding = true
  | .reduceBegin r due hit calls =>
      s.pc r = .reduce ∧ (s.opts job r).reduceEnabled = true ∧
        (s.reduce.st r).outstanding = false ∧
        (hit = true → (due || s.stage r = .cleanup) = true ∧
          (s.tree job r).parentSent s.reduce.net r = true) ∧
        (calls = [] ∨
          (ReduceNet.Starts (s.tree job r) (s.stage r = .cleanup) due hit = true ∧
            s.stage r ≠ .cleanup))
  | .reduceReply r hit calls =>
      s.pc r = .reduceReplies (s.pc r).index ∧ (s.pc r).index < (s.tree job r).children ∧
        (hit = true → ReduceNet.ReplyReady (s.reduce.net (s.child job r) r) = true) ∧
        (calls = [] ∨
          (hit = true ∧ (s.reduce.st r).valid = true ∧
            ReduceNet.CallsOp (s.reduce.net (s.child job r) r) = true))
  | .reduceDone r calls =>
      s.pc r = .reduceReplies (s.tree job r).children ∧
        (calls = [] ∨
          (r = 0 ∧ (s.reduce.st r).valid = true ∧
            (s.reduce.st r).replies = (s.tree job r).children))
  | .requestSkip r => s.pc r = .request ∧ s.stage r ≠ .cleanup ∧ s.work.queue r ≠ []
  | .requestReply r _ =>
      s.pc r = .request ∧ (s.stage r = .cleanup ∨ s.work.queue r = []) ∧
        (s.work.request r).workRequested = true ∧
        s.work.replies (s.work.request r).workRequestedRank r ≠ []
  | .requestSend r sent next =>
      s.pc r = .request ∧ s.work.queue r = [] ∧ (s.work.request r).workRequested = false ∧
        s.MayRequest r sent ∧ (s.work.request r).nextProcessor ≠ none ∧
        NextProc job.size r next
  | .requestNone r sent =>
      s.pc r = .request ∧ (s.stage r = .cleanup ∨ s.work.queue r = []) ∧
        ((s.work.request r).workRequested = true ∨ ¬s.MayRequest r sent ∨
          (s.work.request r).nextProcessor = none)
  | .process r _ => s.pc r = .work ∧ s.Busy r
  | .checkForTerm r => s.pc r = .work ∧ ¬s.Busy r
  | .termReply r src =>
      s.pc r = .termReplies ∧ (s.term.st r).termReplies < (s.tree job r).children ∧
        s.term.net src r ≠ []
  | .termRepliesDone r => s.pc r = .termReplies
  | .termUp r => s.pc r = .termUp
  | .termDown r hit =>
      s.pc r = .termDown ∧
        (hit = true → (s.term.st r).termUp = true ∧
          (s.tree job r).parentSent s.term.net r = true)
  | .token r hit =>
      s.pc r = .token ∧
        (hit = true → (s.token.st r).tokenProc ≠ .terminate ∧
          (s.token.st r).tokenIsLocal = false ∧ s.token.RecvReady job.size r)
  | .barrierStart r => s.pc r = .barrierStart
  | .barrierReply r src =>
      s.pc r = .barrierReply ∧
        ∀ q ∈ src.toList,
          (s.barrier.st r).barrierReplies < (s.tree job r).children ∧ s.barrier.net q r ≠ []
  | .barrierUp r => s.pc r = .barrierUp
  | .barrierDown r hit =>
      s.pc r = .barrierDown ∧
        (hit = true → (s.barrier.st r).barrierUp = true ∧
          (s.tree job r).parentSent s.barrier.net r = true)
  | .tokenDrain r hit done =>
      s.pc r = .tokenDrain ∧ (hit = true → s.token.RecvReady job.size r) ∧
        (done = true → hit = false ∧ (s.token.st r).tokenSendReq = true ∧
          s.token.net r (tokenDest job.size r) = [])
  | .worksendWait r => s.pc r = .worksendWait
  | .reduceSync r _ => s.pc r = .reduceSync
  | .reduceSyncReply r _ =>
      s.pc r = .reduceSyncReplies (s.pc r).index ∧ (s.pc r).index < (s.tree job r).children ∧
        ReduceNet.SyncReady (s.reduce.net (s.child job r) r) = true
  | .reduceSyncDone r calls =>
      s.pc r = .reduceSyncReplies (s.tree job r).children ∧ (calls = [] ∨ r = 0)
  | .abortReduceReply r =>
      s.pc r = .abortReduce ∧ (s.abortReduce.st r).index < (s.tree job r).children ∧
        s.abortReduce.net ((s.tree job r).child (s.abortReduce.st r).index) r ≠ []
  | .abortReduceUp r =>
      s.pc r = .abortReduce ∧ (s.abortReduce.st r).index = (s.tree job r).children
  | .abortReduceDown r =>
      s.pc r = .abortReduceDown ∧ (s.tree job r).parentSent s.abortReduce.net r = true
  | .finish r => s.pc r = .returned

instance (s : Sys α) : ∀ e, Decidable (s.Enabled job e)
  | .begin .. => inferInstanceAs (Decidable (_ ∧ _ ∧ _ ∧ _))
  | .workreq .. | .sendWork .. | .worksend .. => inferInstanceAs (Decidable (_ ∧ _))
  | .abortRequest .. | .abortReplies .. => inferInstanceAs (Decidable (_ ∧ _))
  | .reduceSkip .. | .process .. | .checkForTerm .. => inferInstanceAs (Decidable (_ ∧ _))
  | .termDown .. | .token .. | .barrierReply .. => inferInstanceAs (Decidable (_ ∧ _))
  | .barrierDown .. | .reduceSyncDone .. => inferInstanceAs (Decidable (_ ∧ _))
  | .reduceDone .. => inferInstanceAs (Decidable (_ ∧ _))
  | .abortReduceUp .. | .abortReduceDown .. => inferInstanceAs (Decidable (_ ∧ _))
  | .workreceipt .. | .reduceResume .. => inferInstanceAs (Decidable (_ ∧ _ ∧ _))
  | .requestSkip .. | .requestNone .. => inferInstanceAs (Decidable (_ ∧ _ ∧ _))
  | .termReply .. | .tokenDrain .. => inferInstanceAs (Decidable (_ ∧ _ ∧ _))
  | .reduceSyncReply .. | .abortReduceReply .. => inferInstanceAs (Decidable (_ ∧ _ ∧ _))
  | .reduceReply .. | .requestReply .. => inferInstanceAs (Decidable (_ ∧ _ ∧ _ ∧ _))
  | .reduceBegin .. => inferInstanceAs (Decidable (_ ∧ _ ∧ _ ∧ _ ∧ _))
  | .requestSend .. => inferInstanceAs (Decidable (_ ∧ _ ∧ _ ∧ _ ∧ _ ∧ _))
  | .workreqDone .. | .sendNoWork .. | .workreceiptDone .. => inferInstanceAs (Decidable (_ = _))
  | .worksendDone .. | .abortStart .. | .termRepliesDone .. => inferInstanceAs (Decidable (_ = _))
  | .termUp .. | .barrierStart .. | .barrierUp .. => inferInstanceAs (Decidable (_ = _))
  | .worksendWait .. | .reduceSync .. | .finish .. => inferInstanceAs (Decidable (_ = _))

/-- What a callback on `r` can change. -/
def Sys.callbackState (s : Sys α) (r : Rank) : CallbackState α where
  queue := s.work.queue r
  abortFlag := s.abortFlag r
  enqueued := s.enqueued
  dequeued := s.dequeued

/-- The callbacks `ops` run on `r`. -/
def Sys.callback (s : Sys α) (r : Rank) (ops : List (WorkOp α)) : CallbackState α :=
  (s.callbackState r).run ops

/-- Some reduction callback calls `CIRCLE_abort`. -/
def callsAbort (calls : List ReduceCall) : Bool := calls.contains .abort

/-- The reply of the rank asked for work. -/
def Sys.reply (s : Sys α) (r : Rank) : Reply α :=
  (s.work.replies (s.work.request r).workRequestedRank r).headD .noWork

/-- After an answer of `CIRCLE_check_for_term_allreduce`; `none` is no answer yet. -/
def afterTerm (wait : Pc) : Option Bool → Pc
  | some true => .barrierStart
  | some false => .workreq
  | none => wait

/-- The stage after an answer of `CIRCLE_check_for_term_allreduce`. -/
def stageAfterTerm (stage : Stage) : Option Bool → Stage
  | some true => .cleanup
  | _ => stage

/-- After one of the requestors has been served. -/
def Sys.afterRequestor (s : Sys α) (r : Rank) (again : Pc) : Pc :=
  if (s.work.requestors r).tail = [] then afterWorkreq (s.stage r) else again

/-- After a test of the cleanup barrier. -/
def afterBarrier (wait : Pc) (complete : Bool) : Pc := if complete then .worksendWait else wait

/-- The state after an event. -/
def Sys.next (s : Sys α) : Event α → Sys α
  | .begin r next ops =>
      let c := s.callback r ops
      { s with
        pc := Function.update s.pc r .workreq
        stage := Function.update s.stage r .main
        inv := Function.update s.inv r (s.inv r + 1)
        abortFlag := Function.update s.abortFlag r c.abortFlag
        objects := Function.update s.objects r 0
        work := (s.work.init r next).setQueue r c.queue
        token := s.token.init r
        term := s.term.init r
        barrier := s.barrier.init r
        reduce := s.reduce.init r
        abort := s.abort.init r
        enqueued := c.enqueued
        dequeued := c.dequeued }
  | .workreq r src => { s with work := s.work.workreqRecv r src }
  | .workreqDone r rand =>
      { s with
        pc := Function.update s.pc r
          (if s.work.requestors r = [] then afterWorkreq (s.stage r)
          else if s.Refuses job r then .sendNoWork else .sendWork)
        work :=
          if s.work.requestors r = [] ∨ s.Refuses job r then s.work
          else s.work.planSizes (s.opts job r).splitEqual rand r }
  | .sendWork r count =>
      let dest := (s.work.requestors r).headD 0
      { s with
        pc := Function.update s.pc r (s.afterRequestor r .sendWork)
        work := (s.work.sendWork (s.abortFlag r) (s.inv r) r dest count).nextRequestor r
        token := if count = 0 then s.token else s.token.blacken job.size r dest }
  | .sendNoWork r =>
      { s with
        pc := Function.update s.pc r (s.afterRequestor r .sendNoWork)
        work :=
          (s.work.sendNoWork (s.abortFlag r) r ((s.work.requestors r).headD 0)).nextRequestor r }
  | .workreceipt r src =>
      { s with work := s.work.workreceiptRecv r src, term := s.term.clearFlag r }
  | .workreceiptDone r => { s with pc := Function.update s.pc r .worksend }
  | .worksend r i => { s with work := s.work.worksendCheck r i }
  | .worksendDone r => { s with pc := Function.update s.pc r (afterWorksend (s.stage r)) }
  | .abortStart r =>
      { s with
        pc := Function.update s.pc r .abortRequest
        abort :=
          if s.abortFlag r then s.abort.abortStart (s.tree job r) (s.stage r = .cleanup) r
          else s.abort }
  | .abortRequest r src =>
      { s with
        pc := Function.update s.pc r .abortReplies
        abortFlag := Function.update s.abortFlag r (s.abortFlag r || src.isSome)
        abort :=
          match src with
          | none => s.abort
          | some q =>
              (s.abort.recvRequest r q).abortStart (s.tree job r) (s.stage r = .cleanup) r }
  | .abortReplies r done =>
      { s with
        pc := Function.update s.pc r (afterAbort (s.opts job r).termTree (s.stage r))
        abort := if done then s.abort.repliesDone (s.tree job r) r else s.abort }
  | .reduceSkip r => { s with pc := Function.update s.pc r .request }
  | .reduceResume r => { s with pc := Function.update s.pc r (.reduceReplies 0) }
  | .reduceBegin r due hit calls =>
      { s with
        pc := Function.update s.pc r .request
        abortFlag := Function.update s.abortFlag r (s.abortFlag r || callsAbort calls)
        reduce :=
          (s.reduce.begin (s.tree job r) r (s.stage r = .cleanup) due hit).callback r calls }
  | .reduceReply r hit calls =>
      { s with
        pc := Function.update s.pc r (.reduceReplies ((s.pc r).index + 1))
        abortFlag := Function.update s.abortFlag r (s.abortFlag r || callsAbort calls)
        reduce :=
          (if hit then s.reduce.recvReply r (s.child job r) else s.reduce).callback r calls }
  | .reduceDone r calls =>
      { s with
        pc := Function.update s.pc r .request
        abortFlag := Function.update s.abortFlag r (s.abortFlag r || callsAbort calls)
        reduce := (s.reduce.finish (s.tree job r) r (s.objects r)).callback r calls }
  | .requestSkip r => { s with pc := Function.update s.pc r .work }
  | .requestReply r sent =>
      { s with
        pc := Function.update s.pc r (afterRequest (s.stage r))
        abortFlag := Function.update s.abortFlag r (s.abortFlag r || (s.reply r).aborts)
        work :=
          ((s.work.requestTest r sent).workReceive r (s.work.request r).workRequestedRank
            (s.reply r)).requestDone r }
  | .requestSend r sent next =>
      { s with
        pc := Function.update s.pc r (afterRequest (s.stage r))
        work :=
          (s.work.requestTest r sent).requestSend r ((s.work.request r).nextProcessor.getD 0)
            next }
  | .requestNone r sent =>
      { s with
        pc := Function.update s.pc r (afterRequest (s.stage r))
        work := s.work.requestTest r sent }
  | .process r ops =>
      let c := s.callback r ops
      { s with
        pc := Function.update s.pc r .workreq
        abortFlag := Function.update s.abortFlag r c.abortFlag
        objects := Function.update s.objects r (s.objects r + 1)
        work := s.work.setQueue r c.queue
        enqueued := c.enqueued
        dequeued := c.dequeued }
  | .checkForTerm r =>
      { s with
        pc := Function.update s.pc r
          (if (s.opts job r).termTree then .termReplies else .token) }
  | .termReply r src =>
      { s with term := s.term.recvFlag r src ((s.term.net src r).headD true) }
  | .termRepliesDone r =>
      { s with
        pc := Function.update s.pc r
          (if s.work.workOutstanding r = 0 then .termUp else .workreq) }
  | .termUp r =>
      let y := s.term.report (s.tree job r) r
      { s with
        pc := Function.update s.pc r (afterTerm .termDown y.2)
        stage := Function.update s.stage r (stageAfterTerm (s.stage r) y.2)
        term := y.1 }
  | .termDown r hit =>
      let y := s.term.await (s.tree job r) r hit
      { s with
        pc := Function.update s.pc r (afterTerm .workreq y.2)
        stage := Function.update s.stage r (stageAfterTerm (s.stage r) y.2)
        term := y.1 }
  | .token r hit =>
      let y := s.token.checkForTerm job.size (s.abortFlag r) r
        (if hit then (s.token.net (tokenSrc job.size r) r).head? else none)
      let done := (y.st r).tokenProc = .terminate
      { s with
        pc := Function.update s.pc r (if done then .barrierStart else .workreq)
        stage := Function.update s.stage r (if done then .cleanup else s.stage r)
        token := y }
  | .barrierStart r =>
      { s with
        pc := Function.update s.pc r
          (if s.Settled r ∨ (s.barrier.st r).barrierStarted = true then .barrierReply
          else .workreq)
        barrier := if s.Settled r then s.barrier.barrierStart r else s.barrier }
  | .barrierReply r src =>
      { s with
        pc := Function.update s.pc r .barrierUp
        barrier :=
          match src with
          | none => s.barrier
          | some q => s.barrier.recvArrival r q }
  | .barrierUp r =>
      let y := s.barrier.report (s.tree job r) r
      { s with
        pc := Function.update s.pc r (afterBarrier .barrierDown y.2)
        stage := Function.update s.stage r (if y.2 then .after else s.stage r)
        barrier := y.1 }
  | .barrierDown r hit =>
      let y := s.barrier.await (s.tree job r) r hit
      { s with
        pc := Function.update s.pc r (afterBarrier .workreq y.2)
        stage := Function.update s.stage r (if y.2 then .after else s.stage r)
        barrier := y.1 }
  | .tokenDrain r hit done =>
      { s with
        pc := Function.update s.pc r .barrierStart
        token :=
          if hit then
            s.token.tokenRecv job.size (s.abortFlag r) r
              ((s.token.net (tokenSrc job.size r) r).headD .black)
          else if done then s.token.testSend r
          else s.token }
  | .worksendWait r =>
      { s with
        pc := Function.update s.pc r
          (if (s.opts job r).reduceEnabled then .reduceSync else .abortReduce)
        work := s.work.worksendWait r
        abortReduce := s.abortReduce.enter r (s.abortFlag r) }
  | .reduceSync r calls =>
      { s with
        pc := Function.update s.pc r (.reduceSyncReplies 0)
        abortFlag := Function.update s.abortFlag r (s.abortFlag r || callsAbort calls)
        reduce := (s.reduce.syncBegin r (s.objects r)).callback r calls }
  | .reduceSyncReply r calls =>
      { s with
        pc := Function.update s.pc r (.reduceSyncReplies ((s.pc r).index + 1))
        abortFlag := Function.update s.abortFlag r (s.abortFlag r || callsAbort calls)
        reduce := (s.reduce.recvSync r (s.child job r)).callback r calls }
  | .reduceSyncDone r calls =>
      { s with
        pc := Function.update s.pc r .abortReduce
        abortFlag := Function.update s.abortFlag r (s.abortFlag r || callsAbort calls)
        reduce := (s.reduce.syncFinish (s.tree job r) r).callback r calls
        abortReduce := s.abortReduce.enter r (s.abortFlag r || callsAbort calls) }
  | .abortReduceReply r =>
      let child := (s.tree job r).child (s.abortReduce.st r).index
      { s with
        abortReduce := s.abortReduce.recvFlag r child
          ((s.abortReduce.net child r).headD false) }
  | .abortReduceUp r =>
      let y := s.abortReduce.report (s.tree job r) r
      { s with
        pc := Function.update s.pc r (if y.2.isSome then .returned else .abortReduceDown)
        abortFlag := Function.update s.abortFlag r (y.2.getD (s.abortFlag r))
        abort := s.abort.set r
          { s.abort.st r with abortState := y.2.getD (s.abort.st r).abortState }
        abortReduce := y.1 }
  | .abortReduceDown r =>
      let y := s.abortReduce.await (s.tree job r) r
      { s with
        pc := Function.update s.pc r .returned
        abortFlag := Function.update s.abortFlag r (y.2.getD (s.abortFlag r))
        abort := s.abort.set r
          { s.abort.st r with abortState := y.2.getD (s.abort.st r).abortState }
        abortReduce := y.1 }
  | .finish r =>
      { s with
        pc := Function.update s.pc r .idle
        stage := Function.update s.stage r .outside
        work := if s.abortFlag r then s.work.setQueue r [] else s.work
        checkpointed := if s.abortFlag r then s.checkpointed ++ s.work.queue r else s.checkpointed }

/-- The system. -/
def Job.step : EventSystem (Sys α) (Event α) where
  Enabled := Sys.Enabled job
  next := Sys.next job

instance (s : Sys α) (e : Event α) : Decidable ((Job.step job).Enabled s e) :=
  inferInstanceAs (Decidable (s.Enabled job e))

end Steps

end Libcircle
