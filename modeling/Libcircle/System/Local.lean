import Libcircle.Model.Worker

/-!
# What one rank knows

`Loc` collects the fields of one rank.  An event changes the fields of its own
rank only (`loc_next_of_ne`), so an assertion about the fields of one rank has to
be checked against the events of that rank alone.

`Loc.At` is the assertion that holds whenever a rank is at a position, and
`Loc.Tidy` what holds at every position.  Both are preserved by every event, in
any number of invocations.
-/

namespace Libcircle

variable {α : Type*}

/-! ## The fields of a rank -/

/-- The rank that takes the step. -/
def Event.rank : Event α → Rank
  | .begin r _ _ | .workreq r _ | .workreqDone r _ | .sendWork r _ | .sendNoWork r
  | .workreceipt r _ | .workreceiptDone r | .worksend r _ | .worksendDone r
  | .abortStart r | .abortRequest r _ | .abortReplies r _
  | .reduceSkip r | .reduceResume r | .reduceBegin r _ _ _ | .reduceReply r _ _
  | .reduceDone r _ | .requestSkip r | .requestReply r _ | .requestSend r _ _
  | .requestNone r _ | .process r _ | .checkForTerm r
  | .termReply r _ | .termRepliesDone r | .termUp r | .termDown r _ | .token r _
  | .barrierStart r | .barrierReply r _ | .barrierUp r | .barrierDown r _
  | .tokenDrain r _ _ | .worksendWait r
  | .reduceSync r _ | .reduceSyncReply r _ | .reduceSyncDone r _
  | .abortReduceReply r | .abortReduceUp r | .abortReduceDown r | .finish r => r

/-- The fields of one rank. -/
structure Loc (α : Type*) where
  pc : Pc
  stage : Stage
  inv : Nat
  abortFlag : Bool
  objects : Nat
  queue : List α
  requestors : List Rank
  sizes : List Nat
  request : Request
  workOutstanding : Nat
  sends : List SendReq
  token : Token
  term : Term
  barrier : Barrier
  reduce : Reduce
  input : ReduceInput
  abort : Abort
  abortReduce : AbortReduce

/-- The fields of rank `r`. -/
def Sys.loc (s : Sys α) (r : Rank) : Loc α where
  pc := s.pc r
  stage := s.stage r
  inv := s.inv r
  abortFlag := s.abortFlag r
  objects := s.objects r
  queue := s.work.queue r
  requestors := s.work.requestors r
  sizes := s.work.sizes r
  request := s.work.request r
  workOutstanding := s.work.workOutstanding r
  sends := s.work.sends r
  token := s.token.st r
  term := s.term.st r
  barrier := s.barrier.st r
  reduce := s.reduce.st r
  input := s.reduce.input r
  abort := s.abort.st r
  abortReduce := s.abortReduce.st r

variable {job : Job} {s : Sys α} {e : Event α} {x : Rank}

/-! ## An event changes the fields of its own rank only -/

section Frame

variable {r : Rank} (h : x ≠ r)
include h

theorem TokenNet.tokenIssend_ne (y : TokenNet) (size : Nat) (f : Bool) :
    (y.tokenIssend size f r).st x = y.st x := by
  cases f <;> simp [tokenIssend, Function.update_of_ne h]

theorem TokenNet.set_ne (y : TokenNet) (t : Token) : (y.set r t).st x = y.st x :=
  Function.update_of_ne h _ _

theorem TokenNet.tokenRecv_ne (y : TokenNet) (size : Nat) (f : Bool) (c : Colour) :
    (y.tokenRecv size f r c).st x = y.st x := by
  simp only [tokenRecv, forwardTerminate]
  split
  · rw [set_ne h]
    split
    · rw [tokenIssend_ne h, set_ne h]
      exact Function.update_of_ne h _ _
    · rw [set_ne h]
      exact Function.update_of_ne h _ _
  · exact Function.update_of_ne h _ _

theorem TokenNet.checkForTerm_ne (y : TokenNet) (size : Nat) (f : Bool) (c : Option Colour) :
    (y.checkForTerm size f r c).st x = y.st x := by
  simp only [checkForTerm, passToken]
  split
  · rfl
  · split
    · rw [set_ne h, tokenIssend_ne h, set_ne h]
    · cases c with
      | none => rfl
      | some c => exact tokenRecv_ne h y size f c

theorem TermNet.report_ne (y : TermNet) (t : TreeState) : (y.report t r).1.st x = y.st x := by
  simp only [report]
  split
  · cases t.parentRank <;>
      simp [sendUp, completeRoot, complete, set, Function.update_of_ne h]
  · rfl

theorem TermNet.await_ne (y : TermNet) (t : TreeState) (hit : Bool) :
    (y.await t r hit).1.st x = y.st x := by
  unfold await
  split <;> simp [recvResult, complete, Function.update_of_ne h]

theorem BarrierNet.report_ne (y : BarrierNet) (t : TreeState) :
    (y.report t r).1.st x = y.st x := by
  simp only [report]
  split
  · cases t.parentRank <;> simp [sendUp, complete, Function.update_of_ne h]
  · rfl

theorem BarrierNet.await_ne (y : BarrierNet) (t : TreeState) (hit : Bool) :
    (y.await t r hit).1.st x = y.st x := by
  unfold await
  split <;> simp [recvRelease, complete, Function.update_of_ne h]

theorem ReduceNet.callback_ne (y : ReduceNet) (calls : List ReduceCall) :
    (y.callback r calls).st x = y.st x ∧ (y.callback r calls).input x = y.input x :=
  ⟨rfl, Function.update_of_ne h _ _⟩

theorem ReduceNet.recvReply_ne (y : ReduceNet) (child : Rank) :
    (y.recvReply r child).st x = y.st x ∧ (y.recvReply r child).input x = y.input x := by
  unfold recvReply
  split <;> simp [Function.update_of_ne h]

theorem ReduceNet.begin_ne (y : ReduceNet) (t : TreeState) (cleanup due hit : Bool) :
    (y.begin t r cleanup due hit).st x = y.st x ∧
      (y.begin t r cleanup due hit).input x = y.input x := by
  simp only [begin]
  split
  · cases cleanup
    · simp [Function.update_of_ne h]
    · cases t.parentRank <;> simp [Function.update_of_ne h]
  · simp

theorem ReduceNet.finish_ne (y : ReduceNet) (t : TreeState) (count : Nat) :
    (y.finish t r count).st x = y.st x ∧ (y.finish t r count).input x = y.input x := by
  simp only [finish]
  split
  · cases t.parentRank <;> simp [set, sendResult, Function.update_of_ne h]
  · simp

theorem ReduceNet.recvSync_ne (y : ReduceNet) (child : Rank) :
    (y.recvSync r child).st x = y.st x ∧ (y.recvSync r child).input x = y.input x := by
  unfold recvSync
  split <;> simp [Function.update_of_ne h]

theorem ReduceNet.syncFinish_ne (y : ReduceNet) (t : TreeState) :
    (y.syncFinish t r).st x = y.st x ∧ (y.syncFinish t r).input x = y.input x := by
  unfold syncFinish
  split <;> simp [sendResult, Function.update_of_ne h]

theorem AbortNet.abortStart_ne (y : AbortNet) (t : TreeState) (cleanup : Bool) :
    (y.abortStart t cleanup r).st x = y.st x := by
  simp only [abortStart]
  split
  · rfl
  · split <;> simp [set, Function.update_of_ne h]

theorem AbortReduceNet.report_ne (y : AbortReduceNet) (t : TreeState) :
    (y.report t r).1.st x = y.st x := by
  unfold report
  split <;> simp [sendUp, complete, Function.update_of_ne h]

theorem AbortReduceNet.await_ne (y : AbortReduceNet) (t : TreeState) :
    (y.await t r).1.st x = y.st x := by
  unfold await
  split <;> simp [recvResult, complete, Function.update_of_ne h]

end Frame

theorem loc_next_of_ne (hx : x ≠ e.rank) : (s.next job e).loc x = s.loc x := by
  cases e with
  | begin r next ops =>
      change x ≠ r at hx
      simp [Sys.loc, Sys.next, Function.update_of_ne hx, WorkNet.init, WorkNet.setQueue,
        TokenNet.init, TokenNet.set, TermNet.init, TermNet.set, BarrierNet.init, BarrierNet.set,
        ReduceNet.init, ReduceNet.set, AbortNet.init, AbortNet.set]
  | workreq r src =>
      change x ≠ r at hx
      simp [Sys.loc, Sys.next, Function.update_of_ne hx, WorkNet.workreqRecv]
  | workreqDone r rand =>
      change x ≠ r at hx
      simp only [Sys.loc, Sys.next, Function.update_of_ne hx]
      split <;> simp [WorkNet.planSizes, Function.update_of_ne hx]
  | sendWork r count =>
      change x ≠ r at hx
      simp only [Sys.loc, Sys.next, Function.update_of_ne hx]
      by_cases hc : count = 0
      · simp [hc, WorkNet.sendWork, WorkNet.sendNoWork, WorkNet.nextRequestor,
          Function.update_of_ne hx]
      · simp only [hc, if_false, WorkNet.sendWork, WorkNet.nextRequestor, TokenNet.blacken,
          TokenNet.set, Function.update_of_ne hx]
        split <;> simp [Function.update_of_ne hx]
  | sendNoWork r =>
      change x ≠ r at hx
      simp [Sys.loc, Sys.next, Function.update_of_ne hx, WorkNet.sendNoWork,
        WorkNet.nextRequestor]
  | workreceipt r src =>
      change x ≠ r at hx
      simp [Sys.loc, Sys.next, Function.update_of_ne hx, WorkNet.workreceiptRecv,
        TermNet.clearFlag, TermNet.set]
  | worksend r i =>
      change x ≠ r at hx
      simp [Sys.loc, Sys.next, Function.update_of_ne hx, WorkNet.worksendCheck]
  | abortStart r =>
      change x ≠ r at hx
      simp only [Sys.loc, Sys.next, Function.update_of_ne hx]
      split <;> simp [AbortNet.abortStart_ne hx]
  | abortRequest r src =>
      change x ≠ r at hx
      cases src with
      | none => simp [Sys.loc, Sys.next, Function.update_of_ne hx]
      | some q =>
          simp [Sys.loc, Sys.next, Function.update_of_ne hx, AbortNet.abortStart_ne hx,
            AbortNet.recvRequest]
  | abortReplies r done =>
      change x ≠ r at hx
      cases done <;>
        simp [Sys.loc, Sys.next, Function.update_of_ne hx, AbortNet.repliesDone]
  | reduceBegin r due hit calls =>
      change x ≠ r at hx
      simp [Sys.loc, Sys.next, Function.update_of_ne hx, ReduceNet.callback_ne hx,
        ReduceNet.begin_ne hx]
  | reduceReply r hit calls =>
      change x ≠ r at hx
      cases hit <;>
        simp [Sys.loc, Sys.next, Function.update_of_ne hx, ReduceNet.callback_ne hx,
          ReduceNet.recvReply_ne hx]
  | reduceDone r calls =>
      change x ≠ r at hx
      simp [Sys.loc, Sys.next, Function.update_of_ne hx, ReduceNet.callback_ne hx,
        ReduceNet.finish_ne hx]
  | requestReply r sent =>
      change x ≠ r at hx
      cases hm : s.reply r <;>
        simp [Sys.loc, Sys.next, Function.update_of_ne hx, WorkNet.requestDone, hm,
          WorkNet.workReceive, WorkNet.requestTest]
  | requestSend r sent next =>
      change x ≠ r at hx
      simp [Sys.loc, Sys.next, Function.update_of_ne hx, WorkNet.requestSend,
        WorkNet.requestTest]
  | requestNone r sent =>
      change x ≠ r at hx
      simp [Sys.loc, Sys.next, Function.update_of_ne hx, WorkNet.requestTest]
  | process r ops =>
      change x ≠ r at hx
      simp [Sys.loc, Sys.next, Function.update_of_ne hx, WorkNet.setQueue]
  | termReply r src =>
      change x ≠ r at hx
      simp [Sys.loc, Sys.next, Function.update_of_ne hx, TermNet.recvFlag]
  | termUp r =>
      change x ≠ r at hx
      simp [Sys.loc, Sys.next, Function.update_of_ne hx, TermNet.report_ne hx]
  | termDown r hit =>
      change x ≠ r at hx
      simp [Sys.loc, Sys.next, Function.update_of_ne hx, TermNet.await_ne hx]
  | token r hit =>
      change x ≠ r at hx
      simp [Sys.loc, Sys.next, Function.update_of_ne hx, TokenNet.checkForTerm_ne hx]
  | barrierStart r =>
      change x ≠ r at hx
      simp only [Sys.loc, Sys.next, Function.update_of_ne hx]
      split <;> simp [BarrierNet.barrierStart, BarrierNet.set, Function.update_of_ne hx]
  | barrierReply r src =>
      change x ≠ r at hx
      cases src with
      | none => simp [Sys.loc, Sys.next, Function.update_of_ne hx]
      | some q => simp [Sys.loc, Sys.next, Function.update_of_ne hx, BarrierNet.recvArrival]
  | barrierUp r =>
      change x ≠ r at hx
      simp [Sys.loc, Sys.next, Function.update_of_ne hx, BarrierNet.report_ne hx]
  | barrierDown r hit =>
      change x ≠ r at hx
      simp [Sys.loc, Sys.next, Function.update_of_ne hx, BarrierNet.await_ne hx]
  | tokenDrain r hit done =>
      change x ≠ r at hx
      cases hit <;> cases done <;>
        simp [Sys.loc, Sys.next, Function.update_of_ne hx, TokenNet.tokenRecv_ne hx,
          TokenNet.testSend, TokenNet.set]
  | worksendWait r =>
      change x ≠ r at hx
      simp [Sys.loc, Sys.next, Function.update_of_ne hx, WorkNet.worksendWait,
        AbortReduceNet.enter]
  | reduceSync r calls =>
      change x ≠ r at hx
      simp [Sys.loc, Sys.next, Function.update_of_ne hx, ReduceNet.callback_ne hx,
        ReduceNet.syncBegin, ReduceNet.set]
  | reduceSyncReply r calls =>
      change x ≠ r at hx
      simp [Sys.loc, Sys.next, Function.update_of_ne hx, ReduceNet.callback_ne hx,
        ReduceNet.recvSync_ne hx]
  | reduceSyncDone r calls =>
      change x ≠ r at hx
      simp [Sys.loc, Sys.next, Function.update_of_ne hx, ReduceNet.callback_ne hx,
        ReduceNet.syncFinish_ne hx, AbortReduceNet.enter]
  | abortReduceReply r =>
      change x ≠ r at hx
      simp [Sys.loc, Sys.next, Function.update_of_ne hx, AbortReduceNet.recvFlag]
  | abortReduceUp r =>
      change x ≠ r at hx
      simp [Sys.loc, Sys.next, Function.update_of_ne hx, AbortReduceNet.report_ne hx,
        AbortNet.set]
  | abortReduceDown r =>
      change x ≠ r at hx
      simp [Sys.loc, Sys.next, Function.update_of_ne hx, AbortReduceNet.await_ne hx,
        AbortNet.set]
  | finish r =>
      change x ≠ r at hx
      simp only [Sys.loc, Sys.next, Function.update_of_ne hx]
      split <;> simp [WorkNet.setQueue, Function.update_of_ne hx]
  | workreceiptDone r | worksendDone r | reduceSkip r | reduceResume r | requestSkip r
  | checkForTerm r | termRepliesDone r =>
      change x ≠ r at hx
      simp [Sys.loc, Sys.next, Function.update_of_ne hx]

/-- The number of an invocation only grows. -/
theorem inv_le_next (x : Rank) : s.inv x ≤ (s.next job e).inv x := by
  cases e with
  | begin r next ops =>
      by_cases hx : x = r
      · subst hx
        simp [Sys.next]
      · simp [Sys.next, Function.update_of_ne hx]
  | _ => exact Nat.le_refl _

/-- Setting one flag clears none. -/
theorem le_abortFlag (f : Rank → Bool) (r : Rank) (b : Bool) (x : Rank) (hx : f x = true) :
    Function.update f r (f r || b) x = true := by
  by_cases hxr : x = r
  · subst hxr
    simp [hx]
  · rwa [Function.update_of_ne hxr]

/-! ## Assertions -/

/-- The rank is in the main loop or in the cleanup loop. -/
def Loc.Looping (l : Loc α) : Prop := l.stage = .main ∨ l.stage = .cleanup

/-- The rank is not serving requestors. -/
def Loc.Served (l : Loc α) : Prop := l.requestors = []

/-- The rank has nothing to process, or sees an abort. -/
def Loc.Passive (l : Loc α) : Prop := l.queue = [] ∨ l.abortFlag = true

/-- The local variables of `CIRCLE_abort_reduce` outside of it. -/
def AbortReduce.Resting (x : AbortReduce) : Prop := x.waiting = false ∧ x.index = 0

/-- The abort reduction of this invocation is still to be completed. -/
def Loc.Reducing (l : Loc α) : Prop := l.abortReduce.completed + 1 = l.inv

/-- What holds when rank `r` is at a position. -/
def Loc.At (job : Job) (r : Rank) (l : Loc α) : Pc → Prop
  | .idle => l.stage = .outside ∧ l.Served
  | .workreq => l.Looping
  | .sendWork =>
      l.stage = .main ∧ l.abortFlag = false ∧ l.requestors ≠ [] ∧
        l.sizes.length = l.requestors.length ∧ l.sizes.sum < l.queue.length
  | .sendNoWork => l.Looping ∧ l.requestors ≠ []
  | .workreceipt => l.stage = .main ∧ l.Served
  | .worksend | .abortStart | .abortRequest | .abortReplies | .reduce | .request =>
      l.Looping ∧ l.Served
  | .reduceReplies i =>
      l.Looping ∧ l.Served ∧ (job.opts l.inv).reduceEnabled = true ∧
        l.reduce.outstanding = true ∧ i ≤ (job.tree l.inv r).children
  | .work => l.stage = .main ∧ l.Served
  | .termReplies => l.stage = .main ∧ l.Served ∧ (job.opts l.inv).termTree = true ∧ l.Passive
  | .termUp | .termDown =>
      l.stage = .main ∧ l.Served ∧ (job.opts l.inv).termTree = true ∧ l.Passive ∧
        l.workOutstanding = 0
  | .token => l.stage = .main ∧ l.Served ∧ (job.opts l.inv).termTree = false ∧ l.Passive
  | .barrierStart => l.stage = .cleanup ∧ l.Served
  | .barrierReply | .barrierUp | .barrierDown =>
      l.stage = .cleanup ∧ l.Served ∧ l.barrier.barrierStarted = true
  | .tokenDrain => l.stage = .cleanup ∧ l.Served ∧ (job.opts l.inv).termTree = false
  | .worksendWait => l.stage = .after ∧ l.Served ∧ l.abortReduce.Resting ∧ l.Reducing
  | .reduceSync =>
      l.stage = .after ∧ l.Served ∧ l.abortReduce.Resting ∧ l.Reducing ∧
        (job.opts l.inv).reduceEnabled = true
  | .reduceSyncReplies i =>
      l.stage = .after ∧ l.Served ∧ l.abortReduce.Resting ∧ l.Reducing ∧
        (job.opts l.inv).reduceEnabled = true ∧ i ≤ (job.tree l.inv r).children
  | .abortReduce =>
      l.stage = .after ∧ l.Served ∧ l.abortReduce.waiting = false ∧ l.Reducing ∧
        (l.abortFlag = true → l.abortReduce.flag = true)
  | .abortReduceDown =>
      l.stage = .after ∧ l.Served ∧ l.abortReduce.waiting = true ∧ l.Reducing ∧
        l.abortReduce.index = (job.tree l.inv r).children
  | .returned =>
      l.stage = .after ∧ l.Served ∧ l.abortReduce.Resting ∧ l.abortReduce.completed = l.inv

/-- The number of barriers and abort reductions a rank completed, in its invocation
number `inv`. -/
def Stage.Counted (inv barriers reductions : Nat) : Stage → Prop
  | .main | .cleanup => barriers + 1 = inv ∧ reductions + 1 = inv
  | .after => barriers = inv ∧ 0 < inv
  | .outside => barriers = inv ∧ reductions = inv

/-- What holds at every position. -/
structure Loc.Tidy (job : Job) (l : Loc α) : Prop where
  /-- A rank that waits for work has none. -/
  queue_nil : l.request.workRequested = true → l.queue = []
  /-- The barrier is reset outside the cleanup loop. -/
  barrier_reset : l.stage ≠ .cleanup → l.barrier.barrierStarted = false
  /-- A barrier makes progress only after its start. -/
  barrier_started : l.barrier.barrierStarted = false →
    l.barrier.barrierUp = false ∧ l.barrier.barrierReplies = 0
  /-- The conditions of `CIRCLE_barrier_start` that stay true. -/
  settled : l.barrier.barrierStarted = true ∨ l.stage = .after ∨ l.stage = .outside →
    l.request.workRequested = false ∧ l.reduce.outstanding = false ∧
      l.abort.abortOutstanding = false
  /-- The termination allreduce is used in the main loop with tree termination only. -/
  term_reset : l.stage ≠ .main ∨ (job.opts l.inv).termTree = false →
    l.term.termUp = false ∧ l.term.termReplies = 0
  /-- Tree termination leaves no transfer unacknowledged. -/
  acknowledged : l.inv = 0 ∨ (job.opts l.inv).termTree = true → l.stage ≠ .main →
    l.workOutstanding = 0
  /-- The abort reduction is reset in the loops. -/
  abortReduce_reset : l.stage ≠ .after → l.abortReduce.Resting
  /-- Every barrier and abort reduction is completed in its invocation. -/
  counted : Stage.Counted l.inv l.barrier.completed l.abortReduce.completed l.stage

end Libcircle
