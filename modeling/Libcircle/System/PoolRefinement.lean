import Libcircle.Lib.Pool
import Libcircle.System.Conservation

/-!
# The queues are one pool

The queues of all ranks, with the replies in flight, behave as one pool of items.
`CIRCLE_enqueue` puts an item into it, `CIRCLE_dequeue` takes one out, and the
checkpoint of an aborted invocation saves those it finds.  Every other step of the
system, the transfers among them, leaves the pool as it is.  So what the callbacks
see of the system is a history of one pool, in the order of the steps
(`queues_refine_pool`).
-/

namespace Libcircle

variable {α : Type*} {job : Job} {s t : Sys α} {e : Event α} {r : Rank}

/-! ## Callbacks -/

namespace CallbackState

variable (c : CallbackState α)

/-- What a call does to the pool. -/
def moves : WorkOp α → List (Pool.Move α)
  | .enqueue x => [.put x]
  | .dequeue => c.queue.getLast?.toList.map .take
  | .abort => []

/-- What the calls of a callback do to the pool. -/
def history (c : CallbackState α) : List (WorkOp α) → List (Pool.Move α)
  | [] => []
  | op :: ops => c.moves op ++ (c.call op).history ops

variable {c} {rest : Multiset α}

theorem path_call (op : WorkOp α) :
    LabelledPath Pool.Step (rest + (c.queue : Multiset α)) (c.moves op)
      (rest + ((c.call op).queue : Multiset α)) := by
  cases op with
  | enqueue x =>
      have hqueue : ((c.call (.enqueue x)).queue : Multiset α) = x ::ₘ c.queue :=
        Multiset.coe_eq_coe.mpr (List.perm_append_singleton x c.queue)
      rw [hqueue, Multiset.add_cons]
      exact Pool.path_put _ x
  | dequeue =>
      cases hl : c.queue.getLast? with
      | none =>
          have hnil := List.getLast?_eq_none_iff.mp hl
          simpa [moves, call, hnil] using LabelledPath.nil (rest + (c.queue : Multiset α))
      | some x =>
          have hqueue : (c.queue : Multiset α) = x ::ₘ (c.call .dequeue).queue := by
            conv_lhs => rw [← List.dropLast_append_getLast? x hl]
            exact Multiset.coe_eq_coe.mpr (List.perm_append_singleton x c.queue.dropLast)
          rw [moves, hl, hqueue, Multiset.add_cons]
          exact Pool.path_take _ x
  | abort => exact .nil _

theorem path_run (ops : List (WorkOp α)) :
    LabelledPath Pool.Step (rest + (c.queue : Multiset α)) (c.history ops)
      (rest + ((c.run ops).queue : Multiset α)) := by
  induction ops generalizing c with
  | nil => exact .nil _
  | cons op ops ih => exact (path_call op).append ih

/-- The moves of a call are what it adds to the items enqueued and dequeued. -/
theorem items_call (op : WorkOp α) :
    (c.call op).enqueued = c.enqueued ++ (c.moves op).filterMap Pool.Move.put? ∧
      (c.call op).dequeued = c.dequeued ++ (c.moves op).filterMap Pool.Move.taken? ∧
      (c.moves op).filterMap Pool.Move.saved? = [] := by
  cases op with
  | enqueue x => simp [call, moves, Pool.Move.put?, Pool.Move.taken?, Pool.Move.saved?]
  | dequeue =>
      cases hl : c.queue.getLast? <;>
      simp [call, moves, hl, Pool.Move.put?, Pool.Move.taken?, Pool.Move.saved?]
  | abort => simp [call, moves]

theorem items_run (ops : List (WorkOp α)) :
    (c.run ops).enqueued = c.enqueued ++ (c.history ops).filterMap Pool.Move.put? ∧
      (c.run ops).dequeued = c.dequeued ++ (c.history ops).filterMap Pool.Move.taken? ∧
      (c.history ops).filterMap Pool.Move.saved? = [] := by
  induction ops generalizing c with
  | nil => simp [run, history]
  | cons op ops ih =>
      obtain ⟨henq, hdeq, hsave⟩ := c.items_call op
      obtain ⟨ihenq, ihdeq, ihsave⟩ := ih (c := c.call op)
      rw [history, List.filterMap_append, List.filterMap_append, List.filterMap_append, hsave,
        ihsave]
      refine ⟨?_, ?_, rfl⟩
      · rw [← List.append_assoc, ← henq]
        exact ihenq
      · rw [← List.append_assoc, ← hdeq]
        exact ihdeq

end CallbackState

/-! ## The system -/

/-- The items in the queues and in flight. -/
def Sys.pool (job : Job) (s : Sys α) : Multiset α :=
  s.work.held job.size + s.work.inFlight job.size

/-- What an event does to the pool. -/
def Sys.moves (s : Sys α) : Event α → List (Pool.Move α)
  | .begin r _ ops | .process r ops => (s.callbackState r).history ops
  | .finish r => if s.abortFlag r then (s.work.queue r).map .save else []
  | _ => []

/-- What a run does to the pool. -/
def Sys.history (job : Job) (s : Sys α) : List (Event α) → List (Pool.Move α)
  | [] => []
  | e :: es => s.moves e ++ (s.next job e).history job es

/-- The items of `r` and all others. -/
theorem pool_eq (hr : r < job.size) :
    s.pool job = s.work.heldElsewhere job.size r + s.work.inFlight job.size +
      (s.work.queue r : Multiset α) := by
  rw [Sys.pool, WorkNet.held_eq s.work hr, add_right_comm]

/-- A callback on `r`. -/
theorem path_callback (hr : r < job.size) (ops : List (WorkOp α)) :
    LabelledPath Pool.Step (s.pool job) ((s.callbackState r).history ops)
      ((s.work.setQueue r (s.callback r ops).queue).held job.size +
        s.work.inFlight job.size) := by
  have hnew : (s.work.setQueue r (s.callback r ops).queue).held job.size +
      s.work.inFlight job.size = s.work.heldElsewhere job.size r + s.work.inFlight job.size +
      ((s.callback r ops).queue : Multiset α) := by
    rw [WorkNet.held_update hr rfl, add_right_comm]
  rw [pool_eq hr, hnew]
  exact CallbackState.path_run (c := s.callbackState r) ops

/-- The checkpoint of `r`. -/
theorem path_finish (hr : r < job.size) :
    LabelledPath Pool.Step (s.pool job) (s.moves (.finish r))
      ((s.next job (.finish r)).pool job) := by
  cases hf : s.abortFlag r with
  | false => simpa [Sys.moves, Sys.pool, Sys.next, hf] using LabelledPath.nil (s.pool job)
  | true =>
      have hnew : (s.next job (.finish r)).pool job =
          s.work.heldElsewhere job.size r + s.work.inFlight job.size := by
        have hheld : (s.work.setQueue r []).held job.size =
            s.work.heldElsewhere job.size r + ([] : List α) := WorkNet.held_update hr rfl
        simp only [Sys.pool, Sys.next, hf, if_true, hheld]
        rw [Multiset.coe_nil, add_zero]
        rfl
      rw [pool_eq hr, hnew, Sys.moves, hf]
      exact Pool.path_save _ _

/-- One step.  A step that neither calls the user nor saves items keeps the pool, since it keeps
what was enqueued and what left the queues. -/
theorem pool_next (he : s.Enabled job e) (hcoh : s.Coherent job) (h : s.Conserved job) :
    LabelledPath Pool.Step (s.pool job) (s.moves e) ((s.next job e).pool job) := by
  have hr : e.rank < job.size := (hcoh.ok _).rank_lt he
  have h' := conserved_next he hcoh h
  have hsame : (s.next job e).enqueued = s.enqueued → (s.next job e).dequeued = s.dequeued →
      (s.next job e).checkpointed = s.checkpointed → s.moves e = [] →
      LabelledPath Pool.Step (s.pool job) (s.moves e) ((s.next job e).pool job) := by
    intro henq hdeq hcheck hmoves
    have hpool : (s.next job e).pool job = s.pool job := by
      unfold Sys.Conserved at h h'
      rw [henq, hdeq, hcheck, h] at h'
      exact (add_left_cancel h').symm
    rw [hmoves, hpool]
    exact .nil _
  cases e with
  | begin r next ops => exact path_callback hr ops
  | process r ops => exact path_callback hr ops
  | finish r => exact path_finish hr
  | _ => exact hsame rfl rfl rfl rfl

theorem pool_of_run {es : List (Event α)} (hrun : job.step.Run s es t) (hcoh : s.Coherent job)
    (h : s.Conserved job) :
    LabelledPath Pool.Step (s.pool job) (s.history job es) (t.pool job) := by
  induction hrun with
  | nil => exact .nil _
  | cons he _ ih =>
      exact (pool_next he hcoh h).append (ih (coherent_next he hcoh) (conserved_next he hcoh h))

/-- One step adds its moves to the items enqueued, dequeued and saved. -/
theorem items_next (job : Job) (s : Sys α) (e : Event α) :
    (s.next job e).enqueued = s.enqueued ++ (s.moves e).filterMap Pool.Move.put? ∧
      (s.next job e).dequeued = s.dequeued ++ (s.moves e).filterMap Pool.Move.taken? ∧
      (s.next job e).checkpointed =
        s.checkpointed ++ (s.moves e).filterMap Pool.Move.saved? := by
  cases e with
  | begin r _ ops | process r ops =>
      obtain ⟨henq, hdeq, hsave⟩ := CallbackState.items_run (c := s.callbackState r) ops
      refine ⟨henq, hdeq, ?_⟩
      rw [Sys.moves, hsave, List.append_nil]
      rfl
  | finish r =>
      cases hf : s.abortFlag r with
      | false => simp [Sys.next, Sys.moves, hf]
      | true =>
          have hput : (fun x : α => (Pool.Move.save x).put?) = fun _ => none := rfl
          have htaken : (fun x : α => (Pool.Move.save x).taken?) = fun _ => none := rfl
          have hsaved : (fun x : α => (Pool.Move.save x).saved?) = some := rfl
          simp [Sys.next, Sys.moves, hf, List.filterMap_map, hput, htaken, hsaved]
  | _ => simp [Sys.next, Sys.moves]

theorem items_of_run {es : List (Event α)} (hrun : job.step.Run s es t) :
    t.enqueued = s.enqueued ++ (s.history job es).filterMap Pool.Move.put? ∧
      t.dequeued = s.dequeued ++ (s.history job es).filterMap Pool.Move.taken? ∧
      t.checkpointed = s.checkpointed ++ (s.history job es).filterMap Pool.Move.saved? := by
  induction hrun with
  | nil => simp [Sys.history]
  | @cons s t e es _ _ ih =>
      obtain ⟨henq, hdeq, hsave⟩ := items_next job s e
      obtain ⟨ihenq, ihdeq, ihsave⟩ := ih
      simp only [Sys.history, List.filterMap_append, ← List.append_assoc, ← henq, ← hdeq, ← hsave]
      exact ⟨ihenq, ihdeq, ihsave⟩

/-- The queues of all ranks are one pool: in any number of invocations, with either kind of
termination and any aborts, what the callbacks and the checkpoints do, in the order of the steps,
is a history of a pool that starts with the items in the queues.  Its items are those enqueued,
dequeued and saved, in this order, and what is left in the pool are the items in the queues and in
flight. -/
theorem queues_refine_pool {queue : Rank → List α} {abortFlag : Rank → Bool}
    {input : Rank → ReduceInput} {enqueued : List α} {es : List (Event α)}
    (hstart : (enqueued : Multiset α) = ∑ r ∈ Finset.range job.size, (queue r : Multiset α))
    (hrun : job.step.Run (Sys.start queue abortFlag input enqueued) es t) :
    let acts := (Sys.start queue abortFlag input enqueued).history job es
    LabelledPath Pool.Step (enqueued : Multiset α) acts
        (t.work.held job.size + t.work.inFlight job.size) ∧
      t.enqueued = enqueued ++ acts.filterMap Pool.Move.put? ∧
      t.dequeued = acts.filterMap Pool.Move.taken? ∧
      t.checkpointed = acts.filterMap Pool.Move.saved? := by
  have hcons : (Sys.start queue abortFlag input enqueued).Conserved job := conserved_start hstart
  have hpool : (enqueued : Multiset α) = (Sys.start queue abortFlag input enqueued).pool job :=
    hcons.trans (zero_add _)
  have hpath := pool_of_run hrun (coherent_start ..) hcons
  rw [← hpool] at hpath
  exact ⟨hpath, items_of_run hrun⟩

/-- Rank `1` receives an item of rank `0` and processes it. -/
def handedOver : List (Event Nat) :=
  handover ++ [.checkForTerm 1, .token 1 false, .workreqDone 1 0, .workreceiptDone 1,
    .worksendDone 1, .abortStart 1, .abortRequest 1 none, .abortReplies 1 false, .reduceSkip 1,
    .requestReply 1 false, .process 1 [.dequeue, .enqueue 3]]

theorem queues_refine_pool_handedOver :
    let t := ringPair.step.follow .fresh handedOver
    LabelledPath Pool.Step (0 : Multiset Nat) [.put 1, .put 2, .take 2, .put 3]
      (t.work.held 2 + t.work.inFlight 2) :=
  have hrun : ringPair.step.Run (Sys.fresh (α := Nat)) handedOver
      (ringPair.step.follow .fresh handedOver) := .of_admits (by decide +kernel)
  have hacts : (Sys.fresh (α := Nat)).history ringPair handedOver =
      [.put 1, .put 2, .take 2, .put 3] := by decide +kernel
  hacts ▸ (queues_refine_pool rfl hrun).1

end Libcircle
