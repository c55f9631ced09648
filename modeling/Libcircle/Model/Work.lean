import Libcircle.Model.Tree

/-!
# Requests for work, work transfers and receipts

The functions of `token.c` on the work-transfer path, at the level of items: a
queue is the list of its strings in the order of the `strings` array, so the
last element is the top of the stack.  The byte level, and that it implements
these lists, is in `Libcircle.Queue`.

`WorkNet` has, for every rank, the fields of `CIRCLE_state_st` these functions
use, and the three message tags `CIRCLE_TAG_WORK_REQUEST`,
`CIRCLE_TAG_WORK_REPLY` and `CIRCLE_TAG_WORK_RECEIPT`.  A reply that carries
items is two MPI messages, the offsets and the bytes.  They are posted together
and received together, and are one message here.

An item transfer and its receipt carry the number of the invocation the sender
was in.  It is a history variable: no message of the source has it, and no
function reads it.
-/

namespace Libcircle

/-! ## Messages and state -/

/-- A message with tag `CIRCLE_TAG_WORK_REPLY`. -/
inductive Reply (α : Type*) where
  /-- An item count of `0`. -/
  | noWork
  /-- The item count `PAYLOAD_ABORT`. -/
  | abort
  /-- Items, with the invocation of the sender. -/
  | items (inv : Nat) (l : List α)
deriving DecidableEq, Repr

/-- The number of transfers a reply is. -/
def Reply.transfers {α : Type*} : Reply α → Nat
  | .items _ _ => 1
  | _ => 0

/-- The items a reply carries. -/
def Reply.payload {α : Type*} : Reply α → List α
  | .items _ l => l
  | _ => []

/-- The reply sets the abort flag of its receiver. -/
def Reply.aborts {α : Type*} : Reply α → Bool
  | .abort => true
  | _ => false

/-- The tag of a send that `CIRCLE_worksend_track` records. -/
inductive SendTag where
  | workReply
  | workReceipt
deriving DecidableEq, Repr

/-- One entry of `send_reqs` and `send_bufs`. -/
structure SendReq where
  /-- The receiver. -/
  dest : Rank
  /-- The tag. -/
  tag : SendTag
deriving DecidableEq, Repr

/-- The fields of a rank that manage its request for work. -/
structure Request where
  /-- `next_processor`, with `none` for `MPI_PROC_NULL`. -/
  nextProcessor : Option Rank := none
  /-- `work_requested`. -/
  workRequested : Bool := false
  /-- `work_requested_rank`. -/
  workRequestedRank : Rank := 0
  /-- `work_request_req` is not `MPI_REQUEST_NULL`. -/
  workRequestReq : Bool := false
deriving DecidableEq, Repr

/-- Queues, requests and transfers of all ranks. -/
structure WorkNet (α : Type*) where
  /-- The items of the queue. -/
  queue : Rank → List α
  /-- `requestors`, up to `rcount`. -/
  requestors : Rank → List Rank
  /-- The entries of `sizes` for the requestors not yet served. -/
  sizes : Rank → List Nat
  /-- The request of the rank. -/
  request : Rank → Request
  /-- `work_outstanding`. -/
  workOutstanding : Rank → Nat
  /-- The sends recorded and not yet reaped. -/
  sends : Rank → List SendReq
  /-- `CIRCLE_TAG_WORK_REQUEST`. -/
  requests : Chan Rank Unit
  /-- `CIRCLE_TAG_WORK_REPLY`. -/
  replies : Chan Rank (Reply α)
  /-- `CIRCLE_TAG_WORK_RECEIPT`. -/
  receipts : Chan Rank Nat

variable {α : Type*}

/-! ## Splitting the queue -/

/-- `spread_counts`: `count` over `ranks` slots, the first ones one larger. -/
def spreadCounts (ranks count : Nat) : List Nat :=
  let base := count / ranks
  let extra := count - base * ranks
  List.replicate extra (base + 1) ++ List.replicate (ranks - extra) base

/-- The array `sizes` of `CIRCLE_send_work_to_many`, the share of the sender first.
`rand` is what `rand_r` returns. -/
def splitSizes (splitEqual : Bool) (rand count rcount : Nat) : List Nat :=
  if splitEqual then spreadCounts (rcount + 1) count
  else
    let sendCount := rand % count + 1
    let sendCount := if sendCount = count then sendCount - 1 else sendCount
    (count - sendCount) :: spreadCounts rcount sendCount

section Sizes

variable {ranks count rcount rand : Nat} {splitEqual : Bool}

theorem spreadCounts_length (hr : 0 < ranks) : (spreadCounts ranks count).length = ranks := by
  have hmod := Nat.mod_lt count hr
  have hdiv := Nat.div_add_mod' count ranks
  simp only [spreadCounts, List.length_append, List.length_replicate]
  omega

theorem spreadCounts_sum (hr : 0 < ranks) : (spreadCounts ranks count).sum = count := by
  have hmod := Nat.mod_lt count hr
  have hdiv := Nat.div_add_mod' count ranks
  have hextra : count - count / ranks * ranks = count % ranks := by omega
  obtain ⟨rest, hrest⟩ := Nat.exists_eq_add_of_lt hmod
  have hsub : ranks - count % ranks = rest + 1 := by omega
  simp only [spreadCounts, List.sum_append, List.sum_replicate_nat, hextra, hsub]
  have hrw : count / ranks * ranks
      = count % ranks * (count / ranks) + (rest + 1) * (count / ranks) := by
    rw [← Nat.add_mul, Nat.mul_comm]
    congr 1
  rw [Nat.mul_add]
  omega

/-- The first slot of a spread is the largest. -/
theorem spreadCounts_cons (rcount : Nat) (hc : 0 < count) :
    ∃ base rest, spreadCounts (rcount + 1) count = base :: rest ∧ 0 < base := by
  have hmod := Nat.mod_lt count (Nat.succ_pos rcount)
  have hdiv := Nat.div_add_mod' count (rcount + 1)
  simp only [spreadCounts]
  cases hx : count - count / (rcount + 1) * (rcount + 1) with
  | zero =>
      refine ⟨count / (rcount + 1), List.replicate rcount (count / (rcount + 1)), ?_, ?_⟩
      · simp [List.replicate_succ]
      · rcases Nat.eq_zero_or_pos (count / (rcount + 1)) with h0 | hpos
        · rw [h0] at hx hdiv
          omega
        · exact hpos
  | succ m => exact ⟨count / (rcount + 1) + 1, _, rfl, Nat.succ_pos _⟩

/-- The slots of a spread differ by at most one. -/
theorem spreadCounts_le {a b : Nat} (ha : a ∈ spreadCounts ranks count)
    (hb : b ∈ spreadCounts ranks count) : a ≤ b + 1 := by
  simp only [spreadCounts, List.mem_append, List.mem_replicate] at ha hb
  omega

theorem splitSizes_length (hr : 0 < rcount) :
    (splitSizes splitEqual rand count rcount).length = rcount + 1 := by
  cases splitEqual with
  | true => exact spreadCounts_length (Nat.succ_pos _)
  | false => simp [splitSizes, spreadCounts_length hr]

/-- The sender keeps at least one item. -/
theorem splitSizes_tail_sum_lt (hr : 0 < rcount) (hc : 0 < count) :
    (splitSizes splitEqual rand count rcount).tail.sum < count := by
  cases splitEqual with
  | true =>
      obtain ⟨base, rest, hsplit, hbase⟩ := spreadCounts_cons rcount hc
      have hsum := @spreadCounts_sum (rcount + 1) count (Nat.succ_pos rcount)
      rw [hsplit, List.sum_cons] at hsum
      simp only [splitSizes, if_true, hsplit, List.tail_cons]
      omega
  | false =>
      have hmod := Nat.mod_lt rand hc
      simp only [splitSizes, Bool.false_eq_true, if_false, List.tail_cons, spreadCounts_sum hr]
      by_cases hall : rand % count + 1 = count
      · rw [if_pos hall]
        omega
      · rw [if_neg hall]
        omega

end Sizes

namespace WorkNet

/-! ## Sends -/

/-- `CIRCLE_worksend_track`. -/
def worksendTrack (w : WorkNet α) (r : Rank) (q : SendReq) : WorkNet α :=
  { w with sends := Function.update w.sends r (w.sends r ++ [q]) }

/-- `CIRCLE_worksend_check` finds the send at index `i` completed. -/
def worksendCheck (w : WorkNet α) (r : Rank) (i : Nat) : WorkNet α :=
  { w with sends := Function.update w.sends r ((w.sends r).eraseIdx i) }

/-- `CIRCLE_worksend_wait`: the request and every send are complete. -/
def worksendWait (w : WorkNet α) (r : Rank) : WorkNet α :=
  { w with
    request := Function.update w.request r { w.request r with workRequestReq := false }
    sends := Function.update w.sends r [] }

/-! ## Servicing requests -/

/-- `CIRCLE_workreq_check` receives the request of `src`. -/
def workreqRecv (w : WorkNet α) (r src : Rank) : WorkNet α :=
  { w with
    requestors := Function.update w.requestors r (w.requestors r ++ [src])
    requests := w.requests.pop src r }

/-- `CIRCLE_send_no_work`. -/
def sendNoWork (w : WorkNet α) (abortFlag : Bool) (r dest : Rank) : WorkNet α :=
  { w with
    replies := w.replies.push r dest (if abortFlag then .abort else .noWork)
    sends := Function.update w.sends r (w.sends r ++ [⟨dest, .workReply⟩]) }

/-- `CIRCLE_send_work` with the count `count` left after the size back-off. -/
def sendWork (w : WorkNet α) (abortFlag : Bool) (inv : Nat) (r dest : Rank) (count : Nat) :
    WorkNet α :=
  if count = 0 then w.sendNoWork abortFlag r dest
  else
    let startElem := (w.queue r).length - count
    { w with
      replies := w.replies.push r dest (.items inv ((w.queue r).drop startElem))
      sends := Function.update w.sends r
        (w.sends r ++ [⟨dest, .workReply⟩, ⟨dest, .workReply⟩])
      queue := Function.update w.queue r ((w.queue r).take startElem)
      workOutstanding := Function.update w.workOutstanding r (w.workOutstanding r + 1) }

/-- The loops over the requestors move to the next one. -/
def nextRequestor (w : WorkNet α) (r : Rank) : WorkNet α :=
  { w with
    requestors := Function.update w.requestors r (w.requestors r).tail
    sizes := Function.update w.sizes r (w.sizes r).tail }

/-- `CIRCLE_send_work_to_many` plans the sizes.  The share of the sender is not sent. -/
def planSizes (w : WorkNet α) (splitEqual : Bool) (rand : Nat) (r : Rank) : WorkNet α :=
  { w with
    sizes := Function.update w.sizes r
      (splitSizes splitEqual rand (w.queue r).length (w.requestors r).length).tail }

/-- `CIRCLE_send_work_to_many` once the sizes are planned.  `counts` is what the size back-off
leaves of them. -/
def sendWorkToMany (abortFlag : Bool) (inv : Nat) (r : Rank) :
    List Rank → List Nat → WorkNet α → WorkNet α
  | dest :: requestors, count :: counts, w =>
      sendWorkToMany abortFlag inv r requestors counts (w.sendWork abortFlag inv r dest count)
  | _, _, w => w

/-! ## Receipts -/

/-- `CIRCLE_workreceipt_check` receives the receipt of `src`. -/
def workreceiptRecv (w : WorkNet α) (r src : Rank) : WorkNet α :=
  { w with
    workOutstanding := Function.update w.workOutstanding r (w.workOutstanding r - 1)
    receipts := w.receipts.pop src r }

/-! ## Asking for work -/

/-- The test of `work_request_req` at the head of `CIRCLE_request_work`.
`sent` is the flag `MPI_Test` returns. -/
def requestTest (w : WorkNet α) (r : Rank) (sent : Bool) : WorkNet α :=
  { w with
    request := Function.update w.request r
      { w.request r with workRequestReq := (w.request r).workRequestReq && !sent } }

/-- `CIRCLE_request_work` posts a request to `dest`; `next` is the rank to ask next. -/
def requestSend (w : WorkNet α) (r dest : Rank) (next : Option Rank) : WorkNet α :=
  { w with
    request := Function.update w.request r
      { nextProcessor := next, workRequested := true, workRequestedRank := dest,
        workRequestReq := true }
    requests := w.requests.push r dest () }

/-- `CIRCLE_work_receive` for the reply `m` of `source`.  The items overwrite the
queue from its first entry, and a receipt goes back. -/
def workReceive (w : WorkNet α) (r source : Rank) : Reply α → WorkNet α
  | .items inv l =>
      { w with
        queue := Function.update w.queue r l
        replies := w.replies.pop source r
        receipts := w.receipts.push r source inv
        sends := Function.update w.sends r (w.sends r ++ [⟨source, .workReceipt⟩]) }
  | _ => { w with replies := w.replies.pop source r }

/-- `CIRCLE_request_work` after the reply has been received. -/
def requestDone (w : WorkNet α) (r : Rank) : WorkNet α :=
  { w with request := Function.update w.request r { w.request r with workRequested := false } }

/-- The part of `CIRCLE_init_local_state` on these fields. -/
def init (w : WorkNet α) (r : Rank) (next : Option Rank) : WorkNet α :=
  { w with
    requestors := Function.update w.requestors r []
    sizes := Function.update w.sizes r []
    request := Function.update w.request r { nextProcessor := next }
    workOutstanding := Function.update w.workOutstanding r 0
    sends := Function.update w.sends r [] }

/-- The callbacks leave `l` in the queue. -/
def setQueue (w : WorkNet α) (r : Rank) (l : List α) : WorkNet α :=
  { w with queue := Function.update w.queue r l }

/-! ## The fields after a transfer -/

section Fields

variable (w : WorkNet α) (abortFlag : Bool) (inv count : Nat) (r dest : Rank)

theorem sendWork_zero : w.sendWork abortFlag inv r dest 0 = w.sendNoWork abortFlag r dest :=
  if_pos rfl

@[simp] theorem sendWork_requestors :
    (w.sendWork abortFlag inv r dest count).requestors = w.requestors := by
  unfold sendWork
  split <;> rfl

@[simp] theorem sendWork_sizes :
    (w.sendWork abortFlag inv r dest count).sizes = w.sizes := by
  unfold sendWork
  split <;> rfl

@[simp] theorem sendWork_request :
    (w.sendWork abortFlag inv r dest count).request = w.request := by
  unfold sendWork
  split <;> rfl

@[simp] theorem sendWork_requests :
    (w.sendWork abortFlag inv r dest count).requests = w.requests := by
  unfold sendWork
  split <;> rfl

@[simp] theorem sendWork_receipts :
    (w.sendWork abortFlag inv r dest count).receipts = w.receipts := by
  unfold sendWork
  split <;> rfl

@[simp] theorem sendWork_queue :
    (w.sendWork abortFlag inv r dest count).queue =
      Function.update w.queue r ((w.queue r).take ((w.queue r).length - count)) := by
  unfold sendWork
  split
  next h => simp [sendNoWork, h]
  next => rfl

@[simp] theorem sendWork_workOutstanding :
    (w.sendWork abortFlag inv r dest count).workOutstanding =
      Function.update w.workOutstanding r
        (w.workOutstanding r + if count = 0 then 0 else 1) := by
  unfold sendWork
  split
  next h => simp [sendNoWork]
  next => rfl

variable (m : Reply α) (src : Rank)

@[simp] theorem workReceive_requestors : (w.workReceive r src m).requestors = w.requestors := by
  cases m <;> rfl

@[simp] theorem workReceive_sizes : (w.workReceive r src m).sizes = w.sizes := by
  cases m <;> rfl

@[simp] theorem workReceive_request : (w.workReceive r src m).request = w.request := by
  cases m <;> rfl

@[simp] theorem workReceive_requests : (w.workReceive r src m).requests = w.requests := by
  cases m <;> rfl

@[simp] theorem workReceive_workOutstanding :
    (w.workReceive r src m).workOutstanding = w.workOutstanding := by
  cases m <;> rfl

@[simp] theorem workReceive_replies :
    (w.workReceive r src m).replies = w.replies.pop src r := by
  cases m <;> rfl

end Fields

end WorkNet

/-! ## The callbacks -/

/-- What a create or process callback does to the queue and the abort flag, one
library call at a time.  A call of `enqueue` that fails leaves no trace. -/
inductive WorkOp (α : Type*) where
  /-- A successful `enqueue`. -/
  | enqueue (x : α)
  /-- A call of `dequeue`. -/
  | dequeue
  /-- A call of `CIRCLE_abort`. -/
  | abort
deriving DecidableEq, Repr

/-- What a callback can change. -/
structure CallbackState (α : Type*) where
  /-- The queue of the rank. -/
  queue : List α
  /-- `CIRCLE_ABORT_FLAG` of the rank. -/
  abortFlag : Bool
  /-- All items enqueued so far, on any rank. -/
  enqueued : List α
  /-- All items dequeued so far, on any rank. -/
  dequeued : List α

/-- One library call of a callback. -/
def CallbackState.call (c : CallbackState α) : WorkOp α → CallbackState α
  | .enqueue x => { c with queue := c.queue ++ [x], enqueued := c.enqueued ++ [x] }
  | .dequeue =>
      { c with queue := c.queue.dropLast, dequeued := c.dequeued ++ c.queue.getLast?.toList }
  | .abort => { c with abortFlag := true }

/-- A callback, as the list of its library calls. -/
def CallbackState.run (c : CallbackState α) (ops : List (WorkOp α)) : CallbackState α :=
  ops.foldl CallbackState.call c

end Libcircle
