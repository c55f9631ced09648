import Libcircle.Model.Sends
import Libcircle.Model.Worker

/-!
# The outstanding sends of a rank, as arrays

`WorkNet` has the outstanding sends of a rank as a list.  An `Outbox` has the same
sends as the source has them, in the two arrays of `SendTable`, and what MPI and the
allocator have seen of the rank so far.  `Outbox.next` is what an event does to them.
It has no result where a function of the source has none.

Memory is not exhausted here.  Each buffer has the number of the send it is allocated
for, so no two have the same.  The request for work is that of `WorkNet`.
-/

namespace Libcircle

/-- An `MPI_Request` of a send, with the number of sends the rank posted before. -/
structure SendHandle where
  number : Nat
  send : SendReq
deriving DecidableEq, Repr

namespace SendTable

variable {ρ β : Type} (t : SendTable ρ β)

/-- `CIRCLE_worksend_free`. -/
def worksendFree : SendTable ρ β :=
  { t with sendCount := 0, sendCapacity := 0, sendReqs := none, sendBufs := none }

/-- The requests in the first `send_count` entries. -/
def requests : List ρ :=
  ((t.sendReqs.bind fun reqs => reqs.slice 0 t.sendCount).getD []).filterMap id

end SendTable

/-- The outstanding sends of a rank. -/
structure Outbox where
  /-- The fields for outstanding sends. -/
  table : SendTable SendHandle Nat
  /-- The number of sends posted so far. -/
  posted : Nat
  /-- What MPI and the allocator have seen so far. -/
  log : List (LoanEvent SendHandle Nat)

namespace Outbox

variable {α : Type*} (o : Outbox)

/-- Before the first call of `CIRCLE_begin`. -/
def start : Outbox := ⟨.init none, 0, []⟩

/-- The receivers and tags of the sends in the arrays. -/
def sends : List SendReq := o.table.requests.map (·.send)

/-- `MPI_Isend`, and `CIRCLE_worksend_track`; `owned` says whether the send has a buffer. -/
def isend (send : SendReq) (owned : Bool) : Option Outbox :=
  let req := ⟨o.posted, send⟩
  let buf := if owned then some o.posted else none
  (o.table.worksendTrack true true req buf).map fun t => ⟨t, o.posted + 1, o.log ++ [.post req buf]⟩

/-- `CIRCLE_send_no_work`. -/
def sendNoWork (dest : Rank) : Option Outbox := o.isend ⟨dest, .workReply⟩ true

/-- `CIRCLE_send_work` with the count `count` left after the size back-off. -/
def sendWork (dest : Rank) (count : Nat) : Option Outbox :=
  if count = 0 then o.sendNoWork dest
  else do
    let o ← o.isend ⟨dest, .workReply⟩ true
    o.isend ⟨dest, .workReply⟩ true

/-- `CIRCLE_work_receive` sends a receipt, which has no buffer. -/
def workReceive (source : Rank) : Reply α → Option Outbox
  | .items _ _ => o.isend ⟨source, .workReceipt⟩ false
  | _ => some o

/-- The arrays and the log after a function on the arrays. -/
def after (y : SendTable SendHandle Nat × List (LoanEvent SendHandle Nat)) : Outbox :=
  ⟨y.1, o.posted, o.log ++ y.2⟩

/-- `CIRCLE_worksend_check`. -/
def worksendCheck (flag : Nat → Bool) : Option Outbox := (o.table.worksendCheck flag).map o.after

/-- `CIRCLE_worksend_wait`. -/
def worksendWait : Option Outbox := o.table.worksendWait.map o.after

/-- The part of `CIRCLE_init_local_state` on the arrays. -/
def init : Outbox := { o with table := .init none }

/-- `CIRCLE_finalize_local_state` frees the arrays. -/
def finalize : Outbox := { o with table := o.table.worksendFree }

end Outbox

/-! ## Steps -/

variable {α : Type*}

/-- The sends that an event posts. -/
def Sys.posts (s : Sys α) : Event α → List SendReq
  | .sendWork r count =>
      List.replicate (if count = 0 then 1 else 2) ⟨(s.work.requestors r).headD 0, .workReply⟩
  | .sendNoWork r => [⟨(s.work.requestors r).headD 0, .workReply⟩]
  | .requestReply r _ =>
      List.replicate (s.reply r).transfers
        ⟨(s.work.request r).workRequestedRank, .workReceipt⟩
  | _ => []

/-- The arrays of the rank after its event at `s`. -/
def Outbox.next (o : Outbox) (s : Sys α) : Event α → Option Outbox
  | .begin .. => some o.init
  | .sendWork r count => o.sendWork ((s.work.requestors r).headD 0) count
  | .sendNoWork r => o.sendNoWork ((s.work.requestors r).headD 0)
  | .requestReply r _ => o.workReceive (s.work.request r).workRequestedRank (s.reply r)
  | .worksendWait _ => o.worksendWait
  | .finish _ => some o.finalize
  | _ => some o

end Libcircle
