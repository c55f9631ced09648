import Libcircle.Model.Checkpoint
import Libcircle.Model.Transfer
import Libcircle.Model.Worker

/-!
# The items of all ranks, in bytes

`Sys` has the items of a queue, of a reply and of a checkpoint as lists.  A `Store`
has the same as the source has them: the two blocks of each queue, the offset array
of each rank, the messages of the transfers in flight, and the files.  `Store.next`
is what an event does to them.  It has no result where a function of the source has
none, or fails.

The position of a rank and the decisions it takes are those of `Sys`, so a step of
the store is a step at a state of `Sys`.
-/

namespace Libcircle

/-- The message of `CIRCLE_send_no_work`. -/
def noWorkMessage (abortFlag : Bool) : WorkMessage where
  offsets := [if abortFlag then payloadAbort else 0]
  buf := []

/-- The bytes of all ranks. -/
structure Store where
  /-- `CIRCLE_INPUT_ST.queue`. -/
  queue : Rank → Queue
  /-- `offsets_recv_buf` and `offsets_count`. -/
  offsets : Rank → OffsetsBuf
  /-- `CIRCLE_TAG_WORK_REPLY`. -/
  replies : Chan Rank WorkMessage
  /-- The files of the working directory, which all ranks share. -/
  files : Files
  /-- All strings dequeued so far. -/
  dequeued : List Item

namespace Store

variable (env : GrowEnv) (m : Store) (r : Rank)

/-- The store with the queue `q` on `r`. -/
def setQueue (q : Queue) : Store := { m with queue := Function.update m.queue r q }

/-! ## Callbacks -/

/-- One library call of a callback: `CIRCLE_enqueue`, `CIRCLE_dequeue` or `CIRCLE_abort`. -/
def call (m : Store) : WorkOp Item → Option Store
  | .enqueue x =>
      match (m.queue r).push env (some x) with
      | some (true, q) => some (m.setQueue r q)
      | _ => none
  | .dequeue =>
      match (m.queue r).pop with
      | some (str, q) => some { m.setQueue r q with dequeued := m.dequeued ++ str.toList }
      | none => none
  | .abort => some m

/-- A callback, as the list of its library calls. -/
def callback (ops : List (WorkOp Item)) : Option Store := ops.foldlM (call env r) m

/-! ## Transfers -/

/-- `CIRCLE_send_no_work`. -/
def sendNoWork (abortFlag : Bool) (dest : Rank) : Store :=
  { m with replies := m.replies.push r dest (noWorkMessage abortFlag) }

/-- `CIRCLE_send_work`. -/
def sendWork (abortFlag : Bool) (dest : Rank) (count : Nat) : Option Store :=
  match (m.queue r).sendWork count with
  | some (.work msg, q) =>
      some { m.setQueue r q with replies := m.replies.push r dest msg }
  | some (.noWork, _) => some (m.sendNoWork r abortFlag dest)
  | _ => none

/-- `CIRCLE_work_receive` on the oldest message of `source`, with what it finds. -/
def receive (source : Rank) : Option (Received × Store) :=
  match m.replies source r with
  | [] => none
  | msg :: _ =>
      match (m.queue r).workReceive env true (m.offsets r) msg with
      | none => none
      | some (found, o, q) =>
          some (found, { m.setQueue r q with
            offsets := Function.update m.offsets r o
            replies := m.replies.pop source r })

/-! ## The beginning and the end of an invocation -/

/-- `CIRCLE_init_local_state` allocates the offset array. -/
def init : Store :=
  let count := (m.queue r).strCount
  { m with offsets := Function.update m.offsets r ⟨some ⟨count, fun _ => 0⟩, count⟩ }

/-- `CIRCLE_checkpoint`. -/
def checkpoint : Option Store :=
  match (m.queue r).write {} m.files r with
  | some (true, files, q) => some { m.setQueue r q with files := files }
  | _ => none

/-- `CIRCLE_finalize_local_state` frees the offset array. -/
def finalize : Store :=
  { m with offsets := Function.update m.offsets r { m.offsets r with buf := none } }

/-! ## Steps -/

/-- The number of items planned for the next requestor. -/
def planned (s : Sys Item) : Nat := (s.work.sizes r).headD 0

/-- The store after an event of `s`. -/
def next (s : Sys Item) : Event Item → Option Store
  | .begin r _ ops => (m.init r).callback env r ops
  | .sendWork r _ => m.sendWork r (s.abortFlag r) ((s.work.requestors r).headD 0) (planned r s)
  | .sendNoWork r => some (m.sendNoWork r (s.abortFlag r) ((s.work.requestors r).headD 0))
  | .requestReply r _ =>
      match m.receive env r (s.work.request r).workRequestedRank with
      | none | some (.failed, _) => none
      | some (_, m) => some m
  | .process r ops => m.callback env r ops
  | .finish r =>
      if s.abortFlag r then (m.checkpoint r).map fun m => m.finalize r
      else some (m.finalize r)
  | _ => some m

end Store

end Libcircle
