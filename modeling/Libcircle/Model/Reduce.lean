import Libcircle.Model.Tree

/-!
# Reductions

`CIRCLE_reduce`, `CIRCLE_reduce_check` and `CIRCLE_reduce_sync`.  The background
and the final reduction share the tag `CIRCLE_TAG_REDUCE`.  A header and a data
message carry the function that posted them as a history variable, so that a
property can speak of the messages of one of the two.

The reduction callbacks are the lists of the library calls they make.
-/

namespace Libcircle

/-- The function that posts a message of a reduction. -/
inductive ReduceOrigin where
  /-- `CIRCLE_reduce_check`. -/
  | check
  /-- `CIRCLE_reduce_sync`. -/
  | sync
deriving DecidableEq, Repr

/-- A message with tag `CIRCLE_TAG_REDUCE`. -/
inductive ReduceMsg where
  /-- The empty message that starts a background reduction on a child. -/
  | start
  /-- `reduce_buf`: `MSG_VALID` or not, the count, and the number of bytes of user data. -/
  | header (origin : ReduceOrigin) (valid : Bool) (count bytes : Nat)
  /-- User data. -/
  | data (origin : ReduceOrigin) (buf : List UInt8)
deriving DecidableEq, Repr

/-- The message belongs to a background reduction. -/
def ReduceMsg.isBackground : ReduceMsg → Bool
  | .start => true
  | .header o _ _ _ => o = .check
  | .data o _ => o = .check

/-- The fields of `CIRCLE_INPUT_ST` for the data of a reduction. -/
structure ReduceInput where
  /-- `reduce_buf`, with `none` for `NULL`. -/
  buf : Option (List UInt8) := none
  /-- `reduce_buf_size`. -/
  size : Nat := 0
deriving DecidableEq, Repr

/-- `CIRCLE_reduce` with bytes that are not those of `reduce_buf` itself, which it frees before it
copies. -/
def ReduceInput.reduce (x : ReduceInput) (buf : List UInt8) : ReduceInput :=
  if 0 < buf.length then { buf := some buf, size := buf.length } else { x with buf := none }

/-- A library call of a reduction callback. -/
inductive ReduceCall where
  /-- `CIRCLE_reduce`, with memory of the caller. -/
  | reduce (buf : List UInt8)
  /-- `CIRCLE_abort`. -/
  | abort
deriving DecidableEq, Repr

/-- The calls of a reduction callback, on the reduction data. -/
def ReduceInput.run (x : ReduceInput) : List ReduceCall → ReduceInput
  | [] => x
  | .reduce b :: cs => (x.reduce b).run cs
  | .abort :: cs => x.run cs

/-- The fields of a rank for reductions. -/
structure Reduce where
  /-- `reduce_outstanding`. -/
  outstanding : Bool := false
  /-- `reduce_replies`. -/
  replies : Nat := 0
  /-- `reduce_buf[0]` is `MSG_VALID`. -/
  valid : Bool := false
  /-- `reduce_buf[1]`. -/
  total : Nat := 0
  /-- `reduce_buf[2]`. -/
  bytes : Nat := 0
deriving DecidableEq, Repr

/-- The reduction state of all ranks and the tag `CIRCLE_TAG_REDUCE`. -/
structure ReduceNet where
  /-- The state of a rank. -/
  st : Rank → Reduce
  /-- The reduction data of a rank. -/
  input : Rank → ReduceInput
  /-- `CIRCLE_TAG_REDUCE`. -/
  net : Chan Rank ReduceMsg

namespace ReduceNet

variable (x : ReduceNet) (t : TreeState) (r : Rank)

/-- Replace the state of `r`. -/
def set (y : Reduce) : ReduceNet := { x with st := Function.update x.st r y }

/-- The reduction fields in `CIRCLE_init_local_state`. -/
def init : ReduceNet := x.set r { x.st r with outstanding := false }

/-- The calls of a callback on `r`. -/
def callback (calls : List ReduceCall) : ReduceNet :=
  { x with input := Function.update x.input r ((x.input r).run calls) }

/-! ## Messages of a child -/

/-- The next messages from a child are a header and, if it announces data, the data. -/
def ReplyReady : List ReduceMsg → Bool
  | .header _ valid _ bytes :: ms =>
      !valid || bytes = 0 ||
        match ms with
        | .data _ _ :: _ => true
        | _ => false
  | _ => false

/-- `CIRCLE_reduce_check` receives the reply of `child`. -/
def recvReply (child : Rank) : ReduceNet :=
  let y := x.st r
  match x.net child r with
  | .header _ true count bytes :: _ =>
      let net := x.net.pop child r
      { x with
        st := Function.update x.st r
          { y with replies := y.replies + 1, total := y.total + count }
        net := if bytes = 0 then net else net.pop child r }
  | _ =>
      { x with
        st := Function.update x.st r { y with replies := y.replies + 1, valid := false }
        net := x.net.pop child r }

/-- `reduce_op_cb` is called for the reply at the head of the channel. -/
def CallsOp : List ReduceMsg → Bool
  | .header _ valid _ _ :: _ => valid
  | _ => false

/-! ## The end of a background reduction -/

/-- Send the partial result to the parent `p`. -/
def sendResult (origin : ReduceOrigin) (p : Rank) : ReduceNet :=
  let bytes := (x.input r).size
  let y := { x.st r with bytes := bytes }
  let net := x.net.push r p (.header origin y.valid y.total bytes)
  { x with
    st := Function.update x.st r y
    net :=
      if 0 < bytes ∧ y.valid = true then net.push r p (.data origin ((x.input r).buf.getD []))
      else net }

/-- All children have replied: add the own count, pass the result on, clear the flag. -/
def finish (count : Nat) : ReduceNet :=
  if (x.st r).replies = t.children then
    let y := x.set r { x.st r with total := (x.st r).total + count }
    let y :=
      match t.parentRank with
      | some p => y.sendResult r .check p
      | none => y
    y.set r { y.st r with outstanding := false }
  else x

/-! ## The start of a background reduction -/

/-- A new reduction is to be started: it is time or cleanup, and the rank is the root or
has a message of its parent (`hit`). -/
def Starts (cleanup due hit : Bool) : Bool :=
  (due || cleanup) && (t.parentRank.isNone || hit)

/-- `CIRCLE_reduce_check` with no reduction outstanding. -/
def begin (cleanup due hit : Bool) : ReduceNet :=
  if Starts t cleanup due hit then
    let net :=
      match t.parentRank with
      | some p => x.net.pop p r
      | none => x.net
    if cleanup then
      match t.parentRank with
      | some p =>
          { x with
            st := Function.update x.st r { x.st r with valid := false }
            net := net.push r p (.header .check false (x.st r).total (x.st r).bytes) }
      | none => x
    else
      { x with
        st := Function.update x.st r
          { outstanding := true, replies := 0, valid := true, total := 0, bytes := 0 }
        net := net.bcast r t.childRanks .start }
  else x

/-! ## The final reduction -/

/-- `CIRCLE_reduce_sync` initializes its state. -/
def syncBegin (count : Nat) : ReduceNet :=
  x.set r { x.st r with valid := true, total := count, bytes := 0 }

/-- The next messages from a child are a header and, if it announces data, the data. -/
def SyncReady : List ReduceMsg → Bool
  | .header _ _ _ bytes :: ms =>
      bytes = 0 ||
        match ms with
        | .data _ _ :: _ => true
        | _ => false
  | _ => false

/-- `CIRCLE_reduce_sync` receives the result of `child`. -/
def recvSync (child : Rank) : ReduceNet :=
  match x.net child r with
  | .header _ _ count bytes :: _ =>
      let net := x.net.pop child r
      { x with
        st := Function.update x.st r { x.st r with total := (x.st r).total + count }
        net := if bytes = 0 then net else net.pop child r }
  | _ => x

/-- `CIRCLE_reduce_sync` passes its result on. -/
def syncFinish : ReduceNet :=
  match t.parentRank with
  | some p => x.sendResult r .sync p
  | none => x

end ReduceNet

end Libcircle
