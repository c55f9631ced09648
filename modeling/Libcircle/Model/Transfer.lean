import Libcircle.Model.Queue

/-!
# Work transfers, in bytes

The functions of `token.c` that send a part of a queue to another rank and
receive it there.  A transfer is two messages.  The first has the number of
items, the number of bytes and the offset of each item, the second the bytes.

Termination detection, the list of pending sends and the receipt are in
`Libcircle.Model.Work`, where a transfer is a list of items.
-/

namespace Libcircle

/-- `PAYLOAD_ABORT`. -/
def payloadAbort : Int := -32

/-- The two messages of a transfer. -/
structure WorkMessage where
  /-- The item count, the number of bytes, and the offsets. -/
  offsets : List Int
  /-- The bytes. -/
  buf : List UInt8
deriving DecidableEq, Repr

/-! ## Sending -/

/-- What `CIRCLE_send_work` sends. -/
inductive Sent where
  /-- `CIRCLE_send_no_work`. -/
  | noWork
  /-- The error branch for a transfer that is too large. -/
  | tooLarge
  /-- Items. -/
  | work (m : WorkMessage)
deriving DecidableEq

/-- The count tried after `count` in the back-off loop of `CIRCLE_send_work`. -/
def backOffStep (count : Nat) : Nat :=
  let next := count - count / 10
  if count ≤ next then count - 1 else next

/-- The back-off loop of `CIRCLE_send_work`, where `len count` is the number of bytes of
`count` items. -/
def backOff (len : Nat → Nat) : Nat → Nat → Nat
  | 0, count => count
  | n + 1, count =>
      if int32Max < len count ∧ 1 < count then backOff len n (backOffStep count) else count

namespace Queue

variable (q : Queue)

/-- `CIRCLE_send_work`. -/
def sendWork (count : Nat) : Option (Sent × Queue) :=
  if count ≤ 0 then some (.noWork, q)
  else if q.count < count then none
  else do
    let base ← q.base
    let strings ← q.strings
    let endOffset ← strings.read (q.count - 1)
    let last ← base.str endOffset
    let len := fun count => endOffset - strings.cell (q.count - count) + (last.length + 1)
    let count := backOff len count count
    let startOffset := strings.cell (q.count - count)
    if int32Max < len count then some (.tooLarge, q)
    else do
      let offsets := (List.range count).map fun i =>
        ((strings.cell (q.count - count + i) - startOffset : Nat) : Int)
      let buf ← base.slice startOffset (len count)
      some (.work ⟨(count : Int) :: (len count : Int) :: offsets, buf⟩,
        { q with count := q.count - count })

end Queue

/-! ## Receiving -/

/-- `offsets_recv_buf` and `offsets_count`. -/
structure OffsetsBuf where
  /-- `offsets_recv_buf`, with `none` for a null pointer. -/
  buf : Option (Block Int)
  /-- `offsets_count`. -/
  count : Nat

/-- `CIRCLE_extend_offsets`.  As in `Queue.strExtend`, the values of `count` increase. -/
def OffsetsBuf.extend (o : OffsetsBuf) (ok : Bool) (size : Nat) : Option (Bool × OffsetsBuf) :=
  if size ≤ o.count then some (true, o)
  else
    let count := growTo 4096 size o.count
    let buf := realloc ok o.buf count
    if int32Max < count then none else some (buf.isSome, ⟨buf, count⟩)

/-- The conversion of an `int` to `uintptr_t`. -/
def uintptr (i : Int) : Nat := (i % 2 ^ 64).toNat

/-- What `CIRCLE_work_receive` finds. -/
inductive Received where
  /-- No items. -/
  | noWork
  /-- The payload `PAYLOAD_ABORT`. -/
  | abort
  /-- A negative return value, or `MPI_Abort`. -/
  | failed
  /-- Items. -/
  | work
deriving DecidableEq, Repr

namespace Queue

variable (q : Queue)

/-- The part of `CIRCLE_work_receive` on the queue, once the first message is in `recv` and has
`items` items; `data` is the second message.  `MPI_Recv` has no result if the message is longer
than its buffer. -/
def receiveItems (env : GrowEnv) (recv : Block Int) (items : Nat) (data : List UInt8) :
    Option (Bool × Queue) := do
  let chars ← recv.read 1
  let newBytes := q.head + uintptr chars
  match if q.bytes < newBytes then q.extend env newBytes else (true, q) with
  | (false, q) => some (false, q)
  | (true, q) =>
      if chars < data.length then none
      else do
        let base ← (← q.base).write 0 data
        let q := { q with base := some base }
        match if q.strCount < items then q.strExtend env.strings items else some (true, q) with
        | none => none
        | some (false, q) => some (false, q)
        | some (true, q) => do
            let offsets ← recv.slice 2 items
            let strings ← (← q.strings).write 0 (offsets.map uintptr)
            let q := { q with strings := some strings }
            if strings.cell 0 ≠ 0 then some (false, q)
            else do
              let elemOffset ← strings.read (items - 1)
              let elemStr ← base.str elemOffset
              some (true, { q with count := items, head := elemOffset + (elemStr.length + 1) })

/-- `CIRCLE_work_receive`; `ok` says whether `realloc` of the offset array succeeds. -/
def workReceive (env : GrowEnv) (ok : Bool) (o : OffsetsBuf) (m : WorkMessage) :
    Option (Received × OffsetsBuf × Queue) :=
  if m.offsets.length ≤ 0 then some (.failed, o, q)
  else
    match o.extend ok m.offsets.length with
    | none => none
    | some (false, o) => some (.failed, o, q)
    | some (true, o) => do
        let recv ← (← o.buf).write 0 m.offsets
        let o := { o with buf := some recv }
        let items ← recv.read 0
        if items = 0 then some (.noWork, o, q)
        else if items = payloadAbort then some (.abort, o, q)
        else if items < 0 then some (.failed, o, q)
        else
          match q.receiveItems env recv items.toNat m.buf with
          | none => none
          | some (false, q) => some (.failed, o, q)
          | some (true, q) => some (.work, o, q)

end Queue

end Libcircle
