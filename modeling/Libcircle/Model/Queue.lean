import Mathlib.Data.UInt
import Libcircle.Lib.StringPool

/-!
# The queue of a rank, in bytes

`queue.c`: the strings of a queue lie in one block of bytes, their offsets in a
second block.  Both blocks grow by `realloc`.  An access outside a block, an
access through a null pointer and an `int32_t` that overflows have no result:
every function here returns `none` for them.  Sizes in bytes do not overflow.

The environment decides what `realloc` and the functions on files return.  A
function that returns a negative value returns `false`.
-/

namespace Libcircle

/-- A string of bytes: what `char*` points at. -/
abbrev Item := CStr UInt8

/-- `INT32_MAX`. -/
def int32Max : Nat := 2 ^ 31 - 1

/-- `CIRCLE_MAX_STRING_LEN`. -/
def maxStringLen : Nat := 4096

/-- `CIRCLE_INITIAL_INTERNAL_QUEUE_SIZE`. -/
def initialQueueSize : Nat := 4096

/-- `CIRCLE_internal_queue_t`. -/
structure Queue where
  /-- `base`, with `none` for a null pointer. -/
  base : Option (Block UInt8)
  /-- `bytes`. -/
  bytes : Nat
  /-- `head`. -/
  head : Nat
  /-- `strings`, with `none` for a null pointer. -/
  strings : Option (Block Nat)
  /-- `str_count`. -/
  strCount : Nat
  /-- `count`. -/
  count : Nat

/-- What the system decides in one call of a function that makes the queue grow. -/
structure GrowEnv where
  /-- `sysconf(_SC_PAGESIZE)`. -/
  pageSize : Nat := 4096
  pageSize_pos : 0 < pageSize := by decide
  /-- `realloc` of the string array succeeds. -/
  strings : Bool := true
  /-- `realloc` of the byte pool succeeds. -/
  base : Bool := true

/-- Every allocation succeeds. -/
def GrowEnv.ok : GrowEnv := {}

namespace Queue

/-- `CIRCLE_internal_queue_init`, with what the two fresh blocks hold. -/
def init (bytes : Nat → UInt8) (offsets : Nat → Nat) : Queue where
  base := some ⟨maxStringLen * initialQueueSize, bytes⟩
  bytes := maxStringLen * initialQueueSize
  head := 0
  strings := some ⟨initialQueueSize, offsets⟩
  strCount := initialQueueSize
  count := 0

variable (q : Queue)

/-! ## Growing -/

/-- `CIRCLE_internal_queue_str_extend`.  The values of `str_count` increase, so one of them
leaves the range of `int32_t` exactly if the last does. -/
def strExtend (ok : Bool) (newSize : Nat) : Option (Bool × Queue) :=
  let strCount := growTo 4096 newSize q.strCount
  let strings := realloc ok q.strings strCount
  if int32Max < strCount then none
  else some (strings.isSome, { q with strCount := strCount, strings := strings })

/-- `CIRCLE_internal_queue_extend`. -/
def extend (env : GrowEnv) (newSize : Nat) : Bool × Queue :=
  let current := growTo (env.pageSize * 4096) newSize q.bytes
  match realloc env.base q.base current with
  | none => (false, { q with base := none })
  | some base => (true, { q with base := some base, bytes := current })

/-! ## Push and pop -/

/-- The last part of `CIRCLE_internal_queue_push`: record the offset and copy the string. -/
def store (str : Item) (len : Nat) : Option Queue := do
  let strings ← (← q.strings).write q.count [q.head]
  let base ← (← q.base).write q.head str.toBuffer
  return { q with
    strings := some strings, base := some base, head := q.head + len, count := q.count + 1 }

/-- `CIRCLE_internal_queue_push`, with `none` for a null pointer. -/
def push (env : GrowEnv) : Option Item → Option (Bool × Queue)
  | none => some (false, q)
  | some str =>
      let realLen := str.length + 1
      let len := realLen % 2 ^ 32
      if len ≤ 0 then some (false, q)
      else if maxStringLen < len then some (false, q)
      else
        match if q.strCount < q.count + 1 then q.strExtend env.strings (q.count + 1)
          else some (true, q) with
        | none => none
        | some (false, q) => some (false, q)
        | some (true, q) =>
            let newBytes := q.head + len
            match if q.bytes < newBytes then q.extend env newBytes else (true, q) with
            | (false, q) => some (false, q)
            | (true, q) => (q.store str len).map fun q => (true, q)

/-- `CIRCLE_internal_queue_pop` with the string it copies, or `none` if it returns a negative
value. -/
def pop : Option (Option Item × Queue) :=
  if q.count < 1 then some (none, q)
  else do
    let current ← (← q.strings).read (q.count - 1)
    let str ← (← q.base).str current
    return (some str, { q with head := current, count := q.count - 1 })

end Queue

end Libcircle
