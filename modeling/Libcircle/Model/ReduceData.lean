import Mathlib.Data.Int.Init
import Libcircle.Model.Queue
import Libcircle.Model.Reduce

/-!
# The data of a reduction, in bytes

The messages of a reduction with the conversions of the source: the size is a
`size_t` in `CIRCLE_INPUT_ST`, an `int` in the sends and a `long long` in the
header, from which the receiver takes a `size_t` and an `int` again.

`CIRCLE_reduce` frees the buffer before it copies, so a call that is given that
buffer has no result.  With a size of 0 it leaves the size as it was.  A valid
partial result is cut to an `int`, and an invalid one announces data that it does
not send.  So a use of the data matches the last call exactly in the other cases
(`reduction_data_iff`).
-/

namespace Libcircle

/-- The conversion to `int`. -/
def intOf (x : Int) : Int := Int.bmod x (2 ^ 32)

/-- The conversion to `size_t`. -/
def sizeOf64 (x : Int) : Nat := (x % 2 ^ 64).toNat

/-- A message that carries a partial result. -/
inductive ReducePacket where
  /-- `reduce_buf`: `MSG_VALID` or not, the count, and the number of bytes of user data. -/
  | header (valid : Bool) (count bytes : Int)
  /-- User data. -/
  | data (buf : List UInt8)
deriving DecidableEq, Repr

/-- What the receiver has of the user data of a child: `inbuf`, with `none` for a null pointer,
and `insize`. -/
structure Incoming where
  inbuf : Option (List UInt8)
  insize : Nat
deriving DecidableEq, Repr

/-- The messages to the parent.  `CIRCLE_reduce_sync` does not test `valid`, which is `MSG_VALID`
there.  `MPI_Send` has no result if the buffer has fewer bytes than it is to send. -/
def ReduceInput.sendPartial (x : ReduceInput) (valid : Bool) (count : Int) :
    Option (List ReducePacket) :=
  let bytes := intOf x.size
  if 0 < bytes ∧ valid = true then
    match x.buf with
    | none => none
    | some buf =>
        if bytes ≤ buf.length then some [.header valid count bytes, .data (buf.take bytes.toNat)]
        else none
  else some [.header valid count bytes]

/-- The receiver reads the messages of a child: the data of a valid result, or `none`, and the
messages that are left.  `MPI_Recv` has no result if there is no data message, or a longer one. -/
def receivePartial : List ReducePacket → Option (Option Incoming × List ReducePacket)
  | .header false _ _ :: ms => some (none, ms)
  | .header true _ bytes :: ms =>
      if 0 < sizeOf64 bytes then
        match ms with
        | .data buf :: ms =>
            if buf.length ≤ intOf bytes then some (some ⟨some buf, sizeOf64 bytes⟩, ms) else none
        | _ => none
      else some (some ⟨none, 0⟩, ms)
  | _ => none

/-! ## The uses of the data -/

/-- What `CIRCLE_reduce` is called with. -/
inductive ReduceArg where
  /-- Memory of the caller, and its size. -/
  | bytes (buf : List UInt8)
  /-- A pointer into `reduce_buf`, which a callback is called with, and a size. -/
  | current (size : Nat)
deriving DecidableEq, Repr

/-- `CIRCLE_reduce`.  It has no result where it copies from the block it has freed. -/
def ReduceInput.call (x : ReduceInput) : ReduceArg → Option ReduceInput
  | .bytes buf => some (x.reduce buf)
  | .current 0 => some (x.reduce [])
  | .current (_ + 1) => none

/-- The data after the calls of `CIRCLE_reduce` since `CIRCLE_init`. -/
def reduceInput (calls : List ReduceArg) : Option ReduceInput := calls.foldlM ReduceInput.call {}

/-- The bytes a call provides, where `CIRCLE_reduce` has a result. -/
def ReduceArg.buf : ReduceArg → List UInt8
  | .bytes buf => buf
  | .current _ => []

/-- The buffer most recently provided. -/
def provided (calls : List ReduceArg) : List UInt8 := (calls.getLast?.map ReduceArg.buf).getD []

/-- The pointer to a buffer: null if it is empty. -/
def pointer (buf : List UInt8) : Option (List UInt8) := if buf = [] then none else some buf

/-- What a rank does with the data. -/
inductive ReduceUse where
  /-- Call `reduce_op` or `reduce_fini`. -/
  | callback
  /-- Send a partial result, valid or not, to the parent. -/
  | send (valid : Bool) (count : Int)

/-- A header that announces the bytes of `buf`, and a message with these bytes, if there are
any. -/
def announced (valid : Bool) (count : Int) (buf : List UInt8) : List ReducePacket :=
  .header valid count buf.length :: if buf = [] then [] else [.data buf]

/-- The size and the pointer are those of `buf`.  The messages are a header with this size and the
bytes it announces, and the receiver of a valid result has these bytes. -/
def ReduceUse.Matches (x : ReduceInput) (buf : List UInt8) : ReduceUse → Prop
  | .callback => x.size = buf.length ∧ x.buf = pointer buf
  | .send valid count =>
      (x.size = buf.length ∧ x.buf = pointer buf) ∧
        x.sendPartial valid count = some (announced valid count buf) ∧
        ∀ ms, receivePartial (announced valid count buf ++ ms) =
          some (if valid then some ⟨pointer buf, buf.length⟩ else none, ms)

/-- No data are copied from the block that `CIRCLE_reduce` frees. -/
def FromCaller (calls : List ReduceArg) : Prop := ∀ n, .current (n + 1) ∉ calls

/-- The last call had data, or none had. -/
def UpToDate (calls : List ReduceArg) : Prop :=
  provided calls ≠ [] ∨ ∀ call ∈ calls, call.buf = []

/-- The size of a valid result that is sent fits in an `int`, and an invalid one has no data. -/
def ReduceUse.Fits (buf : List UInt8) : ReduceUse → Prop
  | .callback => True
  | .send true _ => buf.length ≤ int32Max
  | .send false _ => buf = []

section

variable {calls : List ReduceArg} {call : ReduceArg} {buf : List UInt8} {x y : ReduceInput}
  {n : Nat}

theorem intOf_natCast (h : n ≤ int32Max) : intOf n = n := by
  have hmax : int32Max = 2 ^ 31 - 1 := rfl
  rw [intOf]
  exact Int.bmod_eq_of_le (by omega) (by omega)

theorem intOf_ne (h : int32Max < n) : intOf n ≠ n := by
  have hmax : int32Max = 2 ^ 31 - 1 := rfl
  have hlt : Int.bmod n (2 ^ 32) < (2 ^ 32 + 1) / 2 := Int.bmod_lt (by decide)
  rw [intOf]
  omega

theorem sizeOf64_natCast (h : n ≤ int32Max) : sizeOf64 n = n := by
  have hmax : int32Max = 2 ^ 31 - 1 := rfl
  rw [sizeOf64]
  omega

/-- A call with a result stores the bytes it provides. -/
theorem ReduceInput.call_eq (x : ReduceInput) (hne : ∀ n, call ≠ .current (n + 1)) :
    x.call call = some (x.reduce call.buf) := by
  match call with
  | .bytes buf => rfl
  | .current 0 => rfl
  | .current (n + 1) => exact absurd rfl (hne n)

theorem reduceInput_concat (calls : List ReduceArg) (call : ReduceArg) :
    reduceInput (calls ++ [call]) = (reduceInput calls).bind (·.call call) := by
  rw [reduceInput, List.foldlM_append]
  simp only [reduceInput, List.foldlM_cons, List.foldlM_nil, bind_pure]
  rfl

theorem provided_concat (calls : List ReduceArg) (call : ReduceArg) :
    provided (calls ++ [call]) = call.buf := by
  rw [provided, List.getLast?_concat, Option.map_some, Option.getD_some]

theorem fromCaller_concat : FromCaller (calls ++ [call]) ↔
    FromCaller calls ∧ ∀ n, call ≠ .current (n + 1) := by
  simp only [FromCaller, List.mem_append, List.mem_singleton, not_or, forall_and]
  exact and_congr_right fun _ => forall_congr' fun n => not_congr eq_comm

/-- Calls with data from the caller store the data one after the other. -/
theorem reduceInput_eq (h : FromCaller calls) :
    reduceInput calls = some ((calls.map ReduceArg.buf).foldl ReduceInput.reduce {}) := by
  induction calls using List.reverseRecOn with
  | nil => rfl
  | append_singleton calls call ih =>
      obtain ⟨hcalls, hcall⟩ := fromCaller_concat.mp h
      rw [reduceInput_concat, ih hcalls, Option.bind_some, ReduceInput.call_eq _ hcall,
        List.map_append, List.foldl_append]
      rfl

/-- A call that is given the freed block has no result. -/
theorem fromCaller_of_some (h : reduceInput calls = some x) : FromCaller calls := by
  induction calls using List.reverseRecOn generalizing x with
  | nil => exact fun n hn => by cases hn
  | append_singleton calls call ih =>
      rw [reduceInput_concat] at h
      obtain ⟨y, hy, hcall⟩ := Option.bind_eq_some_iff.mp h
      refine fromCaller_concat.mpr ⟨ih hy, ?_⟩
      rintro n rfl
      cases hcall

/-- The size is not 0 once a call had data. -/
theorem size_reduceInput (h : reduceInput calls = some x) :
    x.size = 0 ↔ ∀ call ∈ calls, call.buf = [] := by
  induction calls using List.reverseRecOn generalizing x with
  | nil =>
      obtain rfl := Option.some.inj h
      exact iff_of_true rfl (by simp)
  | append_singleton calls call ih =>
      obtain ⟨_, hcall⟩ := fromCaller_concat.mp (fromCaller_of_some h)
      rw [reduceInput_concat] at h
      obtain ⟨y, hy, hx⟩ := Option.bind_eq_some_iff.mp h
      obtain rfl := Option.some.inj ((y.call_eq hcall).symm.trans hx)
      rw [List.forall_mem_append, List.forall_mem_singleton, ← ih hy]
      cases call.buf with
      | nil => exact (and_iff_left rfl).symm
      | cons b buf => simp [ReduceInput.reduce]

/-- The pointer is that of the last buffer. -/
theorem buf_reduceInput (h : reduceInput calls = some x) : x.buf = pointer (provided calls) := by
  rcases List.eq_nil_or_concat calls with rfl | ⟨calls, call, rfl⟩
  · obtain rfl := Option.some.inj h
    rfl
  · rw [List.concat_eq_append] at h ⊢
    obtain ⟨_, hcall⟩ := fromCaller_concat.mp (fromCaller_of_some h)
    rw [reduceInput_concat] at h
    obtain ⟨y, _, hx⟩ := Option.bind_eq_some_iff.mp h
    obtain rfl := Option.some.inj ((y.call_eq hcall).symm.trans hx)
    rw [provided_concat]
    cases call.buf <;> rfl

theorem reduceInput_matches (h : reduceInput calls = some x) :
    (x.size = (provided calls).length ∧ x.buf = pointer (provided calls)) ↔ UpToDate calls := by
  rw [and_iff_left (buf_reduceInput h)]
  rcases List.eq_nil_or_concat calls with rfl | ⟨calls, call, rfl⟩
  · obtain rfl := Option.some.inj h
    exact iff_of_true rfl (.inr (by simp))
  · rw [List.concat_eq_append] at h ⊢
    obtain ⟨_, hcall⟩ := fromCaller_concat.mp (fromCaller_of_some h)
    have hsize := size_reduceInput h
    rw [reduceInput_concat] at h
    obtain ⟨y, _, hx⟩ := Option.bind_eq_some_iff.mp h
    obtain rfl := Option.some.inj ((y.call_eq hcall).symm.trans hx)
    rw [UpToDate, provided_concat, ← hsize]
    cases call.buf with
    | nil => simp
    | cons b buf => simp [ReduceInput.reduce]

theorem head_sendPartial {valid : Bool} {count : Int} {ms : List ReducePacket}
    (h : x.sendPartial valid count = some ms) :
    ms.head? = some (.header valid count (intOf x.size)) := by
  simp only [ReduceInput.sendPartial] at h
  split at h
  next =>
    split at h
    next => cases h
    next =>
      split at h
      next => exact (Option.some.inj h) ▸ rfl
      next => cases h
  next => exact (Option.some.inj h) ▸ rfl

/-- A valid result announces the size of its data exactly if the size fits in an `int`. -/
theorem sendPartial_iff (count : Int) (hsize : x.size = buf.length) (hbuf : x.buf = pointer buf) :
    x.sendPartial true count = some (announced true count buf) ↔ buf.length ≤ int32Max := by
  constructor
  · intro hsend
    by_contra hlong
    have hhead := head_sendPartial hsend
    rw [announced, hsize, List.head?_cons, Option.some.injEq, ReducePacket.header.injEq] at hhead
    exact intOf_ne (Nat.lt_of_not_le hlong) hhead.2.2.symm
  · intro hle
    rw [ReduceInput.sendPartial, hsize, intOf_natCast hle, hbuf, announced]
    cases buf with
    | nil => rfl
    | cons b buf =>
        have hpos : (0 : Int) < ((b :: buf).length : Nat) := Int.natCast_pos.mpr (Nat.succ_pos _)
        simp only [hpos, and_true, if_true, pointer, reduceCtorEq, if_false, Int.le_refl,
          Int.toNat_natCast, List.take_length]

theorem sendPartial_false (x : ReduceInput) (count : Int) :
    x.sendPartial false count = some [.header false count (intOf x.size)] := by
  simp only [ReduceInput.sendPartial, Bool.false_eq_true, and_false, if_false]

/-- An invalid result announces the size of its data exactly if there are none. -/
theorem sendPartial_false_iff (count : Int) (hsize : x.size = buf.length) :
    x.sendPartial false count = some (announced false count buf) ↔ buf = [] := by
  rw [sendPartial_false, hsize]
  cases buf with
  | nil => exact iff_of_true rfl rfl
  | cons b buf => simp [announced]

theorem receivePartial_eq (count : Int) (hle : buf.length ≤ int32Max) (ms : List ReducePacket) :
    receivePartial (announced true count buf ++ ms) =
      some (some ⟨pointer buf, buf.length⟩, ms) := by
  cases buf with
  | nil => rfl
  | cons b buf =>
      have hpos : 0 < (b :: buf).length := Nat.succ_pos _
      simp only [announced, receivePartial, sizeOf64_natCast hle, intOf_natCast hle, reduceCtorEq,
        if_false, List.cons_append, hpos, if_true, List.nil_append, Int.le_refl, pointer]

end

/-- What a rank calls a callback with, or sends, is the buffer most recently provided exactly if
no call was given the buffer that it frees, the last buffer is not empty or none before was, and,
if it is sent, its size fits in an `int` and it is empty where the result is invalid. -/
theorem reduction_data_iff (calls : List ReduceArg) (use : ReduceUse) :
    (∃ x, reduceInput calls = some x ∧ use.Matches x (provided calls)) ↔
      FromCaller calls ∧ UpToDate calls ∧ use.Fits (provided calls) := by
  suffices hsome : ∀ x, reduceInput calls = some x →
      (use.Matches x (provided calls) ↔ UpToDate calls ∧ use.Fits (provided calls)) by
    constructor
    · rintro ⟨x, hx, hmatches⟩
      exact ⟨fromCaller_of_some hx, (hsome x hx).mp hmatches⟩
    · rintro ⟨hcaller, hrest⟩
      exact ⟨_, reduceInput_eq hcaller, (hsome _ (reduceInput_eq hcaller)).mpr hrest⟩
  intro x hx
  rw [← reduceInput_matches hx]
  cases use with
  | callback => exact (and_iff_left trivial).symm
  | send valid count =>
      refine and_congr_right fun hmatches => ?_
      cases valid with
      | true =>
          rw [sendPartial_iff count hmatches.1 hmatches.2]
          exact and_iff_left_of_imp fun hle ms => receivePartial_eq count hle ms
      | false =>
          rw [sendPartial_false_iff count hmatches.1]
          refine and_iff_left_of_imp fun hnil ms => ?_
          rw [hnil]
          rfl

/-- A buffer of one byte, and then none. -/
theorem reduction_data_fails :
    ¬∃ x, reduceInput [.bytes [1], .bytes []] = some x ∧
      ReduceUse.callback.Matches x (provided [.bytes [1], .bytes []]) := by
  rintro ⟨x, hx, hsize, _⟩
  obtain rfl := Option.some.inj hx
  revert hsize
  decide

end Libcircle
