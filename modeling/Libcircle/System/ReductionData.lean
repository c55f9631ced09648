import Libcircle.Model.ReduceData
import Libcircle.System.Local

/-!
# The reduction data of a run

The reduction data of a rank are those after the calls of `CIRCLE_reduce` that its
callbacks have made so far (`input_of_run`), and the messages of a reduction are
those of the source where the data match the last call and fit (`sendResult_packets`).
-/

namespace Libcircle

variable {α : Type*} {job : Job} {s t : Sys α} {r : Rank}

/-- The buffer that a call provides. -/
def ReduceCall.buf? : ReduceCall → Option (List UInt8)
  | .reduce buf => some buf
  | .abort => none

/-- The calls that the reduction callbacks of `r` make in an event. -/
def Event.reduceCalls (r : Rank) (e : Event α) : List ReduceCall :=
  if e.rank = r then
    match e with
    | .reduceBegin _ _ _ calls | .reduceReply _ _ calls | .reduceDone _ calls => calls
    | .reduceSync _ calls | .reduceSyncReply _ calls | .reduceSyncDone _ calls => calls
    | _ => []
  else []

theorem ReduceInput.run_eq (x : ReduceInput) (calls : List ReduceCall) :
    x.run calls = (calls.filterMap ReduceCall.buf?).foldl ReduceInput.reduce x := by
  induction calls generalizing x with
  | nil => rfl
  | cons call calls ih =>
      cases call with
      | reduce buf => exact ih (x.reduce buf)
      | abort => exact ih x

theorem ReduceInput.run_append (x : ReduceInput) (calls calls' : List ReduceCall) :
    x.run (calls ++ calls') = (x.run calls).run calls' := by
  simp only [run_eq, List.filterMap_append, List.foldl_append]

namespace ReduceNet

variable (y : ReduceNet) (tree : TreeState)

@[simp] theorem recvReply_input (child : Rank) : (y.recvReply r child).input = y.input := by
  unfold recvReply
  split <;> rfl

@[simp] theorem begin_input (cleanup due hit : Bool) :
    (y.begin tree r cleanup due hit).input = y.input := by
  simp only [begin]
  split
  · cases cleanup
    · rfl
    · cases tree.parentRank <;> rfl
  · rfl

@[simp] theorem finish_input (count : Nat) : (y.finish tree r count).input = y.input := by
  simp only [finish]
  split
  · cases tree.parentRank <;> rfl
  · rfl

@[simp] theorem recvSync_input (child : Rank) : (y.recvSync r child).input = y.input := by
  unfold recvSync
  split <;> rfl

@[simp] theorem syncFinish_input : (y.syncFinish tree r).input = y.input := by
  unfold syncFinish
  split <;> rfl

end ReduceNet

/-- The data of a rank change with the calls of its callbacks only. -/
theorem input_next (s : Sys α) (e : Event α) :
    (s.next job e).reduce.input r = (s.reduce.input r).run (e.reduceCalls r) := by
  have hcallback : ∀ (y : ReduceNet) (q : Rank) (calls : List ReduceCall),
      y.input = s.reduce.input → (y.callback q calls).input r =
        (s.reduce.input r).run (if q = r then calls else []) := by
    intro y q calls hy
    simp only [ReduceNet.callback, hy]
    split
    next hq => rw [hq, Function.update_self]
    next hq => rw [Function.update_of_ne (Ne.symm hq), ReduceInput.run]
  cases e with
  | reduceBegin q due hit calls => exact hcallback _ q calls (by simp)
  | reduceReply q hit calls =>
      refine hcallback _ q calls ?_
      cases hit with
      | false => rfl
      | true => exact ReduceNet.recvReply_input _ _
  | reduceDone q calls => exact hcallback _ q calls (by simp)
  | reduceSync q calls => exact hcallback _ q calls rfl
  | reduceSyncReply q calls => exact hcallback _ q calls (by simp)
  | reduceSyncDone q calls => exact hcallback _ q calls (by simp)
  | _ => simp only [Event.reduceCalls, ite_self]; rfl

theorem input_run {es : List (Event α)} (h : job.step.Run s es t) :
    t.reduce.input r = (s.reduce.input r).run (es.flatMap (Event.reduceCalls r)) := by
  induction h with
  | nil => rfl
  | @cons s t e es _ _ ih =>
      rw [ih, List.flatMap_cons, ReduceInput.run_append]
      exact congrArg (ReduceInput.run · _) (input_next s e)

/-- The data of a rank are those after the calls of its callbacks in the run. -/
theorem input_of_run {es : List (Event α)} (h : job.step.Run .fresh es t) :
    t.reduce.input r =
      ((es.flatMap (Event.reduceCalls r)).filterMap ReduceCall.buf?).foldl
        ReduceInput.reduce {} := by
  rw [input_run h, ReduceInput.run_eq]
  rfl

/-- They are the data of `CIRCLE_reduce`, for callbacks that do not call it with the buffer it
frees. -/
theorem reduceInput_of_run {es : List (Event α)} (h : job.step.Run .fresh es t) :
    reduceInput (((es.flatMap (Event.reduceCalls r)).filterMap ReduceCall.buf?).map .bytes) =
      some (t.reduce.input r) := by
  rw [reduceInput_eq (by simp [FromCaller]), List.map_map, input_of_run h]
  exact congrArg (fun l => some (l.foldl ReduceInput.reduce {})) (List.map_id _)

/-! ## The messages -/

/-- A message that carries a partial result, as the source has it. -/
def ReduceMsg.packet? : ReduceMsg → Option ReducePacket
  | .start => none
  | .header _ valid count bytes => some (.header valid count bytes)
  | .data _ buf => some (.data buf)

/-- A rank whose data match the last buffer sends what the source sends. -/
theorem sendResult_packets {y : ReduceNet} {buf : List UInt8} (origin : ReduceOrigin) (p : Rank)
    (hsize : (y.input r).size = buf.length) (hbuf : (y.input r).buf = pointer buf)
    (hle : buf.length ≤ int32Max) :
    ∃ sent, (y.sendResult r origin p).net r p = y.net r p ++ sent ∧
      (y.input r).sendPartial (y.st r).valid (y.st r).total =
        some (sent.filterMap ReduceMsg.packet?) := by
  cases hvalid : (y.st r).valid with
  | false =>
      refine ⟨[.header origin false (y.st r).total buf.length], ?_, ?_⟩
      · simp [ReduceNet.sendResult, hvalid, hsize]
      · simp [ReduceInput.sendPartial, hsize, intOf_natCast hle, ReduceMsg.packet?]
  | true =>
      rw [(sendPartial_iff _ hsize hbuf).mpr hle]
      cases buf with
      | nil =>
          refine ⟨[.header origin true (y.st r).total 0], ?_, rfl⟩
          simp [ReduceNet.sendResult, hvalid, hsize]
      | cons b buf =>
          refine ⟨[.header origin true (y.st r).total (b :: buf).length, .data origin (b :: buf)],
            ?_, rfl⟩
          simp [ReduceNet.sendResult, hvalid, hsize, hbuf, pointer]

end Libcircle
