import Libcircle.Lib.Fold
import Libcircle.System.ReductionData
import Libcircle.System.Waves

/-!
# The final synchronous reduction

`syncReduction` is `CIRCLE_reduce_sync` on its own, message by message: a rank
enters at any time, with any count and any data left by earlier reductions, and
its `reduce_init` stores a buffer.  It receives the header and then the data of
each child in order, and calls `reduce_op`, which stores a buffer in turn.  It
sends its header and then its data to its parent, or is the root and calls
`reduce_fini`.  The counts are exact: a sum of as many `int` values as there are
ranks fits in a `long long`.

What a child still has to send and what its parent has received of it make up
one report, and the steps are the moves of a wave of reports that folds the
counts and the buffers (`SyncNet.wave`).  So the root ends with the sum of all
counts and the fold of all buffers, and every message sent has been received
(`sync_reduction_folds`).
-/

namespace Libcircle

variable {size width : Nat} {r a b : Rank}

/-! ## The callbacks -/

/-- The size of a buffer is positive and fits in an `int`. -/
def Sized (buf : List UInt8) : Prop := 1 ≤ buf.length ∧ buf.length ≤ int32Max

instance (buf : List UInt8) : Decidable (Sized buf) := inferInstanceAs (Decidable (_ ∧ _))

/-- A `reduce_op` callback: on a rank, for a child, from the current buffer and the incoming one. -/
structure ReduceOp where
  op : Rank → Rank → List UInt8 → List UInt8 → List UInt8
  sized : ∀ r c cur inb, Sized cur → Sized inb → Sized (op r c cur inb)

/-- The buffer of the last call of `CIRCLE_reduce`. -/
def storedBuf (calls : List ReduceCall) : Option (List UInt8) :=
  (calls.filterMap ReduceCall.buf?).getLast?

/-- The bytes that a callback can read. -/
def ReduceInput.bytes (x : ReduceInput) : List UInt8 := (x.buf.getD []).take x.size

theorem ReduceInput.run_stored (x : ReduceInput) {calls : List ReduceCall} {buf : List UInt8}
    (h : storedBuf calls = some buf) (hbuf : Sized buf) :
    x.run calls = ⟨some buf, buf.length⟩ := by
  rw [ReduceInput.run_eq]
  rw [storedBuf, List.getLast?_eq_some_iff] at h
  obtain ⟨bufs, h⟩ := h
  rw [h, List.foldl_append]
  simp [ReduceInput.reduce, Nat.lt_of_lt_of_le Nat.zero_lt_one hbuf.1]

theorem sendPartial_stored {buf : List UInt8} (hbuf : Sized buf) (count : Int) :
    (⟨some buf, buf.length⟩ : ReduceInput).sendPartial true count =
      some [.header true count buf.length, .data buf] := by
  have hne : buf ≠ [] := by
    rintro rfl
    exact absurd hbuf.1 (by decide)
  have hpointer : some buf = pointer buf := (if_neg hne).symm
  rw [(sendPartial_iff count rfl hpointer).mpr hbuf.2, announced, if_neg hne]

/-! ## The reduction -/

/-- A position in `CIRCLE_reduce_sync`. -/
inductive SyncPoint where
  /-- Not yet called. -/
  | outside
  /-- At the first receive of the loop, or at its end. -/
  | header
  /-- At the second receive: `recvbuf[1]` and `recvbuf[2]`. -/
  | data (count bytes : Int)
  /-- The messages to the parent that are still to be sent. -/
  | send (packets : List ReducePacket)
  | returned
deriving DecidableEq, Repr

/-- The variables of a rank in `CIRCLE_reduce_sync`. -/
structure Sync where
  point : SyncPoint := .outside
  /-- `count`. -/
  count : Int := 0
  /-- `i`. -/
  index : Nat := 0
  /-- `reduce_buf[0]` is `MSG_VALID`. -/
  valid : Bool := false
  /-- `reduce_buf[1]`. -/
  total : Int := 0
  /-- `reduce_buf[2]`. -/
  bytes : Int := 0
  /-- The reduction data. -/
  input : ReduceInput := {}
  /-- The buffer that `reduce_init` stored, a history variable. -/
  initial : List UInt8 := []
  /-- The data that `reduce_fini` was called with, a history variable. -/
  result : Option ReduceInput := none
deriving DecidableEq, Repr

/-- The reduction of all ranks and the tag `CIRCLE_TAG_REDUCE`. -/
structure SyncNet where
  /-- The variables of a rank. -/
  st : Rank → Sync
  /-- `CIRCLE_TAG_REDUCE`. -/
  net : Chan Rank ReducePacket
  /-- The messages received, a history variable. -/
  received : Chan Rank ReducePacket

namespace SyncNet

/-- No rank has called the function. -/
def start : SyncNet := ⟨fun _ => {}, .empty, .empty⟩

/-- A step of a rank. -/
inductive Step where
  /-- The call, with what earlier reductions left, and `reduce_init`. -/
  | enter (r : Rank) (left : Sync) (count : Int) (calls : List ReduceCall)
  /-- The header of the next child is received; without data `reduce_op` is called. -/
  | header (r : Rank) (calls : List ReduceCall)
  /-- The data of the child are received and `reduce_op` is called. -/
  | data (r : Rank) (calls : List ReduceCall)
  /-- The end of the loop, with `reduce_fini` on the root. -/
  | report (r : Rank) (calls : List ReduceCall)
  /-- The next message goes to the parent. -/
  | send (r : Rank)

variable (op : ReduceOp) (x : SyncNet)

/-- The next child of `r`. -/
def child (size width : Nat) (r : Rank) : Rank := (treeInit r size width).child (x.st r).index

/-- The header can be received, and `reduce_op` stores its result if there are no data. -/
def HeaderReady (r c : Rank) (calls : List ReduceCall) : List ReducePacket → Prop
  | .header _ _ bytes :: _ =>
      (0 < sizeOf64 bytes → calls = []) ∧
        (sizeOf64 bytes = 0 → storedBuf calls = some (op.op r c (x.st r).input.bytes []))
  | _ => False

/-- The data can be received, and `reduce_op` stores its result. -/
def DataReady (r c : Rank) (calls : List ReduceCall) : SyncPoint → List ReducePacket → Prop
  | .data _ bytes, .data buf :: _ =>
      buf.length ≤ intOf bytes ∧ storedBuf calls = some (op.op r c (x.st r).input.bytes buf)
  | _, _ => False

instance (c : Rank) (calls : List ReduceCall) : ∀ ms, Decidable (x.HeaderReady op r c calls ms)
  | .header _ _ _ :: _ => inferInstanceAs (Decidable ((_ → _) ∧ (_ → _)))
  | [] | .data _ :: _ => .isFalse id

instance (c : Rank) (calls : List ReduceCall) :
    ∀ p ms, Decidable (x.DataReady op r c calls p ms)
  | .data _ _, .data _ :: _ => inferInstanceAs (Decidable (_ ∧ _))
  | .data _ _, [] | .data _ _, .header .. :: _ | .outside, _ | .header, _ | .send _, _
  | .returned, _ => .isFalse id

/-- There is a message to be sent. -/
def Sending : SyncPoint → Bool
  | .send (_ :: _) => true
  | _ => false

/-- The steps a state enables. -/
def Enabled (size width : Nat) : Step → Prop
  | .enter r _ _ calls =>
      r < size ∧ (x.st r).point = .outside ∧ Sized ((storedBuf calls).getD [])
  | .header r calls =>
      r < size ∧ (x.st r).point = .header ∧ (x.st r).index < (treeInit r size width).children ∧
        x.HeaderReady op r (x.child size width r) calls (x.net (x.child size width r) r)
  | .data r calls =>
      r < size ∧
        x.DataReady op r (x.child size width r) calls (x.st r).point
          (x.net (x.child size width r) r)
  | .report r calls =>
      r < size ∧ (x.st r).point = .header ∧ (treeInit r size width).children ≤ (x.st r).index ∧
        ((treeInit r size width).parentRank = none ∨
          calls = [] ∧ ((x.st r).input.sendPartial true (x.st r).total).isSome = true)
  | .send r => r < size ∧ Sending (x.st r).point = true

instance : ∀ e, Decidable (x.Enabled op size width e)
  | .enter .. => inferInstanceAs (Decidable (_ ∧ _ ∧ _))
  | .header .. => inferInstanceAs (Decidable (_ ∧ _ ∧ _ ∧ _))
  | .data .. => inferInstanceAs (Decidable (_ ∧ _))
  | .report .. => inferInstanceAs (Decidable (_ ∧ _ ∧ _ ∧ (_ ∨ _ ∧ _)))
  | .send _ => inferInstanceAs (Decidable (_ ∧ _))

/-- Replace the variables of `r`. -/
def set (r : Rank) (y : Sync) : SyncNet := { x with st := Function.update x.st r y }

/-- `r` receives the next message of `c`. -/
def recv (r c : Rank) : SyncNet where
  st := x.st
  net := x.net.pop c r
  received := fun a b => if a = c ∧ b = r then x.received a b ++ (x.net a b).take 1
    else x.received a b

/-- The state after a step. -/
def next (size width : Nat) : Step → SyncNet
  | .enter r left count calls =>
      x.set r
        { left with
          point := .header, count := count, index := 0, valid := true, total := count, bytes := 0
          input := left.input.run calls, initial := (storedBuf calls).getD [], result := none }
  | .header r calls =>
      let c := x.child size width r
      match x.net c r with
      | .header _ count bytes :: _ =>
          (x.recv r c).set r
            (if 0 < sizeOf64 bytes then
              { x.st r with point := .data count bytes, total := (x.st r).total + count }
            else
              { x.st r with
                total := (x.st r).total + count
                input := (x.st r).input.run calls
                index := (x.st r).index + 1 })
      | _ => x
  | .data r calls =>
      (x.recv r (x.child size width r)).set r
        { x.st r with
          point := .header, input := (x.st r).input.run calls, index := (x.st r).index + 1 }
  | .report r calls =>
      match (treeInit r size width).parentRank with
      | some _ =>
          x.set r
            { x.st r with
              point := .send (((x.st r).input.sendPartial true (x.st r).total).getD [])
              bytes := intOf (x.st r).input.size }
      | none =>
          x.set r
            { x.st r with
              point := .returned
              input := (x.st r).input.run calls
              result := some (x.st r).input }
  | .send r =>
      match (x.st r).point, (treeInit r size width).parentRank with
      | .send (m :: ms), some p =>
          { x with net := x.net.push r p m }.set r
            { x.st r with point := if ms = [] then .returned else .send ms }
      | _, _ => x

end SyncNet

/-- `CIRCLE_reduce_sync` on `size` ranks in a tree of width `width`. -/
def syncReduction (op : ReduceOp) (size width : Nat) : EventSystem SyncNet SyncNet.Step where
  Enabled x := x.Enabled op size width
  next x := x.next size width

instance (op : ReduceOp) (x : SyncNet) (e : SyncNet.Step) :
    Decidable ((syncReduction op size width).Enabled x e) :=
  inferInstanceAs (Decidable (x.Enabled op size width e))

/-! ## The reduction is a wave -/

/-- A partial result as messages. -/
def packets (v : Int × List UInt8) : List ReducePacket := [.header true v.1 v.2.length, .data v.2]

/-- The partial result of a report. -/
def reportValue : List ReducePacket → Int × List UInt8
  | [.header _ count _, .data buf] => (count, buf)
  | _ => (0, [])

@[simp] theorem reportValue_packets (v : Int × List UInt8) : reportValue (packets v) = v := rfl

namespace Sync

/-- What was received of the report of `a` that is not yet complete. -/
def got (y : Sync) (t : TreeState) (a : Rank) : List ReducePacket :=
  match y.point with
  | .data count bytes => if a = t.child y.index then [.header true count bytes] else []
  | _ => []

/-- What is still to be sent to `b`. -/
def unsent (y : Sync) (t : TreeState) (b : Rank) : List ReducePacket :=
  match y.point with
  | .send ms => if t.parentRank = some b then ms else []
  | _ => []

/-- Whether the loop is over. -/
def ended (y : Sync) : Bool :=
  match y.point with
  | .send _ | .returned => true
  | _ => false

/-- The partial result, without a header whose data are still to be received. -/
def partialResult (y : Sync) : Int × List UInt8 :=
  match y.point with
  | .outside => (y.count, y.initial)
  | .data count _ => (y.total - count, y.input.bytes)
  | _ => (y.total, (y.result.getD y.input).bytes)

/-- What holds of the variables of a rank with the place `t` in the tree. -/
structure Ok (t : TreeState) (y : Sync) : Prop where
  index_zero : y.point = .outside → y.index = 0
  index_lt : ∀ count bytes, y.point = .data count bytes → y.index < t.children
  children_le : y.ended = true → t.children ≤ y.index
  /-- In the loop the data are a buffer of positive size. -/
  input : y.point = .header ∨ (∃ count bytes, y.point = .data count bytes) →
    y.result = none ∧ ∃ buf, Sized buf ∧ y.input = ⟨some buf, buf.length⟩
  result : t.parentRank = none → y.point = .returned →
    ∃ buf : List UInt8, y.result = some ⟨some buf, buf.length⟩

end Sync

namespace SyncNet

/-- The report of `a` to `b`, from its end until its last message is received. -/
def report (size width : Nat) (x : SyncNet) (a b : Rank) : List ReducePacket :=
  (x.st b).got (treeInit b size width) a ++ x.net a b ++ (x.st a).unsent (treeInit a size width) b

/-- A report is one message. -/
def box (l : List ReducePacket) : List (List ReducePacket) := if l = [] then [] else [l]

@[simp] theorem box_nil : box [] = [] := rfl

theorem box_eq_nil {l : List ReducePacket} : box l = [] ↔ l = [] := by
  unfold box
  split <;> simp [*]

/-- The reduction as a wave of reports. -/
def wave (size width : Nat) (x : SyncNet) : Wave Rank (List ReducePacket) where
  done _ := 0
  up r := (x.st r).ended && (treeInit r size width).parentRank.isSome
  replies r := (x.st r).index
  net a b := box (x.report size width a b)

/-- The partial results of the ranks. -/
def results (x : SyncNet) (r : Rank) : Int × List UInt8 := (x.st r).partialResult

/-- The count and the initial buffer of each rank. -/
def own (x : SyncNet) (r : Rank) : Int × List UInt8 := ((x.st r).count, (x.st r).initial)

/-- The combination of partial results. -/
def combineResults (op : ReduceOp) (r c : Rank) (v w : Int × List UInt8) : Int × List UInt8 :=
  (v.1 + w.1, op.op r c v.2 w.2)

/-- The reduction folds the partial results. -/
structure Inv (T : ParentTree Rank) (op : ReduceOp) (size width : Nat) (x : SyncNet)
    (sent : Rank → Int × List UInt8) : Prop where
  folds : (x.wave size width).Folds T x.own (combineResults op) reportValue x.results sent
  /-- A report is a header that announces the data, and the data. -/
  shape : ∀ a b, x.report size width a b = [] ∨
    ∃ v : Int × List UInt8, Sized v.2 ∧ x.report size width a b = packets v
  /-- What was received, is in flight or is to be sent is one report. -/
  log : ∀ a b, x.received a b ++ (x.net a b ++ (x.st a).unsent (treeInit a size width) b) =
    if (x.st a).ended = true ∧ (treeInit a size width).parentRank = some b then packets (sent a)
    else []
  node : ∀ r, (x.st r).point ≠ .outside → r < size
  ok : ∀ r, (x.st r).Ok (treeInit r size width)

variable {op : ReduceOp} {x z : SyncNet} {e : Step} {sent : Rank → Int × List UInt8} {y : Sync}
  {hs : 0 < size} {hw : 0 < width}

/-! ### What a step changes -/

theorem results_set (net received : Chan Rank ReducePacket) :
    (SyncNet.set ⟨x.st, net, received⟩ r y).results = Function.update x.results r y.partialResult :=
  update_proj Sync.partialResult _ _ _

theorem own_set (net received : Chan Rank ReducePacket) :
    (SyncNet.set ⟨x.st, net, received⟩ r y).own = Function.update x.own r (y.count, y.initial) :=
  update_proj (fun y : Sync => (y.count, y.initial)) _ _ _

theorem own_set_same (net received : Chan Rank ReducePacket) (hcount : y.count = (x.st r).count)
    (hinitial : y.initial = (x.st r).initial) :
    (SyncNet.set ⟨x.st, net, received⟩ r y).own = x.own :=
  update_proj_same (fun y : Sync => (y.count, y.initial)) _ _ (by rw [hcount, hinitial])

theorem results_set_same (net received : Chan Rank ReducePacket)
    (h : y.partialResult = (x.st r).partialResult) :
    (SyncNet.set ⟨x.st, net, received⟩ r y).results = x.results :=
  update_proj_same Sync.partialResult _ _ h

theorem ok_set (h : ∀ a, (x.st a).Ok (treeInit a size width))
    (net received : Chan Rank ReducePacket)
    (hy : y.Ok (treeInit r size width)) :
    ∀ a, ((SyncNet.set ⟨x.st, net, received⟩ r y).st a).Ok (treeInit a size width) := by
  intro a
  by_cases ha : a = r
  · subst ha
    simpa [set] using hy
  · simpa [set, Function.update_of_ne ha] using h a

theorem node_set (h : ∀ a, (x.st a).point ≠ .outside → a < size) (hr : r < size)
    (net received : Chan Rank ReducePacket) :
    ∀ a, ((SyncNet.set ⟨x.st, net, received⟩ r y).st a).point ≠ .outside → a < size := by
  intro a ha
  by_cases har : a = r
  · exact har ▸ hr
  · exact h a (by simpa [set, Function.update_of_ne har] using ha)

/-- A step that moves messages within the reports only. -/
theorem wave_set (net received : Chan Rank ReducePacket)
    (hreport : ∀ a b, (SyncNet.set ⟨x.st, net, received⟩ r y).report size width a b =
      x.report size width a b)
    (hended : ((y.ended && (treeInit r size width).parentRank.isSome) =
      ((x.st r).ended && (treeInit r size width).parentRank.isSome)))
    (hindex : y.index = (x.st r).index) :
    (SyncNet.set ⟨x.st, net, received⟩ r y).wave size width = x.wave size width := by
  simp only [wave]
  congr 1
  · funext a
    by_cases ha : a = r
    · subst ha
      simpa [set] using hended
    · simp [set, Function.update_of_ne ha]
  · exact update_proj_same Sync.index _ _ hindex
  · funext a b
    rw [hreport a b]

/-- The report of `a` to `b` after a step of `r`. -/
theorem report_set (net received : Chan Rank ReducePacket) :
    (SyncNet.set ⟨x.st, net, received⟩ r y).report size width a b =
      (if b = r then y.got (treeInit r size width) a else (x.st b).got (treeInit b size width) a) ++
        net a b ++
          (if a = r then y.unsent (treeInit r size width) b
          else (x.st a).unsent (treeInit a size width) b) := by
  unfold report
  by_cases hb : b = r
  · by_cases ha : a = r
    · simp [set, ha, hb]
    · simp [set, ha, hb]
  · by_cases ha : a = r
    · simp [set, ha, hb]
    · simp [set, ha, hb]

/-! ### The steps keep the invariant -/

/-- The reduction folds after a step of `r`, if its wave does. -/
theorem folds_set {T : ParentTree Rank} {w : Wave Rank (List ReducePacket)}
    {net received : Chan Rank ReducePacket}
    (hwave : (SyncNet.set ⟨x.st, net, received⟩ r y).wave size width = w)
    (hcount : y.count = (x.st r).count) (hinitial : y.initial = (x.st r).initial)
    (hfolds : w.Folds T x.own (combineResults op) reportValue
      (Function.update x.results r y.partialResult) sent) :
    ((SyncNet.set ⟨x.st, net, received⟩ r y).wave size width).Folds T
      (SyncNet.set ⟨x.st, net, received⟩ r y).own (combineResults op) reportValue
      (SyncNet.set ⟨x.st, net, received⟩ r y).results sent := by
  rw [hwave, own_set_same net received hcount hinitial, results_set]
  exact hfolds

/-- A step that receives messages. -/
theorem moved_set {net received : Chan Rank ReducePacket}
    (hunsent : ∀ b, y.unsent (treeInit r size width) b = (x.st r).unsent (treeInit r size width) b)
    (hmoved : ∀ a b, received a b ++ net a b = x.received a b ++ x.net a b) :
    ∀ a b, received a b ++ (net a b ++
        ((SyncNet.set ⟨x.st, net, received⟩ r y).st a).unsent (treeInit a size width) b) =
      x.received a b ++ (x.net a b ++ (x.st a).unsent (treeInit a size width) b) := by
  intro a b
  rw [← List.append_assoc, hmoved, List.append_assoc]
  by_cases ha : a = r
  · subst ha
    simp only [set, Function.update_self, hunsent]
  · simp only [set, Function.update_of_ne ha]

/-- A step of a rank that does not end its loop. -/
theorem Inv.log_set (h : x.Inv (rankTree size width hs hw) op size width sent)
    {net received : Chan Rank ReducePacket}
    (hmoved : ∀ a b, received a b ++ (net a b ++
        ((SyncNet.set ⟨x.st, net, received⟩ r y).st a).unsent (treeInit a size width) b) =
      x.received a b ++ (x.net a b ++ (x.st a).unsent (treeInit a size width) b))
    (hended : (treeInit r size width).parentRank.isSome = true → y.ended = (x.st r).ended) :
    ∀ a b, received a b ++ (net a b ++
        ((SyncNet.set ⟨x.st, net, received⟩ r y).st a).unsent (treeInit a size width) b) =
      if ((SyncNet.set ⟨x.st, net, received⟩ r y).st a).ended = true ∧
          (treeInit a size width).parentRank = some b then packets (sent a) else [] := by
  intro a b
  rw [hmoved, h.log a b]
  by_cases ha : a = r
  · subst ha
    refine if_congr (and_congr_left fun hp => ?_) rfl rfl
    simp [set, hended (Option.isSome_iff_exists.mpr ⟨b, hp⟩)]
  · simp [set, Function.update_of_ne ha]

/-- A step that moves messages within the reports, and keeps the partial result. -/
theorem Inv.same (h : x.Inv (rankTree size width hs hw) op size width sent) (hr : r < size)
    {net received : Chan Rank ReducePacket}
    (hreport : ∀ a b, (SyncNet.set ⟨x.st, net, received⟩ r y).report size width a b =
      x.report size width a b)
    (hmoved : ∀ a b, received a b ++ (net a b ++
        ((SyncNet.set ⟨x.st, net, received⟩ r y).st a).unsent (treeInit a size width) b) =
      x.received a b ++ (x.net a b ++ (x.st a).unsent (treeInit a size width) b))
    (hended : (treeInit r size width).parentRank.isSome = true → y.ended = (x.st r).ended)
    (hindex : y.index = (x.st r).index) (hresults : y.partialResult = (x.st r).partialResult)
    (hcount : y.count = (x.st r).count) (hinitial : y.initial = (x.st r).initial)
    (hok : y.Ok (treeInit r size width)) :
    (SyncNet.set ⟨x.st, net, received⟩ r y).Inv (rankTree size width hs hw) op size width sent := by
  refine ⟨?_, ?_, ?_, node_set h.node hr _ _, ok_set h.ok _ _ hok⟩
  · rw [wave_set net received hreport ?_ hindex, own_set_same net received hcount hinitial,
      results_set_same net received hresults]
    · exact h.folds
    · cases hp : (treeInit r size width).parentRank.isSome with
      | true => rw [hended hp]
      | false => simp
  · intro a b
    rw [hreport]
    exact h.shape a b
  · exact h.log_set hmoved hended

theorem inv_enter {left : Sync} {count : Int} {calls : List ReduceCall}
    (h : x.Inv (rankTree size width hs hw) op size width sent)
    (he : x.Enabled op size width (.enter r left count calls)) :
    (x.next size width (.enter r left count calls)).Inv (rankTree size width hs hw) op size width
      sent := by
  obtain ⟨hr, hpoint, hsized⟩ := he
  have hindex := (h.ok r).index_zero hpoint
  have hstored : storedBuf calls = some ((storedBuf calls).getD []) := by
    cases hs : storedBuf calls with
    | none => exact absurd (hs ▸ hsized).1 (by decide)
    | some buf => rfl
  have hinput := left.input.run_stored hstored hsized
  have hnot : ¬(x.wave size width).Reported r := by
    simp [Wave.Reported, wave, Sync.ended, hpoint]
  have hreplies : (x.wave size width).replies r = 0 := hindex
  have hreport : ∀ a b, (x.next size width (.enter r left count calls)).report size width a b =
      x.report size width a b := by
    intro a b
    refine (report_set x.net x.received).trans ?_
    by_cases hb : b = r <;> by_cases ha : a = r <;>
      simp [report, Sync.got, Sync.unsent, hpoint, ha, hb]
  refine ⟨?_, ?_, ?_, node_set h.node hr _ _,
    ok_set h.ok _ _ ⟨by simp, by simp, by simp [Sync.ended],
      fun _ => ⟨rfl, _, hsized, hinput⟩, by simp⟩⟩
  · have hwave : (x.next size width (.enter r left count calls)).wave size width =
        x.wave size width :=
      wave_set x.net x.received hreport (by simp [Sync.ended, hpoint]) hindex.symm
    have hown : (x.next size width (.enter r left count calls)).own =
        Function.update x.own r (count, (storedBuf calls).getD []) := own_set x.net x.received
    have hresults : (x.next size width (.enter r left count calls)).results =
        Function.update x.results r (count, (storedBuf calls).getD []) := by
      refine (results_set x.net x.received).trans ?_
      simp [Sync.partialResult, hinput, ReduceInput.bytes]
    rw [hwave, hown, hresults]
    exact h.folds.enter hnot hreplies
  · intro a b
    rw [hreport]
    exact h.shape a b
  · exact h.log_set (moved_set (by simp [Sync.unsent, hpoint]) fun _ _ => rfl)
      (by simp [Sync.ended, hpoint])

/-- The messages of the child that a rank is to hear. -/
theorem Inv.report_child (h : x.Inv (rankTree size width hs hw) op size width sent)
    (hm : x.net a b ≠ []) : ∃ v : Int × List UInt8, Sized v.2 ∧
      (x.st b).got (treeInit b size width) a ++
        (x.net a b ++ (x.st a).unsent (treeInit a size width) b) = packets v := by
  rw [← List.append_assoc]
  exact (h.shape a b).resolve_left (by simp [report, hm])

theorem recv_log (c : Rank) :
    ∀ a b, (x.recv r c).received a b ++ (x.recv r c).net a b = x.received a b ++ x.net a b := by
  intro a b
  simp only [recv, Chan.pop]
  split
  · rw [List.append_assoc, ← List.drop_one, List.take_append_drop]
  · rfl

@[simp] theorem recv_net (c : Rank) : (x.recv r c).net = x.net.pop c r := rfl

/-- A header announces the data of its report. -/
theorem inv_header {calls : List ReduceCall}
    (h : x.Inv (rankTree size width hs hw) op size width sent)
    (he : x.Enabled op size width (.header r calls)) :
    (x.next size width (.header r calls)).Inv (rankTree size width hs hw) op size width sent := by
  obtain ⟨hr, hpoint, hi, hready⟩ := he
  have hne := (rankTree size width hs hw).ne_of_mem (TreeState.child_mem hi)
  obtain ⟨hresult, hinput⟩ := (h.ok r).input (.inl hpoint)
  simp only [next]
  simp only [child] at hready ⊢
  generalize hc : (treeInit r size width).child (x.st r).index = c at hready hne ⊢
  cases hnet : x.net c r with
  | nil => exact (hnet ▸ hready).elim
  | cons m ms =>
      obtain ⟨v, hsized, hrep⟩ := h.report_child (by rw [hnet]; exact List.cons_ne_nil m ms)
      have hgot : ∀ a, (x.st r).got (treeInit r size width) a = [] := by
        simp [Sync.got, hpoint]
      rw [hgot, List.nil_append, hnet, List.cons_append, packets, List.cons.injEq] at hrep
      obtain ⟨rfl, _⟩ := hrep
      have hpos : 0 < sizeOf64 v.2.length := by
        rw [sizeOf64_natCast hsized.2]
        exact hsized.1
      simp only [if_pos hpos]
      -- the header has been received, and is still part of the report
      have hreport : ∀ a b, SyncNet.report size width (SyncNet.set (x.recv r c) r { x.st r with
          point := .data v.1 v.2.length, total := (x.st r).total + v.1 }) a b =
            x.report size width a b := by
        intro a b
        refine (report_set _ _).trans ?_
        by_cases hab : a = c ∧ b = r
        · obtain ⟨rfl, rfl⟩ := hab
          simp [report, hnet, Sync.got, hpoint, hc, Ne.symm hne]
        · rw [Chan.pop_ne _ hab]
          by_cases hb : b = r
          · have ha : a ≠ c := fun ha => hab ⟨ha, hb⟩
            by_cases har : a = r
            · simp [report, Sync.got, Sync.unsent, hpoint, hb, har, hc, hne]
            · simp [report, Sync.got, hpoint, hb, har, hc, ha]
          · by_cases har : a = r <;> simp [report, Sync.unsent, hpoint, hb, har]
      refine h.same hr hreport (moved_set ?_ (recv_log c)) (fun _ => ?_) rfl ?_ rfl rfl
        ⟨by simp, fun _ _ _ => hi, by simp [Sync.ended], fun _ => ⟨hresult, hinput⟩, by simp⟩
      · simp [Sync.unsent, hpoint]
      · simp [Sync.ended, hpoint]
      · simp [Sync.partialResult, hpoint, hresult]

/-- A step that completes the report of `a`. -/
theorem wave_recv (net received : Chan Rank ReducePacket) {v : Int × List UInt8}
    (hall : x.report size width a r = packets v)
    (hself : (SyncNet.set ⟨x.st, net, received⟩ r y).report size width a r = [])
    (hreport : ∀ c b, ¬(c = a ∧ b = r) →
      (SyncNet.set ⟨x.st, net, received⟩ r y).report size width c b = x.report size width c b)
    (hended : y.ended = (x.st r).ended) (hindex : y.index = (x.st r).index + 1) :
    (SyncNet.set ⟨x.st, net, received⟩ r y).wave size width = (x.wave size width).recv r a := by
  simp only [wave, Wave.recv]
  congr 1
  · funext b
    by_cases hb : b = r
    · subst hb
      simp [set, hended]
    · simp [set, Function.update_of_ne hb]
  · refine (update_proj Sync.index _ _ _).trans ?_
    rw [hindex]
  · funext c b
    by_cases hcb : c = a ∧ b = r
    · obtain ⟨rfl, rfl⟩ := hcb
      rw [hself, Chan.pop_self, hall]
      rfl
    · rw [hreport c b hcb, Chan.pop_ne _ hcb]

/-- The data complete the report of a child. -/
theorem inv_data {calls : List ReduceCall}
    (h : x.Inv (rankTree size width hs hw) op size width sent)
    (he : x.Enabled op size width (.data r calls)) :
    (x.next size width (.data r calls)).Inv (rankTree size width hs hw) op size width sent := by
  obtain ⟨hr, hready⟩ := he
  simp only [next]
  simp only [child] at hready ⊢
  cases hpoint : (x.st r).point with
  | outside | header | send ms | returned => exact (hpoint ▸ hready).elim
  | data count bytes =>
      have hi := (h.ok r).index_lt count bytes hpoint
      obtain ⟨hresult, cur, hcur, hinput⟩ := (h.ok r).input (.inr ⟨count, bytes, hpoint⟩)
      have hget := TreeState.child_getElem? hi
      have hne := (rankTree size width hs hw).ne_of_mem (TreeState.child_mem hi)
      generalize hc : (treeInit r size width).child (x.st r).index = c at hready hget hne ⊢
      rw [hpoint] at hready
      cases hnet : x.net c r with
      | nil => exact (hnet ▸ hready).elim
      | cons m ms =>
          obtain ⟨v, hsized, hrep⟩ := h.report_child (by rw [hnet]; exact List.cons_ne_nil m ms)
          rw [hnet] at hready
          have hgot : (x.st r).got (treeInit r size width) c = [.header true count bytes] := by
            simp [Sync.got, hpoint, hc]
          have hall : x.report size width c r = packets v := by
            rw [report, List.append_assoc, hrep]
          rw [hgot, hnet] at hrep
          simp only [packets, List.cons_append, List.nil_append, List.cons.injEq,
            List.append_eq_nil_iff, ReducePacket.header.injEq, true_and] at hrep
          obtain ⟨⟨hcount, hbytes⟩, rfl, rfl, hunsent⟩ := hrep
          obtain ⟨_, hstored⟩ := hready
          have hbytes' : (x.st r).input.bytes = cur := by
            simp [hinput, ReduceInput.bytes]
          rw [hbytes'] at hstored
          have hnew := (x.st r).input.run_stored hstored (op.sized r c cur v.2 hcur hsized)
          have hself : SyncNet.report size width (SyncNet.set (x.recv r c) r { x.st r with
              point := .header, input := (x.st r).input.run calls
              index := (x.st r).index + 1 }) c r = [] := by
            refine (report_set _ _).trans ?_
            simp [Sync.got, hnet, hunsent, Ne.symm hne]
          have hreport : ∀ a b, ¬(a = c ∧ b = r) → SyncNet.report size width
              (SyncNet.set (x.recv r c) r { x.st r with
                point := .header, input := (x.st r).input.run calls
                index := (x.st r).index + 1 }) a b = x.report size width a b := by
            intro a b hab
            refine (report_set _ _).trans ?_
            rw [Chan.pop_ne _ hab]
            by_cases hb : b = r
            · have ha : a ≠ c := fun ha => hab ⟨ha, hb⟩
              by_cases har : a = r
              · simp [report, Sync.got, Sync.unsent, hpoint, hb, har, hc, hne]
              · simp [report, Sync.got, hpoint, hb, har, hc, ha]
            · by_cases har : a = r <;> simp [report, Sync.unsent, hpoint, hb, har]
          refine ⟨?_, ?_, h.log_set (moved_set ?_ (recv_log c)) fun _ => ?_,
            node_set h.node hr _ _, ok_set h.ok _ _ ⟨by simp, by simp,
              by simp [Sync.ended],
              fun _ => ⟨hresult, _, op.sized r c cur v.2 hcur hsized, hnew⟩, by simp⟩⟩
          · refine folds_set (wave_recv _ _ hall hself hreport (by simp [Sync.ended, hpoint]) rfl)
              rfl rfl ?_
            have hfolds := h.folds.recv (p := r) hget (show box _ = _ by rw [hall]; rfl)
            have hvalue : combineResults op r c (x.results r) (reportValue (packets v)) =
                ((x.st r).total, op.op r c cur v.2) := by
              simp [combineResults, results, Sync.partialResult, hpoint, hbytes', hcount]
            rw [hvalue] at hfolds
            simp only [Sync.partialResult, hresult, Option.getD_none, hnew, ReduceInput.bytes,
              Option.getD_some, List.take_length]
            exact hfolds
          · intro a b
            by_cases hab : a = c ∧ b = r
            · obtain ⟨rfl, rfl⟩ := hab
              exact .inl hself
            · rw [hreport a b hab]
              exact h.shape a b
          · simp [Sync.unsent, hpoint]
          · simp [Sync.ended, hpoint]

/-- A rank ends its loop with the partial result `v` for its parent `a`. -/
theorem wave_send {v : Int × List UInt8} (hp : (treeInit r size width).parentRank = some a)
    (hy : y.point = .send (packets v)) (hindex : y.index = (x.st r).index)
    (hnil : x.report size width r a = [])
    (hreport : ∀ c b, (SyncNet.set x r y).report size width c b =
      if c = r ∧ b = a then packets v else x.report size width c b) :
    (SyncNet.set x r y).wave size width = (x.wave size width).send r a (packets v) := by
  simp only [wave, Wave.send]
  congr 1
  · funext b
    by_cases hb : b = r
    · subst hb
      simp [set, Sync.ended, hy, hp]
    · simp [set, Function.update_of_ne hb]
  · exact update_proj_same Sync.index _ _ hindex
  · funext c b
    rw [hreport c b]
    by_cases hcb : c = r ∧ b = a
    · obtain ⟨rfl, rfl⟩ := hcb
      rw [if_pos ⟨rfl, rfl⟩, Chan.push_self, hnil]
      rfl
    · rw [if_neg hcb, Chan.push_ne _ _ hcb]

/-- A rank that heard all its children passes its partial result on. -/
theorem inv_report {calls : List ReduceCall}
    (h : x.Inv (rankTree size width hs hw) op size width sent)
    (he : x.Enabled op size width (.report r calls)) :
    ∃ sent', (x.next size width (.report r calls)).Inv (rankTree size width hs hw) op size width
      sent' := by
  obtain ⟨hr, hpoint, hi, hcalls⟩ := he
  obtain ⟨hresult, cur, hcur, hinput⟩ := (h.ok r).input (.inl hpoint)
  have hbytes : (x.st r).input.bytes = cur := by
    simp [hinput, ReduceInput.bytes]
  have hnot : ¬(x.wave size width).Reported r := by
    simp [Wave.Reported, wave, Sync.ended, hpoint]
  have hreplies : (x.wave size width).replies r =
      ((rankTree size width hs hw).children r).length := by
    refine Nat.le_antisymm ?_ hi
    rw [h.folds.wave.replies_eq r]
    exact List.countP_le_length
  have hheard := h.folds.wave.counted_of_replies hreplies
  simp only [next]
  cases hp : (treeInit r size width).parentRank with
  | none =>
      refine ⟨sent, h.same hr (fun a b => ?_) (moved_set (fun b => ?_) fun _ _ => rfl)
        (fun hsome => ?_) rfl ?_ rfl rfl ⟨by simp, by simp, fun _ => hi, by simp,
          fun _ _ => ⟨cur, by rw [hinput]⟩⟩⟩
      · refine (report_set _ _).trans ?_
        by_cases hb : b = r <;> by_cases ha : a = r <;>
          simp [report, Sync.got, Sync.unsent, hpoint, ha, hb]
      · simp [Sync.unsent, hpoint]
      · rw [hp] at hsome
        cases hsome
      · simp [Sync.partialResult, hpoint, hresult]
  | some p =>
      have hc : r ∈ (rankTree size width hs hw).children p :=
        ((rankTree size width hs hw).mem_children p r).mpr ⟨hr, hp⟩
      have hended : (x.st r).ended = false := by
        simp [Sync.ended, hpoint]
      have hresults : x.results r = ((x.st r).total, cur) := by
        simp [results, Sync.partialResult, hpoint, hresult, hbytes]
      have hsend : ((x.st r).input.sendPartial true (x.st r).total).getD [] =
          packets ((x.st r).total, cur) := by
        rw [hinput, sendPartial_stored hcur]
        rfl
      -- nothing was sent before
      have hlog := fun b => h.log r b
      simp only [hended, Bool.false_eq_true, false_and, if_false, List.append_eq_nil_iff] at hlog
      have hnil : x.report size width r p = [] := by
        have hup : (x.wave size width).up r = false := by simp [wave, hended]
        exact box_eq_nil.mp (h.folds.wave.quiet_of_not_up hc hup).2.1
      simp only [hsend]
      have hreport : ∀ a b, SyncNet.report size width (SyncNet.set x r { x.st r with
          point := .send (packets ((x.st r).total, cur))
          bytes := intOf (x.st r).input.size }) a b =
            if a = r ∧ b = p then packets ((x.st r).total, cur) else x.report size width a b := by
        intro a b
        refine (report_set _ _).trans ?_
        by_cases hab : a = r ∧ b = p
        · obtain ⟨rfl, rfl⟩ := hab
          have hne := (rankTree size width hs hw).ne_of_mem hc
          rw [report, List.append_eq_nil_iff, List.append_eq_nil_iff] at hnil
          simp [Sync.unsent, hp, hne, hnil.1.1, hnil.1.2]
        · rw [if_neg hab]
          by_cases har : a = r
          · have hb : p ≠ b := fun hb => hab ⟨har, hb.symm⟩
            by_cases hbr : b = r
            · have hpr := (rankTree size width hs hw).ne_of_mem hc
              simp [report, Sync.got, Sync.unsent, hpoint, har, hbr, hp, hpr]
            · simp [report, Sync.unsent, hpoint, har, hbr, hp, hb]
          · by_cases hbr : b = r <;> simp [report, Sync.got, hpoint, har, hbr]
      refine ⟨Function.update sent r (x.results r), ?_, ?_, ?_, node_set h.node hr _ _,
        ok_set h.ok _ _ ⟨by simp, by simp, fun _ => hi, by simp, by simp⟩⟩
      · refine folds_set (wave_send hp rfl rfl hnil hreport) rfl rfl ?_
        have hfolds := h.folds.send hc hnot hheard (m := packets ((x.st r).total, cur))
          (by rw [reportValue_packets, hresults])
        have hvalue : Sync.partialResult { x.st r with
            point := .send (packets ((x.st r).total, cur)), bytes := intOf (x.st r).input.size } =
              x.results r := by
          simp [Sync.partialResult, hresult, hbytes, hresults]
        rw [hvalue, Function.update_eq_self]
        exact hfolds
      · intro a b
        rw [hreport]
        split
        · exact .inr ⟨_, hcur, rfl⟩
        · exact h.shape a b
      · intro a b
        by_cases ha : a = r
        · subst ha
          rw [Function.update_self, hresults]
          simp [set, Sync.ended, Sync.unsent, hlog b, hp]
        · rw [Function.update_of_ne ha]
          simpa [set, Function.update_of_ne ha] using h.log a b

/-- A message of the report is sent. -/
theorem inv_send (h : x.Inv (rankTree size width hs hw) op size width sent)
    (he : x.Enabled op size width (.send r)) :
    (x.next size width (.send r)).Inv (rankTree size width hs hw) op size width sent := by
  obtain ⟨hr, hsending⟩ := he
  simp only [next]
  cases hpoint : (x.st r).point with
  | outside | header | data count bytes | returned =>
      rw [hpoint] at hsending
      cases hsending
  | send packets =>
      cases packets with
      | nil =>
          rw [hpoint] at hsending
          cases hsending
      | cons m ms =>
          cases hp : (treeInit r size width).parentRank with
          | none => exact h
          | some p =>
              have hunsent : ∀ b, Sync.unsent { x.st r with
                  point := if ms = [] then .returned else .send ms } (treeInit r size width) b =
                    if b = p then ms else [] := by
                intro b
                cases ms with
                | nil => simp [Sync.unsent]
                | cons m' ms => simp [Sync.unsent, hp, eq_comm]
              have hold : ∀ b, (x.st r).unsent (treeInit r size width) b =
                  if b = p then m :: ms else [] := by
                intro b
                simp [Sync.unsent, hpoint, hp, eq_comm]
              have hgot : ∀ a, Sync.got { x.st r with
                  point := if ms = [] then .returned else .send ms } (treeInit r size width) a =
                    [] := by
                intro a
                cases ms <;> simp [Sync.got]
              have hended : Sync.ended { x.st r with
                  point := if ms = [] then .returned else .send ms } = true := by
                cases ms <;> simp [Sync.ended]
              have hended' : (x.st r).ended = true := by
                simp [Sync.ended, hpoint]
              have hmoved : ∀ a b, x.net.push r p m a b ++ ((x.set r { x.st r with
                  point := if ms = [] then .returned else .send ms }).st a).unsent
                    (treeInit a size width) b =
                  x.net a b ++ (x.st a).unsent (treeInit a size width) b := by
                intro a b
                by_cases ha : a = r
                · subst ha
                  rw [hold, show ((x.set a _).st a) = _ from Function.update_self .., hunsent]
                  by_cases hb : b = p
                  · subst hb
                    simp
                  · simp [Chan.push_ne, hb]
                · rw [Chan.push_ne _ _ fun hab => ha hab.1]
                  simp [set, Function.update_of_ne ha]
              refine h.same hr (fun a b => ?_) (fun a b => ?_) (fun _ => hended.trans hended'.symm)
                rfl ?_ rfl rfl ⟨?_, ?_, fun _ => (h.ok r).children_le hended', ?_, ?_⟩
              · have hsame : ((x.set r { x.st r with
                    point := if ms = [] then .returned else .send ms }).st b).got
                      (treeInit b size width) a = (x.st b).got (treeInit b size width) a := by
                  by_cases hb : b = r
                  · subst hb
                    rw [show ((x.set b _).st b) = _ from Function.update_self .., hgot]
                    simp [Sync.got, hpoint]
                  · simp [set, Function.update_of_ne hb]
                rw [report, report, List.append_assoc, List.append_assoc]
                exact congr (congrArg _ hsame) (hmoved a b)
              · exact congrArg (x.received a b ++ ·) (hmoved a b)
              · cases ms <;> simp [Sync.partialResult, hpoint]
              · cases ms <;> simp
              · cases ms <;> simp
              · cases ms <;> simp
              · simp [hp]

theorem inv_next (h : x.Inv (rankTree size width hs hw) op size width sent)
    (he : x.Enabled op size width e) :
    ∃ sent', (x.next size width e).Inv (rankTree size width hs hw) op size width sent' := by
  cases e with
  | enter r left count calls => exact ⟨sent, inv_enter h he⟩
  | header r calls => exact ⟨sent, inv_header h he⟩
  | data r calls => exact ⟨sent, inv_data h he⟩
  | report r calls => exact inv_report h he
  | send r => exact ⟨sent, inv_send h he⟩

theorem inv_start :
    start.Inv (rankTree size width hs hw) op size width fun _ => (0, []) := by
  refine ⟨?_, fun _ _ => .inl rfl, fun _ _ => rfl, fun _ hr => absurd rfl hr, fun _ =>
    ⟨fun _ => rfl, by simp [start], by simp [start, Sync.ended], by simp [start], by simp [start]⟩⟩
  exact Wave.folds_initial (fun _ => rfl) (fun _ => rfl) (fun _ => rfl) fun _ _ => rfl

theorem inv_of_run {es : List Step}
    (h : ∃ sent, x.Inv (rankTree size width hs hw) op size width sent)
    (hrun : (syncReduction op size width).Run x es z) :
    ∃ sent, z.Inv (rankTree size width hs hw) op size width sent :=
  hrun.invariant (I := fun x => ∃ sent, x.Inv (rankTree size width hs hw) op size width sent)
    (fun _ _ ⟨_, h⟩ he => inv_next h he) h

/-! ## The end of the reduction -/

/-- All ranks have returned. -/
def Over (size : Nat) (x : SyncNet) : Prop := ∀ r, r < size → (x.st r).point = .returned

theorem Inv.replies_of_over (h : x.Inv (rankTree size width hs hw) op size width sent)
    (hret : x.Over size) (hr : r < size) :
    (x.wave size width).replies r = ((rankTree size width hs hw).children r).length := by
  refine Nat.le_antisymm ?_ ((h.ok r).children_le (by simp [Sync.ended, hret r hr]))
  rw [h.folds.wave.replies_eq r]
  exact List.countP_le_length

/-- No message is left over. -/
theorem Inv.net_of_over (h : x.Inv (rankTree size width hs hw) op size width sent)
    (hret : x.Over size) (a b : Rank) : x.net a b = [] := by
  have hquiet : ∀ p c, c ∈ (rankTree size width hs hw).children p →
      x.report size width c p = [] ∧ x.report size width p c = [] := by
    intro p c hc
    have hp := (rankTree size width hs hw).node_parent c p
      ((rankTree size width hs hw).node_of_mem hc) ((rankTree size width hs hw).parent_of_mem hc)
    have hcount := h.folds.wave.counted_of_replies (h.replies_of_over hret hp) c hc
    obtain ⟨_, _, hup, hdown⟩ := h.folds.wave.quiet_of_counted hc hcount
    exact ⟨box_eq_nil.mp hup, box_eq_nil.mp hdown⟩
  have hnil : x.report size width a b = [] := by
    by_cases hb : b ∈ (rankTree size width hs hw).children a
    · exact (hquiet a b hb).2
    · by_cases ha : a ∈ (rankTree size width hs hw).children b
      · exact (hquiet b a ha).1
      · exact box_eq_nil.mp (h.folds.wave.off_tree a b hb ha)
  rw [report, List.append_eq_nil_iff, List.append_eq_nil_iff] at hnil
  exact hnil.1.2

/-- Every rank has received the folds of its children. -/
theorem Inv.received_of_over (h : x.Inv (rankTree size width hs hw) op size width sent)
    (hret : x.Over size) (a b : Rank) :
    x.received a b = if a ∈ (treeInit b size width).childRanks then
      packets ((rankTree size width hs hw).fold x.own (combineResults op) (rankTree_wf hs hw) a)
      else [] := by
  have hlog := h.log a b
  rw [h.net_of_over hret, List.nil_append] at hlog
  by_cases ha : a < size
  · have hpoint := hret a ha
    have hended : (x.st a).ended = true := by simp [Sync.ended, hpoint]
    rw [show (x.st a).unsent (treeInit a size width) b = [] by simp [Sync.unsent, hpoint],
      List.append_nil] at hlog
    rw [hlog]
    simp only [hended, true_and, mem_childRanks hw, ha]
    split
    next hp =>
      have hup : (x.wave size width).up a = true := by
        simp [wave, hended, hp]
      rw [h.folds.sent_eq_fold (rankTree_wf hs hw) (.inl hup)]
    next => rfl
  · have hpoint : (x.st a).point = .outside := by
      by_contra hne
      exact ha (h.node a hne)
    rw [if_neg fun hmem => ha ((mem_childRanks hw).mp hmem).1]
    simpa [Sync.ended, Sync.unsent, hpoint] using hlog

/-- The root ends with the fold. -/
theorem Inv.root_of_over (h : x.Inv (rankTree size width hs hw) op size width sent)
    (hret : x.Over size) :
    x.results 0 =
      (rankTree size width hs hw).fold x.own (combineResults op) (rankTree_wf hs hw) 0 := by
  refine h.folds.acc_eq_fold (rankTree_wf hs hw) ?_ (h.replies_of_over hret hs)
  simp [Wave.Reported, wave]

end SyncNet

/-- The final reduction folds every rank once.  When all ranks have returned, the root has the sum
of the counts, and `reduce_fini` was called with the fold of the buffers, in which every rank
combines its own with those of its children from left to right.  Every rank has received one
header and one data message of each child, with the folds of the child, and no message is in
flight. -/
theorem sync_reduction_folds {op : ReduceOp} {x : SyncNet} {es : List SyncNet.Step}
    (hs : 0 < size) (hw : 0 < width) (hrun : (syncReduction op size width).Run .start es x)
    (hret : ∀ r, r < size → (x.st r).point = .returned) :
    ∃ (counts : Rank → Int) (bufs : Rank → List UInt8),
      (∀ r, bufs r = (treeInit r size width).childRanks.foldl
        (fun cur c => op.op r c cur (bufs c)) (x.st r).initial) ∧
      (∀ r, counts r = (treeInit r size width).childRanks.foldl
        (fun total c => total + counts c) (x.st r).count) ∧
      (x.st 0).total = ∑ r ∈ Finset.range size, (x.st r).count ∧
      (x.st 0).result = some ⟨some (bufs 0), (bufs 0).length⟩ ∧
      (∀ a b, x.received a b = if a ∈ (treeInit b size width).childRanks then
        [.header true (counts a) (bufs a).length, .data (bufs a)] else []) ∧
      ∀ a b, x.net a b = [] := by
  have hstart : ∃ sent, SyncNet.start.Inv (rankTree size width hs hw) op size width sent :=
    ⟨_, SyncNet.inv_start⟩
  obtain ⟨sent, h⟩ := SyncNet.inv_of_run hstart hrun
  have hwf := rankTree_wf hs hw
  have hfst : ∀ r, ((rankTree size width hs hw).fold x.own (SyncNet.combineResults op) hwf r).1 =
      (rankTree size width hs hw).fold (fun r => (x.st r).count) (fun _ _ => (· + ·)) hwf r :=
    (rankTree size width hs hw).map_fold hwf Prod.fst fun _ _ _ _ => rfl
  have hsnd : ∀ r, ((rankTree size width hs hw).fold x.own (SyncNet.combineResults op) hwf r).2 =
      (rankTree size width hs hw).fold (fun r => (x.st r).initial) op.op hwf r :=
    (rankTree size width hs hw).map_fold hwf Prod.snd fun _ _ _ _ => rfl
  have hroot := h.root_of_over hret
  obtain ⟨buf, hresult⟩ := (h.ok 0).result rfl (hret 0 hs)
  have hvalue : x.results 0 = ((x.st 0).total, buf) := by
    simp [SyncNet.results, Sync.partialResult, hret 0 hs, hresult, ReduceInput.bytes]
  rw [hvalue] at hroot
  refine ⟨(rankTree size width hs hw).fold (fun r => (x.st r).count) (fun _ _ => (· + ·)) hwf,
    (rankTree size width hs hw).fold (fun r => (x.st r).initial) op.op hwf,
    (rankTree size width hs hw).fold_eq hwf, (rankTree size width hs hw).fold_eq hwf, ?_, ?_,
    fun a b => ?_, h.net_of_over hret⟩
  · rw [← (rankTree size width hs hw).fold_add hwf fun r => Finset.mem_range]
    exact (congrArg Prod.fst hroot).trans (hfst 0)
  · rw [hresult, show buf = _ from (congrArg Prod.snd hroot).trans (hsnd 0)]
  · rw [h.received_of_over hret, packets, hfst, hsnd]

/-- `reduce_op` appends, as far as the size allows. -/
def appendOp : ReduceOp where
  op _ _ cur inb := (cur ++ inb).take int32Max
  sized := by
    intro _ _ cur inb hcur hinb
    rw [Sized, List.length_take, List.length_append]
    obtain ⟨hpos, _⟩ := hcur
    have hmax : int32Max = 2 ^ 31 - 1 := rfl
    omega

/-- Two ranks report to the root while it has not been called, with data left there. -/
def twoReports : List SyncNet.Step :=
  [.enter 2 {} 30 [.reduce [3]], .report 2 [], .send 2, .enter 1 {} 20 [.reduce [2, 2]],
    .enter 0 { total := 7, input := ⟨none, 5⟩ } 10 [.reduce [9], .reduce [1]], .report 1 [],
    .send 1, .header 0 [], .send 1, .send 2, .data 0 [.reduce [1, 2, 2]], .header 0 [],
    .data 0 [.reduce [1, 2, 2, 3]], .report 0 []]

theorem sync_reduction_folds_twoReports :
    let x := (syncReduction appendOp 3 2).follow .start twoReports
    (x.st 0).total = 60 ∧ (x.st 0).result = some ⟨some [1, 2, 2, 3], 4⟩ ∧
      ∀ a b, x.net a b = [] :=
  have hrun : (syncReduction appendOp 3 2).Run .start twoReports
      ((syncReduction appendOp 3 2).follow .start twoReports) :=
    .of_admits (by decide +kernel)
  have h := sync_reduction_folds (by decide) (by decide) hrun (by decide +kernel)
  ⟨by
    obtain ⟨_, _, _, _, hsum, _⟩ := h
    rw [hsum]
    decide +kernel,
    by decide +kernel, by
    obtain ⟨_, _, _, _, _, _, _, hnet⟩ := h
    exact hnet⟩

end Libcircle
