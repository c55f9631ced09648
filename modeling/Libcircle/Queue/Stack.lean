import Libcircle.Lib.Runs
import Libcircle.Queue.Transfer
import Libcircle.Queue.Checkpoint

/-!
# The queue is a stack of strings

Over a list of items, top first, a push adds an item, a pop takes it off, a
transfer takes some more off the top or fills an empty stack, and a checkpoint
adds what it reads (`StackStep`).  Whatever the operations on a queue return,
and in whatever order they come, a stack returns the same, and the queue holds
the items of the stack (`queue_refines_stack`).

The proof is one simulation, whose relation is `Queue.Holds`.
-/

namespace Libcircle

/-! ## Operations -/

/-- An operation on the queue of a rank, with what the system decides in it. -/
inductive StackOp where
  /-- `CIRCLE_internal_queue_push`. -/
  | push (env : GrowEnv) (str : Option Item)
  /-- `CIRCLE_internal_queue_pop`. -/
  | pop
  /-- `CIRCLE_send_work`. -/
  | send (count : Nat)
  /-- `CIRCLE_work_receive`, once its first message is in `recv`. -/
  | receive (env : GrowEnv) (recv : Block Int) (items : Nat) (data : List UInt8)
  /-- `CIRCLE_internal_queue_read`. -/
  | read (env : ReadEnv) (files : Files) (rank : Int)

/-- What an operation returns; `false` is a negative value. -/
inductive StackOut where
  | pushed (ok : Bool)
  | popped (str : Option Item)
  | sent (m : Sent)
  | received (ok : Bool)
  | read (ok : Bool)
deriving DecidableEq

namespace Queue

/-- One operation; it has no result if it accesses memory outside the blocks of the queue. -/
def step (q : Queue) : StackOp → Option (StackOut × Queue)
  | .push env str => (q.push env str).map fun (ok, q) => (.pushed ok, q)
  | .pop => q.pop.map fun (str, q) => (.popped str, q)
  | .send count => (q.sendWork count).map fun (m, q) => (.sent m, q)
  | .receive env recv items data =>
      (q.receiveItems env recv items data).map fun (ok, q) => (.received ok, q)
  | .read env files rank => (q.read env files rank).map fun (ok, q) => (.read ok, q)

end Queue

/-- The messages `m` are in the receive buffers of `CIRCLE_work_receive`. -/
structure WorkMessage.InBuffer (m : WorkMessage) (recv : Block Int) : Prop where
  size_le : m.offsets.length ≤ recv.size
  cell_eq : ∃ c, recv.cell = overwrite c 0 m.offsets

/-- The number of items a read pushes. -/
def fileCount (files : Files) (rank : Int) : Nat :=
  ((files (filename rank)).map fun text => (textItems text).length).getD 0

/-- The operations the queue is for.  Allocation succeeds, and no more than `2 ^ 31 - 4096` items
are held. -/
def StackOp.Allowed (q : Queue) : StackOp → Prop
  | .push env str =>
      (env.strings = true ∧ env.base = true) ∧ ∀ s ∈ str, s.length < 2 ^ 32 - 1 ∧
        (s.length < maxStringLen → q.count < maxCapacity)
  | .pop => True
  | .send count => 1 ≤ count ∧ count < q.count
  | .receive env recv items data =>
      (env.strings = true ∧ env.base = true) ∧ q.count = 0 ∧
        ∃ m l, WorkMessage.Encodes m l ∧ m.InBuffer recv ∧ items = l.length ∧ data = m.buf ∧
          items ≤ maxCapacity
  | .read env files rank => env.Ok ∧ q.count + fileCount files rank ≤ maxCapacity

/-- An operation on a queue with what it returns. -/
def Queue.Step (q : Queue) (e : StackOp × StackOut) (q' : Queue) : Prop :=
  e.1.Allowed q ∧ q.step e.1 = some (e.2, q')

/-! ## The stack -/

/-- The same operations on a stack of strings, the top first. -/
inductive StackStep : List Item → StackOp × StackOut → List Item → Prop where
  /-- A string that is not too long is accepted. -/
  | push {env : GrowEnv} {s : Item} {l : List Item} (h : s.length < maxStringLen) :
      StackStep l (.push env (some s), .pushed true) (s :: l)
  /-- A string that is too long is rejected. -/
  | reject {env : GrowEnv} {s : Item} {l : List Item} (h : maxStringLen ≤ s.length) :
      StackStep l (.push env (some s), .pushed false) l
  | null {env : GrowEnv} {l : List Item} : StackStep l (.push env none, .pushed false) l
  /-- The top, which is the item added last of those still held. -/
  | pop {s : Item} {l : List Item} : StackStep (s :: l) (.pop, .popped (some s)) l
  | popEmpty : StackStep [] (.pop, .popped none) []
  /-- Some of the items from the top on, but not all. -/
  | send {count c : Nat} {m : WorkMessage} {l : List Item} (hc : 1 ≤ c) (hle : c ≤ count)
      (hlt : count < l.length) (h : m.Encodes (l.take c)) :
      StackStep l (.send count, .sent (.work m)) (l.drop c)
  | receive {env : GrowEnv} {recv : Block Int} {m : WorkMessage} {l : List Item}
      (h : m.Encodes l) :
      StackStep [] (.receive env recv l.length m.buf, .received true) l
  | read {env : ReadEnv} {files : Files} {rank : Int} {text : List UInt8} {l : List Item}
      (h : files (filename rank) = some text) :
      StackStep l (.read env files rank, .read true) ((textItems text).reverse ++ l)
  | readNone {env : ReadEnv} {files : Files} {rank : Int} {l : List Item}
      (h : files (filename rank) = none) : StackStep l (.read env files rank, .read false) l

/-! ## The representation invariant -/

/-- The representation invariant, field by field. -/
structure Queue.WellFormed (q : Queue) (l : List Item) : Prop where
  count_eq : q.count = l.length
  count_le : q.count ≤ q.strCount
  head_le : q.head ≤ q.bytes
  head_eq_zero : q.count = 0 → q.head = 0
  blocks : ∃ b a, q.base = some b ∧ b.size = q.bytes ∧ q.strings = some a ∧ a.size = q.strCount ∧
    (0 < q.count → a.cell 0 = 0) ∧ (∀ i, i + 1 < q.count → a.cell i < a.cell (i + 1)) ∧
    ∀ i, i < q.count → ∃ s, l.reverse[i]? = some s ∧ b.str (a.cell i) = some s ∧
      a.cell i + s.length + 1 ≤ if i + 1 < q.count then a.cell (i + 1) else q.head

namespace Queue

variable {q q' : Queue} {l : List Item} {op : StackOp} {e : StackOp × StackOut}

theorem Holds.wellFormed (h : q.Holds l) : q.WellFormed l := by
  obtain ⟨b, a, h⟩ := h
  refine ⟨h.count_eq, h.count_le, h.head_le, fun h0 => ?_, b, a, h.base, h.bytes_eq.symm,
    h.strings, h.strCount_eq.symm, fun hpos => ?_, fun i hi => ?_, fun i hi => ?_⟩
  · obtain rfl := List.length_eq_zero_iff.mp (h.count_eq.symm.trans h0)
    exact h.packed
  · rw [h.count_eq] at hpos
    exact h.packed.off_zero (List.length_pos_iff.mp hpos)
  · rw [h.count_eq] at hi
    exact h.packed.off_lt hi
  · rw [h.count_eq] at hi ⊢
    obtain ⟨s, hget, hstr, hle⟩ := h.packed.str_at hi
    refine ⟨s, hget, Block.str_eq_some_iff.mpr ⟨hstr, ?_⟩, hle⟩
    have hhead := h.head_le.trans_eq h.bytes_eq
    split at hle
    next hlt =>
      have := h.packed.off_lt_head hlt
      omega
    next => omega

/-! ## Refinement -/

/-- Every operation has a result, and the stack has the same. -/
theorem Holds.step (h : q.Holds l) (hop : op.Allowed q) :
    ∃ out q' l', q.step op = some (out, q') ∧ StackStep l (op, out) l' ∧ q'.Holds l' := by
  have hcount := h.count_eq
  cases op with
  | push env str =>
      obtain ⟨henv, hstr⟩ := hop
      cases str with
      | none => exact ⟨_, q, l, rfl, .null, h⟩
      | some s =>
          obtain ⟨hlen, hroom⟩ := hstr s rfl
          rcases Nat.lt_or_ge s.length maxStringLen with hs | hs
          · obtain ⟨q', hpush, h'⟩ := h.push henv hs (hcount ▸ hroom hs)
            exact ⟨_, q', s :: l, congrArg (Option.map _) hpush, .push hs, h'⟩
          · exact ⟨_, q, l, congrArg (Option.map _) (push_long hs (by omega)), .reject hs, h⟩
  | pop =>
      cases l with
      | nil => exact ⟨_, q, [], congrArg (Option.map _) h.pop_nil, .popEmpty, h⟩
      | cons s l =>
          obtain ⟨q', hpop, h'⟩ := h.pop
          exact ⟨_, q', l, congrArg (Option.map _) hpop, .pop, h'⟩
  | send count =>
      obtain ⟨hpos, hlt⟩ := hop
      rw [hcount] at hlt
      obtain ⟨c, m, q', k, hsend, hc, hle, _, _, hm, h'⟩ := h.sendWork hpos hlt
      exact ⟨_, q', l.drop c, congrArg (Option.map _) hsend, .send hc hle hlt hm, h'⟩
  | receive env recv items data =>
      obtain ⟨henv, hempty, m, l', hm, ⟨hsize, c, hcell⟩, rfl, rfl, hle⟩ := hop
      obtain rfl := List.length_eq_zero_iff.mp (hcount.symm.trans hempty)
      obtain ⟨q', hreceive, h'⟩ := h.receiveItems (c := c) hm hle henv hsize
      obtain ⟨size, cell⟩ := recv
      obtain rfl : cell = _ := hcell
      exact ⟨_, q', l', congrArg (Option.map _) hreceive, .receive hm, h'.holds⟩
  | read env files rank =>
      obtain ⟨henv, hroom⟩ := hop
      cases hfile : files (filename rank) with
      | none => exact ⟨_, q, l, congrArg (Option.map _) (read_none hfile), .readNone hfile, h⟩
      | some text =>
          rw [fileCount, hfile, hcount, Nat.add_comm] at hroom
          obtain ⟨q', hread, h'⟩ := h.read henv hfile hroom
          exact ⟨_, q', _, congrArg (Option.map _) hread, .read hfile, h'⟩

theorem Holds.simulates (h : q.Holds l) (he : q.Step e q') :
    ∃ l', StackStep l e l' ∧ q'.Holds l' := by
  obtain ⟨op, out⟩ := e
  obtain ⟨out', q'', l', hstep, hstack, h'⟩ := h.step he.1
  obtain ⟨rfl, rfl⟩ := Prod.mk.inj (Option.some.inj (hstep.symm.trans he.2))
  exact ⟨l', hstack, h'⟩

/-- The queue refines a stack of strings: after any sequence of operations from
`CIRCLE_internal_queue_init`, a stack has returned the same results, the queue is well formed and
holds the items of the stack, and every operation allowed now has a result. -/
theorem queue_refines_stack {bytes : Nat → UInt8} {offsets : Nat → Nat}
    {es : List (StackOp × StackOut)} (h : LabelledPath Queue.Step (init bytes offsets) es q) :
    ∃ l, LabelledPath StackStep [] es l ∧ q.WellFormed l ∧
      ∀ op : StackOp, op.Allowed q → ∃ out q', q.step op = some (out, q') := by
  obtain ⟨l, hpath, hl⟩ := h.simulate Holds.simulates (holds_init bytes offsets)
  refine ⟨l, hpath, hl.wellFormed, fun op hop => ?_⟩
  obtain ⟨out, q', _, hstep, _⟩ := hl.step hop
  exact ⟨out, q', hstep⟩

/-! ## A run -/

/-- The queue after an operation. -/
def after (q : Queue) (op : StackOp) : Queue := ((q.step op).map Prod.snd).getD q

theorem Step.after {out : StackOut} (hop : op.Allowed q)
    (hout : (q.step op).map Prod.fst = some out) : q.Step (op, out) (q.after op) := by
  obtain ⟨⟨out', q'⟩, hstep, rfl⟩ := Option.map_eq_some_iff.mp hout
  exact ⟨hop, by rw [Queue.after, hstep, Option.map_some, Option.getD_some]⟩

theorem allowed_push {s : Item} (hs : s.length < maxStringLen) (hroom : q.count < maxCapacity) :
    (StackOp.push {} (some s)).Allowed q :=
  ⟨⟨rfl, rfl⟩, fun _ h => by
    obtain rfl := Option.some.inj h
    exact ⟨hs.trans (by decide), fun _ => hroom⟩⟩

/-- The messages that carry the words `bb` and `ccc`. -/
def sentWords : WorkMessage := ⟨[2, 7, 0, 3], [98, 98, 0, 99, 99, 99, 0]⟩

theorem sentWords_encodes :
    sentWords.Encodes [CStr.ofBuffer [99, 99, 99], CStr.ofBuffer [98, 98]] where
  nonempty := List.cons_ne_nil _ _
  short := by decide
  buf_le := by decide
  packed := ⟨fun i => 3 * i, rfl, by
    simp [Packed, StrAt, CStr.ofBuffer, CStr.length, sentWords]⟩

/-- Of three words two are sent.  The other one is popped, the two come back into the empty queue,
and a file adds two more. -/
def wordRun : List (StackOp × StackOut) :=
  [(.push .ok (some (CStr.ofBuffer [97])), .pushed true),
    (.push .ok (some (CStr.ofBuffer [98, 98])), .pushed true),
    (.push .ok (some (CStr.ofBuffer [99, 99, 99])), .pushed true),
    (.send 2, .sent (.work sentWords)),
    (.pop, .popped (some (CStr.ofBuffer [97]))),
    (.pop, .popped none),
    (.receive .ok ⟨4, overwrite (fun _ => 0) 0 sentWords.offsets⟩ 2 sentWords.buf, .received true),
    (.read { grow := fun _ => .ok } (fun _ => some [100, 10, 101, 101, 10]) 0, .read true),
    (.pop, .popped (some (CStr.ofBuffer [101, 101]))),
    (.pop, .popped (some (CStr.ofBuffer [100]))),
    (.pop, .popped (some (CStr.ofBuffer [99, 99, 99])))]

theorem queue_refines_stack_wordRun :
    ∃ q l, LabelledPath StackStep [] wordRun l ∧ Queue.WellFormed q l := by
  have hpath : ∃ q, LabelledPath Queue.Step (init (fun _ => 0) (fun _ => 0)) wordRun q :=
    ⟨_, .cons (.after (allowed_push (by decide) (by decide)) (by decide +kernel)) <|
      .cons (.after (allowed_push (by decide) (by decide +kernel)) (by decide +kernel)) <|
      .cons (.after (allowed_push (by decide) (by decide +kernel)) (by decide +kernel)) <|
      .cons (.after ⟨by decide, by decide +kernel⟩ (by decide +kernel)) <|
      .cons (.after trivial (by decide +kernel)) <|
      .cons (.after trivial (by decide +kernel)) <|
      .cons (.after ⟨⟨rfl, rfl⟩, by decide +kernel, sentWords, _, sentWords_encodes,
        ⟨by decide, _, rfl⟩, rfl, rfl, by decide⟩ (by decide +kernel)) <|
      .cons (.after ⟨⟨rfl, fun _ => ⟨rfl, rfl⟩, rfl⟩, by decide +kernel⟩ (by decide +kernel)) <|
      .cons (.after trivial (by decide +kernel)) <|
      .cons (.after trivial (by decide +kernel)) <|
      .cons (.after trivial (by decide +kernel)) (.nil _)⟩
  obtain ⟨q, hpath⟩ := hpath
  obtain ⟨l, hl, hwf, _⟩ := queue_refines_stack hpath
  exact ⟨q, l, hl, hwf⟩

end Queue

end Libcircle
