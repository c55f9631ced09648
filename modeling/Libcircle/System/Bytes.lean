import Libcircle.Model.Store
import Libcircle.Queue.Checkpoint
import Libcircle.Queue.Transfer
import Libcircle.System.Conservation

/-!
# The bytes of a run

`Job.bytes` is the system with the bytes of all ranks.  It takes the events that the
source takes with these bytes: the back-off of a transfer is that of
`CIRCLE_send_work`, and the callbacks enqueue only strings that a queue accepts, on
queues that are not full.

In every run the store holds the items of the system (`Store.Refines`): each queue in
its blocks, each reply in its message, each checkpoint in its file.  So no function
on a queue leaves a block, follows a null pointer or overflows, and each returns what
the item-level model says (`bytes_refine_items`).
-/

namespace Libcircle

/-! ## File names -/

theorem filename_injective {r x : Rank} (h : filename r = filename x) : r = x := by
  have hdigits : (toString (r : Int)) = toString (x : Int) :=
    (String.append_right_inj _).mp ((String.append_left_inj _).mp h)
  have hlist : Nat.toDigits 10 r = Nat.toDigits 10 x := by
    rw [← Nat.toList_repr, ← Nat.toList_repr]
    exact congrArg String.toList hdigits
  rw [← Nat.ofDigitChars_ten_toDigits (n := r), hlist, Nat.ofDigitChars_ten_toDigits]

/-! ## The system -/

/-- The largest number of items a queue may have so that a transfer of all of them is received. -/
def maxItems : Nat := maxCapacity - 2

/-- The library calls of a callback that do their work.  `CIRCLE_enqueue` has no such guard: it
reports a string that is too long, and overflows on a queue of `2 ^ 31 - 4096` items. -/
def calls : EventSystem (CallbackState Item) (WorkOp Item) where
  Enabled c
    | .enqueue x => x.length < maxStringLen ∧ c.queue.length < maxItems
    | _ => True
  next := CallbackState.call

instance : ∀ c op, Decidable (calls.Enabled c op)
  | _, .enqueue _ => inferInstanceAs (Decidable (_ ∧ _))
  | _, .dequeue | _, .abort => .isTrue trivial

/-- The bytes decide about the event as the source does. -/
def Store.Takes (m : Store) (s : Sys Item) : Event Item → Prop
  | .begin r _ ops | .process r ops => calls.Admits (s.callbackState r) ops
  | .sendWork r count => count = (m.queue r).sentCount (planned r s)
  | _ => True

instance (m : Store) (s : Sys Item) : ∀ e, Decidable (m.Takes s e)
  | .begin .. | .process .. => inferInstanceAs (Decidable (calls.Admits _ _))
  | .sendWork .. => inferInstanceAs (Decidable (_ = _))
  | .workreq .. | .workreqDone .. | .sendNoWork .. | .workreceipt .. | .workreceiptDone ..
  | .worksend .. | .worksendDone .. | .abortStart .. | .abortRequest .. | .abortReplies ..
  | .reduceSkip .. | .reduceResume .. | .reduceBegin .. | .reduceReply .. | .reduceDone ..
  | .requestSkip .. | .requestReply .. | .requestSend .. | .requestNone .. | .checkForTerm ..
  | .termReply .. | .termRepliesDone .. | .termUp .. | .termDown .. | .token ..
  | .barrierStart .. | .barrierReply .. | .barrierUp .. | .barrierDown .. | .tokenDrain ..
  | .worksendWait .. | .reduceSync .. | .reduceSyncReply .. | .reduceSyncDone ..
  | .abortReduceReply .. | .abortReduceUp .. | .abortReduceDown .. | .finish .. =>
      .isTrue trivial

/-- The system with the bytes of all ranks. -/
def Job.bytes (job : Job) (env : GrowEnv) : EventSystem (Sys Item × Store) (Event Item) where
  Enabled x e := x.1.Enabled job e ∧ x.2.Takes x.1 e
  next x e := (x.1.next job e, (x.2.next env x.1 e).getD x.2)

instance (job : Job) (env : GrowEnv) (x : Sys Item × Store) (e : Event Item) :
    Decidable ((job.bytes env).Enabled x e) := inferInstanceAs (Decidable (_ ∧ _))

/-! ## What the bytes stand for -/

/-- The queue holds the items of `l`, the last on top. -/
def Queue.Stores (q : Queue) (l : List Item) : Prop := q.Holds l.reverse ∧ l.length ≤ maxItems

/-- The message of a reply. -/
def Carries (msg : WorkMessage) : Reply Item → Prop
  | .noWork => msg = noWorkMessage false
  | .abort => msg = noWorkMessage true
  | .items _ l => msg.Encodes l.reverse ∧ l.length ≤ maxItems

/-- What `CIRCLE_work_receive` finds in a reply. -/
def Reply.received {α : Type*} : Reply α → Received
  | .noWork => .noWork
  | .abort => .abort
  | .items _ _ => .work

/-- `r` has checkpointed the queues of `ls r`, the top first. -/
structure Store.Saves (m : Store) (job : Job) (files : Files) (s : Sys Item)
    (ls : Rank → List (List Item)) : Prop where
  file : ∀ r : Rank, m.files (filename r) = Queue.checkpointed r (ls r) files (filename r)
  total : (s.checkpointed : Multiset Item) =
    ∑ r ∈ Finset.range job.size, ((ls r).flatten : Multiset Item)
  room : ∀ r, ∀ l ∈ ls r, l.length ≤ maxItems
  /-- One checkpoint in each invocation, at its end. -/
  length_le : ∀ r, (ls r).length ≤ s.inv r
  length_lt : ∀ r, s.pc r ≠ .idle → (ls r).length < s.inv r

/-- The queues and the replies in bytes. -/
structure Store.Holds (m : Store) (w : WorkNet Item) : Prop where
  queue : ∀ r, (m.queue r).Stores (w.queue r)
  replies : Chan.Related Carries m.replies w.replies

/-- The store holds the items of `s`, where `files` are the files at the start. -/
structure Store.Refines (m : Store) (job : Job) (files : Files) (s : Sys Item) : Prop where
  holds : m.Holds s.work
  dequeued : m.dequeued = s.dequeued
  offsets : ∀ r, s.pc r ≠ .idle → ∃ b, (m.offsets r).Ok b
  saves : ∃ ls, m.Saves job files s ls

variable {job : Job} {s t : Sys Item} {m : Store} {e : Event Item} {r d : Rank} {env : GrowEnv}
  {files : Files} {q : Queue} {l : List Item} {ops : List (WorkOp Item)} {w : WorkNet Item}

/-- A queue and its items change together. -/
theorem stores_update {f : Rank → Queue} {g : Rank → List Item} (h : ∀ x, (f x).Stores (g x))
    (hq : q.Stores l) (x : Rank) :
    (Function.update f r q x).Stores (Function.update g r l x) := by
  by_cases hx : x = r
  · subst hx
    rwa [Function.update_self, Function.update_self]
  · rw [Function.update_of_ne hx, Function.update_of_ne hx]
    exact h x

/-! ## Callbacks -/

/-- The store after a part of a callback on `r`, from `m₀`. -/
def Store.Mirrors (m₀ m : Store) (r : Rank) (c : CallbackState Item) : Prop :=
  ∃ q, m = { m₀.setQueue r q with dequeued := c.dequeued } ∧ q.Stores c.queue

theorem Store.Mirrors.call {m₀ : Store} {c : CallbackState Item} {op : WorkOp Item}
    (henv : env.strings = true ∧ env.base = true) (h : m₀.Mirrors m r c)
    (he : calls.Enabled c op) :
    ∃ m', m.call env r op = some m' ∧ m₀.Mirrors m' r (c.call op) := by
  obtain ⟨q, rfl, hq, hroom⟩ := h
  have hself : (Function.update m₀.queue r q) r = q := Function.update_self ..
  cases op with
  | enqueue x =>
      have hlt : c.queue.reverse.length < maxCapacity := by
        rw [List.length_reverse]
        exact he.2.trans_le (Nat.sub_le _ _)
      obtain ⟨q', hpush, hq'⟩ := hq.push henv he.1 hlt
      refine ⟨_, ?_, q', rfl, ?_, ?_⟩
      · simp only [Store.call, Store.setQueue, hself, hpush, Function.update_idem]
        rfl
      · rwa [show (c.call (.enqueue x)).queue = c.queue ++ [x] from rfl, List.reverse_append]
      · exact (List.length_append ..).trans_le he.2
  | dequeue =>
      have hqueue : (c.call .dequeue).queue = c.queue.dropLast := rfl
      have hdequeued : (c.call .dequeue).dequeued = c.dequeued ++ c.queue.getLast?.toList := rfl
      cases hl : c.queue using List.reverseRecOn with
      | nil =>
          rw [hl] at hq
          refine ⟨_, ?_, q, rfl, ?_, ?_⟩
          · simp [Store.call, Store.setQueue, Queue.Holds.pop_nil hq, hdequeued, hl]
          · rwa [hqueue, hl]
          · rw [hqueue, hl]
            exact Nat.zero_le _
      | append_singleton l x =>
          rw [hl, List.reverse_append] at hq
          obtain ⟨q', hpop, hq'⟩ := Queue.Holds.pop hq
          rw [hl, List.length_append] at hroom
          refine ⟨_, ?_, q', rfl, ?_, ?_⟩
          · simp [Store.call, Store.setQueue, hpop, hdequeued, hl]
          · rwa [hqueue, hl, List.dropLast_concat]
          · rw [hqueue, hl, List.dropLast_concat]
            exact Nat.le_of_succ_le hroom
  | abort => exact ⟨_, rfl, q, rfl, hq, hroom⟩

theorem Store.Mirrors.callback {m₀ : Store} {c : CallbackState Item}
    (henv : env.strings = true ∧ env.base = true) (h : m₀.Mirrors m r c)
    (hops : calls.Admits c ops) :
    ∃ m', m.callback env r ops = some m' ∧ m₀.Mirrors m' r (c.run ops) := by
  induction ops generalizing m c with
  | nil => exact ⟨m, rfl, h⟩
  | cons op ops ih =>
      obtain ⟨m₁, hcall, h₁⟩ := h.call henv hops.1
      obtain ⟨m', hrun, h'⟩ := ih h₁ hops.2
      exact ⟨m', by rw [Store.callback, List.foldlM_cons, hcall]; exact hrun, h'⟩

/-! ## Transfers -/

theorem Queue.Stores.sendWork {count : ℕ} (h : q.Stores l) (hpos : 1 ≤ count)
    (hlt : count < l.length) :
    ∃ msg q', q.sendWork count = some (.work msg, q') ∧ 1 ≤ q.sentCount count ∧
      msg.Encodes (l.drop (l.length - q.sentCount count)).reverse ∧
      q'.Stores (l.take (l.length - q.sentCount count)) := by
  have hlt' : count < l.reverse.length := by rwa [List.length_reverse]
  obtain ⟨msg, q', hsend, _, hmsg, hrest⟩ := h.1.sendWork_eq hpos hlt'
  rw [List.take_reverse] at hmsg
  rw [List.drop_reverse] at hrest
  exact ⟨msg, q', hsend, (h.1.sentCount_spec hpos hlt').1, hmsg, hrest,
    (List.length_take_le' ..).trans h.2⟩

theorem carries_noWork (abortFlag : Bool) :
    Carries (noWorkMessage abortFlag) (if abortFlag then .abort else .noWork) := by
  cases abortFlag <;> rfl

theorem Store.Holds.sendNoWork (h : m.Holds w) (abortFlag : Bool) :
    (m.sendNoWork r abortFlag d).Holds (w.sendNoWork abortFlag r d) where
  queue := h.queue
  replies := h.replies.push (carries_noWork abortFlag)

/-- The source sends as many items as the back-off leaves. -/
theorem Store.Holds.sendWork {count : ℕ} (h : m.Holds w) (hlt : count < (w.queue r).length)
    (abortFlag : Bool) (inv : ℕ) :
    ∃ queue replies, m.sendWork r abortFlag d count =
        some { m with queue := queue, replies := replies } ∧
      Holds { m with queue := queue, replies := replies }
        (w.sendWork abortFlag inv r d ((m.queue r).sentCount count)) := by
  rcases Nat.eq_zero_or_pos count with rfl | hpos
  · refine ⟨m.queue, m.replies.push r d (noWorkMessage abortFlag), rfl, ?_⟩
    rw [show (m.queue r).sentCount 0 = 0 from rfl, WorkNet.sendWork_zero]
    exact h.sendNoWork abortFlag
  · obtain ⟨msg, q', hsend, hc, hmsg, hrest⟩ := (h.queue r).sendWork hpos hlt
    refine ⟨Function.update m.queue r q', m.replies.push r d msg, ?_, ?_⟩
    · simp only [Store.sendWork, hsend]
      rfl
    · rw [WorkNet.sendWork, if_neg (Nat.ne_of_gt hc)]
      refine ⟨stores_update h.queue hrest, h.replies.push ⟨hmsg, ?_⟩⟩
      exact (List.drop_sublist ..).length_le.trans (h.queue r).2

/-- The first message of a transfer is received. -/
theorem OffsetsBuf.Ok.fill {o : OffsetsBuf} {b : Block Int} {msg : WorkMessage} (ho : o.Ok b)
    (hlen : msg.offsets.length ≤ maxCapacity) :
    ∃ o', o.extend true msg.offsets.length = some (true, o') ∧ o'.buf = some ⟨o'.count, b.cell⟩ ∧
      msg.offsets.length ≤ o'.count ∧
      Block.write ⟨o'.count, b.cell⟩ 0 msg.offsets =
        some ⟨o'.count, overwrite b.cell 0 msg.offsets⟩ ∧
      OffsetsBuf.Ok { o' with buf := some ⟨o'.count, overwrite b.cell 0 msg.offsets⟩ }
        ⟨o'.count, overwrite b.cell 0 msg.offsets⟩ := by
  obtain ⟨o', hextend, hle, hok⟩ := ho.extend hlen
  exact ⟨o', hextend, hok.buf, hle, Block.write_of_le (by rwa [Nat.zero_add]),
    { hok with buf := rfl, count_eq := rfl }⟩

/-- A message without items only says why. -/
theorem workReceive_noWork {o : OffsetsBuf} {b : Block Int} (ho : o.Ok b) (abortFlag : Bool) :
    ∃ o', q.workReceive env true o (noWorkMessage abortFlag) =
        some (if abortFlag then .abort else .noWork, o', q) ∧ ∃ b', o'.Ok b' := by
  have hlen : (noWorkMessage abortFlag).offsets.length ≤ maxCapacity :=
    show 1 ≤ maxCapacity by decide
  obtain ⟨o', hextend, hbuf, hle, hwrite, hok⟩ := ho.fill hlen
  refine ⟨_, ?_, _, hok⟩
  have hread : Block.read ⟨o'.count, overwrite b.cell 0 (noWorkMessage abortFlag).offsets⟩ 0 =
      some (if abortFlag then payloadAbort else 0) :=
    (Block.read_of_lt hle).trans (congrArg some (overwrite_mem (c := b.cell) (o := 0) (i := 0)
      (l := (noWorkMessage abortFlag).offsets) (Nat.succ_pos 0)))
  have hpos : ¬(noWorkMessage abortFlag).offsets.length ≤ 0 := Nat.not_succ_le_zero 0
  simp only [Queue.workReceive, hpos, if_false, hextend, hbuf, Option.bind_eq_bind,
    Option.bind_some, hwrite, hread]
  cases abortFlag <;> rfl

/-- The offset array stays as it has to be. -/
theorem workReceive_ok {o o' : OffsetsBuf} {b : Block Int} {msg : WorkMessage} {found : Received}
    {q' : Queue} (ho : o.Ok b) (hlen : msg.offsets.length ≤ maxCapacity)
    (h : q.workReceive env true o msg = some (found, o', q')) : ∃ b', o'.Ok b' := by
  obtain ⟨o₁, hextend, hbuf, _, hwrite, hok⟩ := ho.fill hlen
  unfold Queue.workReceive at h
  split at h
  next =>
    cases h
    exact ⟨b, ho⟩
  next =>
    simp only [hextend, hbuf, Option.bind_eq_bind, Option.bind_some, hwrite] at h
    obtain ⟨items, _, h⟩ := Option.bind_eq_some_iff.mp h
    repeat' split at h
    all_goals cases h
    all_goals exact ⟨_, hok⟩

/-- The oldest reply is received as what it carries. -/
theorem Store.Holds.receive {reply : Reply Item} {ms : List (Reply Item)}
    (henv : env.strings = true ∧ env.base = true) (h : m.Holds w)
    (hw : w.replies d r = reply :: ms) (hqueue : w.queue r = []) {b : Block Int}
    (ho : (m.offsets r).Ok b) :
    ∃ queue o, m.receive env r d = some (reply.received, { m with
        queue := queue, offsets := Function.update m.offsets r o,
        replies := m.replies.pop d r }) ∧
      (∃ b', o.Ok b') ∧
      Holds { m with
        queue := queue, offsets := Function.update m.offsets r o,
        replies := m.replies.pop d r } (w.workReceive r d reply) := by
  have hrel := h.replies d r
  rw [hw] at hrel
  obtain ⟨msg, msgs, hmsg, _, hhead⟩ := List.forall₂_cons_right_iff.mp hrel
  have hsame : ∀ x, (Function.update m.queue r (m.queue r) x).Stores (w.queue x) := by
    rw [Function.update_eq_self]
    exact h.queue
  cases reply with
  | noWork =>
      obtain ⟨o, hreceive, hok⟩ := @workReceive_noWork env (m.queue r) _ _ ho false
      refine ⟨Function.update m.queue r (m.queue r), o, ?_, hok, hsame, h.replies.pop⟩
      simp only [Store.receive, hhead, show msg = noWorkMessage false from hmsg, hreceive]
      rfl
  | abort =>
      obtain ⟨o, hreceive, hok⟩ := @workReceive_noWork env (m.queue r) _ _ ho true
      refine ⟨Function.update m.queue r (m.queue r), o, ?_, hok, hsame, h.replies.pop⟩
      simp only [Store.receive, hhead, show msg = noWorkMessage true from hmsg, hreceive]
      rfl
  | items inv l =>
      have hempty : (m.queue r).Holds [] := by
        have hq := (h.queue r).1
        rwa [hqueue, List.reverse_nil] at hq
      have hroom : l.reverse.length + 2 ≤ maxCapacity := by
        have hmax : maxItems + 2 = maxCapacity := rfl
        have hl := hmsg.2
        rw [List.length_reverse]
        omega
      obtain ⟨o, q', hreceive, hfilled⟩ := hempty.workReceive hmsg.1 ho hroom henv
      refine ⟨Function.update m.queue r q', o, ?_, ?_, ?_⟩
      · simp only [Store.receive, hhead, hreceive]
        rfl
      · exact workReceive_ok ho (hmsg.1.length_offsets ▸ hroom) hreceive
      · exact ⟨stores_update h.queue ⟨hfilled.holds, hmsg.2⟩, h.replies.pop⟩

/-! ## Checkpoints -/

/-- A checkpoint takes the items out of the queue and writes them to the file of the rank. -/
theorem Store.checkpoint_eq (hq : (m.queue r).Stores l) :
    ∃ q' files', m.checkpoint r = some { m.setQueue r q' with files := files' } ∧ q'.Stores [] ∧
      files' (filename r) = Queue.checkpointed r [l.reverse] m.files (filename r) ∧
      ∀ x : Rank, x ≠ r → files' (filename x) = m.files (filename x) := by
  cases hl : l.reverse with
  | nil =>
      have hempty : (m.queue r).Holds [] := hl ▸ hq.1
      refine ⟨m.queue r, m.files, ?_, ⟨hempty, Nat.zero_le _⟩, rfl, fun _ _ => rfl⟩
      simp only [Store.checkpoint, hempty.write_nil]
  | cons s l' =>
      have hheld : (m.queue r).Holds (s :: l') := hl ▸ hq.1
      obtain ⟨q', hwrite, hq'⟩ := hheld.write (List.cons_ne_nil s l') m.files r
      refine ⟨q', Function.update m.files (filename r) (some (Libcircle.checkpoint (s :: l'))), ?_,
        ⟨hq', Nat.zero_le _⟩, rfl, fun x hx => ?_⟩
      · simp only [Store.checkpoint, hwrite]
      · exact Function.update_of_ne (fun h => hx (filename_injective h)) _ _

theorem checkpointed_cons (s : Item) (l : List Item) (files : Files) (rank : Int) :
    Queue.checkpointed rank [s :: l] files (filename rank) =
      some (Libcircle.checkpoint (s :: l)) := Function.update_self ..

section Saves

variable {m' : Store} {ls : Rank → List (List Item)}

theorem Store.Saves.frame (h : m.Saves job files s ls) (hfiles : m'.files = m.files)
    (hcheck : t.checkpointed = s.checkpointed)
    (hcount : ∀ x, s.inv x ≤ t.inv x ∧
      (t.pc x ≠ .idle → s.pc x ≠ .idle ∨ s.inv x < t.inv x)) : m'.Saves job files t ls where
  file x := by rw [hfiles, h.file]
  total := by rw [hcheck, h.total]
  room := h.room
  length_le x := (h.length_le x).trans (hcount x).1
  length_lt x hx := by
    rcases (hcount x).2 hx with hbusy | hlt
    · exact (h.length_lt x hbusy).trans_le (hcount x).1
    · exact (h.length_le x).trans_lt hlt

/-- The checkpoint of `r` at the end of an invocation. -/
theorem Store.Saves.finish (h : m.Saves job files s ls) (hr : r < job.size)
    (hbusy : s.pc r ≠ .idle) (hroom : (s.work.queue r).length ≤ maxItems)
    (hfile : m'.files (filename r) =
      Queue.checkpointed r [(s.work.queue r).reverse] m.files (filename r))
    (hne : ∀ x : Rank, x ≠ r → m'.files (filename x) = m.files (filename x))
    (hcheck : t.checkpointed = s.checkpointed ++ s.work.queue r) (hinv : t.inv = s.inv)
    (hpc : t.pc = Function.update s.pc r .idle) :
    m'.Saves job files t
      (Function.update ls r (ls r ++ [(s.work.queue r).reverse])) where
  file x := by
    by_cases hx : x = r
    · subst hx
      rw [Function.update_self, Queue.checkpointed_append, hfile]
      cases hl : (s.work.queue x).reverse with
      | nil => exact h.file x
      | cons s l => exact (checkpointed_cons ..).trans (checkpointed_cons ..).symm
    · rw [Function.update_of_ne hx, hne x hx, h.file]
  total := by
    rw [hcheck, ← Multiset.coe_add, h.total]
    refine (sum_range_eq_add hr ?_ fun x hx => ?_).symm
    · rw [Function.update_self, List.flatten_append, List.flatten_singleton, ← Multiset.coe_add,
        Multiset.coe_reverse]
    · rw [Function.update_of_ne hx]
  room x l hl := by
    by_cases hx : x = r
    · subst hx
      rw [Function.update_self] at hl
      rcases List.mem_append.mp hl with hl | hl
      · exact h.room x l hl
      · rw [List.mem_singleton.mp hl, List.length_reverse]
        exact hroom
    · rw [Function.update_of_ne hx] at hl
      exact h.room x l hl
  length_le x := by
    rw [hinv]
    by_cases hx : x = r
    · subst hx
      rw [Function.update_self, List.length_append]
      exact h.length_lt x hbusy
    · rw [Function.update_of_ne hx]
      exact h.length_le x
  length_lt x hx := by
    rw [hpc] at hx
    by_cases hxr : x = r
    · subst hxr
      exact absurd (Function.update_self ..) hx
    · rw [Function.update_of_ne hxr] at hx ⊢
      rw [hinv]
      exact h.length_lt x hx

end Saves

/-! ## Steps -/

theorem pc_next_of_ne {x : Rank} (hx : x ≠ e.rank) : (s.next job e).pc x = s.pc x :=
  congrArg Loc.pc (loc_next_of_ne hx)

/-- Only `CIRCLE_begin` takes a rank into an invocation. -/
theorem pc_ne_idle_of_next (he : s.Enabled job e) (hbegin : ∀ x next ops, e ≠ .begin x next ops)
    (h : (s.next job e).pc r ≠ .idle) : s.pc r ≠ .idle := by
  by_cases hr : r = e.rank
  · subst hr
    intro hidle
    cases e with
    | begin x next ops => exact hbegin x next ops rfl
    | workreqDone r rand | sendNoWork r | workreceiptDone r | worksendDone r | abortStart r
    | termRepliesDone r | termUp r | barrierStart r | barrierUp r | worksendWait r
    | reduceSync r calls | finish r =>
        cases (show s.pc r = _ from he).symm.trans hidle
    | reduceReply r hit calls | reduceSyncReply r calls =>
        have hpc : s.pc r = _ := he.1
        rw [show s.pc r = .idle from hidle] at hpc
        cases hpc
    | _ => cases he.1.symm.trans hidle
  · rwa [pc_next_of_ne hr] at h

theorem pc_ne_idle_or_inv_lt (he : s.Enabled job e) (h : (s.next job e).pc r ≠ .idle) :
    s.pc r ≠ .idle ∨ s.inv r < (s.next job e).inv r := by
  cases e with
  | begin x next ops =>
      by_cases hr : r = x
      · subst hr
        have hinv : (s.next job (.begin r next ops)).inv r = s.inv r + 1 :=
          Function.update_self ..
        exact .inr (hinv ▸ Nat.lt_succ_self _)
      · exact .inl (pc_next_of_ne (e := .begin x next ops) hr ▸ h)
  | _ => exact .inl (pc_ne_idle_of_next he (by simp) h)

namespace Store.Refines

variable {m' : Store}

/-- An event that writes no checkpoint. -/
theorem frame (h : m.Refines job files s) (he : s.Enabled job e)
    (hholds : m'.Holds (s.next job e).work) (hdequeued : m'.dequeued = (s.next job e).dequeued)
    (hoffsets : ∀ x, (s.next job e).pc x ≠ .idle → ∃ b, (m'.offsets x).Ok b)
    (hfiles : m'.files = m.files) (hcheck : (s.next job e).checkpointed = s.checkpointed) :
    m'.Refines job files (s.next job e) where
  holds := hholds
  dequeued := hdequeued
  offsets := hoffsets
  saves := by
    obtain ⟨ls, hls⟩ := h.saves
    exact ⟨ls, hls.frame hfiles hcheck fun x => ⟨inv_le_next x, pc_ne_idle_or_inv_lt he⟩⟩

theorem offsets_next (h : m.Refines job files s) (he : s.Enabled job e)
    (hbegin : ∀ x next ops, e ≠ .begin x next ops) (x : Rank)
    (hx : (s.next job e).pc x ≠ .idle) : ∃ b, (m.offsets x).Ok b :=
  h.offsets x (pc_ne_idle_of_next he hbegin hx)

/-- The offset array of a rank that enters `CIRCLE_begin`. -/
theorem offsets_init (h : m.Refines job files s) {next : Option Rank}
    (he : s.Enabled job (.begin r next ops)) (x : Rank)
    (hx : (s.next job (.begin r next ops)).pc x ≠ .idle) :
    ∃ b, ((m.init r).offsets x).Ok b := by
  by_cases hxr : x = r
  · subst hxr
    obtain ⟨_, a, hlayout⟩ := (h.holds.queue x).1
    refine ⟨⟨(m.queue x).strCount, fun _ => 0⟩, ?_⟩
    rw [show (m.init x).offsets x = ⟨some ⟨(m.queue x).strCount, fun _ => 0⟩,
      (m.queue x).strCount⟩ from Function.update_self ..]
    exact ⟨rfl, rfl, hlayout.strCount_dvd, hlayout.strCount_max⟩
  · rw [show (m.init r).offsets x = m.offsets x from Function.update_of_ne hxr ..]
    exact h.offsets x (pc_next_of_ne (e := .begin r next ops) hxr ▸ hx)

/-- Before a callback the store is as the system is. -/
theorem mirrors (h : m.Refines job files s) (hsame : m'.queue = m.queue)
    (hdequeued : m'.dequeued = m.dequeued) : m'.Mirrors m' r (s.callbackState r) := by
  refine ⟨m.queue r, ?_, h.holds.queue r⟩
  rw [show (s.callbackState r).dequeued = m'.dequeued from (hdequeued.trans h.dequeued).symm,
    Store.setQueue, ← hsame, Function.update_eq_self]

/-- A reply is received as what the system receives. -/
theorem receive_reply (henv : env.strings = true ∧ env.base = true) (hcoh : s.Coherent job)
    (h : m.Refines job files s) {sent : Bool} (he : s.Enabled job (.requestReply r sent)) :
    ∃ m', m.receive env r (s.work.request r).workRequestedRank =
        some ((s.reply r).received, m') ∧
      m'.Refines job files (s.next job (.requestReply r sent)) := by
  obtain ⟨hpc, _, hreq, hm⟩ := id he
  obtain ⟨reply, ms, hms⟩ := List.exists_cons_of_ne_nil hm
  have hqueue : s.work.queue r = [] := (hcoh.ok r).tidy.queue_nil hreq
  have hbusy : s.pc r ≠ .idle := by simp [hpc]
  obtain ⟨b, ho⟩ := h.offsets r hbusy
  obtain rfl : reply = s.reply r := by simp [Sys.reply, hms]
  have htest : m.Holds (s.work.requestTest r sent) := ⟨h.holds.queue, h.holds.replies⟩
  obtain ⟨queue, o, hreceive, ⟨b', hok⟩, hholds⟩ := htest.receive henv hms hqueue ho
  have hoffsets : ∀ x, (s.next job (.requestReply r sent)).pc x ≠ .idle →
      ∃ b, (Function.update m.offsets r o x).Ok b := by
    intro x hx
    by_cases hxr : x = r
    · subst hxr
      exact ⟨b', by rwa [Function.update_self]⟩
    · rw [Function.update_of_ne hxr]
      exact h.offsets_next he (by simp) x hx
  exact ⟨_, hreceive,
    h.frame he ⟨hholds.queue, hholds.replies⟩ h.dequeued hoffsets rfl rfl⟩

/-- At the end of an invocation the items of an aborted rank are in its file. -/
theorem finish (hcoh : s.Coherent job) (h : m.Refines job files s)
    (he : s.Enabled job (.finish r)) :
    ∃ m', m.next env s (.finish r) = some m' ∧
      m'.Refines job files (s.next job (.finish r)) := by
  have hbusy : s.pc r ≠ .idle := by simp [show s.pc r = .returned from he]
  have hoffsets : ∀ x, (s.next job (.finish r)).pc x ≠ .idle →
      ∃ b, ((m.finalize r).offsets x).Ok b := by
    intro x hx
    have hxr : x ≠ r := by
      rintro rfl
      exact hx (Function.update_self ..)
    rw [show (m.finalize r).offsets x = m.offsets x from Function.update_of_ne hxr ..]
    exact h.offsets_next he (by simp) x hx
  cases hf : s.abortFlag r with
  | false =>
      refine ⟨m.finalize r, by simp [Store.next, hf], h.frame he ?_ h.dequeued hoffsets rfl ?_⟩
      · rw [show (s.next job (.finish r)).work = s.work by simp [Sys.next, hf]]
        exact ⟨h.holds.queue, h.holds.replies⟩
      · simp [Sys.next, hf]
  | true =>
      obtain ⟨q', files', hwrite, hq', hfile, hne⟩ := Store.checkpoint_eq (h.holds.queue r)
      obtain ⟨ls, hls⟩ := h.saves
      have hwork : (s.next job (.finish r)).work = s.work.setQueue r [] := by simp [Sys.next, hf]
      refine ⟨Store.finalize { m.setQueue r q' with files := files' } r,
        by simp [Store.next, hf, hwrite], ?_, h.dequeued, hoffsets, _,
        hls.finish ((hcoh.ok r).lt_size hbusy) hbusy (h.holds.queue r).2 hfile hne ?_ rfl rfl⟩
      · rw [hwork]
        exact ⟨stores_update h.holds.queue hq', h.holds.replies⟩
      · simp [Sys.next, hf]

end Store.Refines

theorem refines_next (henv : env.strings = true ∧ env.base = true) (hcoh : s.Coherent job)
    (h : m.Refines job files s) (he : s.Enabled job e) (ht : m.Takes s e) :
    ∃ m', m.next env s e = some m' ∧ m'.Refines job files (s.next job e) := by
  cases e with
  | begin r next ops =>
      have hstart : (m.init r).Mirrors (m.init r) r (s.callbackState r) := h.mirrors rfl rfl
      obtain ⟨_, hrun, q, rfl, hq⟩ := hstart.callback henv ht
      exact ⟨_, hrun, h.frame he ⟨stores_update h.holds.queue hq, h.holds.replies⟩ rfl
        (h.offsets_init he) rfl rfl⟩
  | process r ops =>
      have hstart : m.Mirrors m r (s.callbackState r) := h.mirrors rfl rfl
      obtain ⟨_, hrun, q, rfl, hq⟩ := hstart.callback henv ht
      exact ⟨_, hrun, h.frame he ⟨stores_update h.holds.queue hq, h.holds.replies⟩ rfl
        (h.offsets_next he (by simp)) rfl rfl⟩
  | workreqDone r rand =>
      refine ⟨m, rfl, h.frame he ?_ h.dequeued (h.offsets_next he (by simp)) rfl rfl⟩
      simp only [Sys.next]
      split
      · exact h.holds
      · exact ⟨h.holds.queue, h.holds.replies⟩
  | sendWork r count =>
      have hat := (hcoh.ok r).position
      rw [show s.pc r = _ from he.1] at hat
      have hlt : Store.planned r s < (s.work.queue r).length := by
        refine lt_of_le_of_lt ?_ hat.2.2.2.2
        cases hsizes : s.work.sizes r with
        | nil => simp [Store.planned, hsizes]
        | cons size sizes => simp [Store.planned, Sys.loc, hsizes]
      obtain ⟨queue, replies, hsend, hholds⟩ :=
        h.holds.sendWork (d := (s.work.requestors r).headD 0) hlt (s.abortFlag r) (s.inv r)
      rw [← show count = _ from ht] at hholds
      exact ⟨_, hsend, h.frame he ⟨hholds.queue, hholds.replies⟩ h.dequeued
        (h.offsets_next he (by simp)) rfl rfl⟩
  | sendNoWork r =>
      have hholds := h.holds.sendNoWork (r := r) (d := (s.work.requestors r).headD 0)
        (s.abortFlag r)
      exact ⟨_, rfl, h.frame he ⟨hholds.queue, hholds.replies⟩ h.dequeued
        (h.offsets_next he (by simp)) rfl rfl⟩
  | requestReply r sent =>
      obtain ⟨m', hreceive, h'⟩ := h.receive_reply henv hcoh he
      refine ⟨m', ?_, h'⟩
      simp only [Store.next, hreceive]
      cases s.reply r <;> rfl
  | finish r => exact h.finish hcoh he
  | _ =>
      exact ⟨m, rfl, h.frame he ⟨h.holds.queue, h.holds.replies⟩ h.dequeued
        (h.offsets_next he (by simp)) rfl rfl⟩

/-! ## Runs -/

theorem refines_of_run (henv : env.strings = true ∧ env.base = true) {m' : Store}
    {es : List (Event Item)} (hrun : (job.bytes env).Run (s, m) es (t, m')) (hcoh : s.Coherent job)
    (h : m.Refines job files s) : t.Coherent job ∧ m'.Refines job files t := by
  refine hrun.invariant (I := fun x => x.1.Coherent job ∧ x.2.Refines job files x.1)
    (fun x e hx he => ?_) ⟨hcoh, h⟩
  obtain ⟨m₁, hnext, h₁⟩ := refines_next henv hx.1 hx.2 he.1 he.2
  refine ⟨coherent_next he.1 hx.1, ?_⟩
  change ((x.2.next env x.1 e).getD x.2).Refines job files (x.1.next job e)
  rwa [hnext]

theorem refines_start {queue : Rank → List Item} {abortFlag : Rank → Bool}
    {input : Rank → ReduceInput} {enqueued : List Item}
    (hqueue : ∀ r, (m.queue r).Stores (queue r)) (hreplies : m.replies = .empty)
    (hdequeued : m.dequeued = []) :
    m.Refines job m.files (Sys.start queue abortFlag input enqueued) where
  holds := ⟨hqueue, hreplies ▸ Chan.related_empty⟩
  dequeued := hdequeued
  offsets _ hbusy := absurd rfl hbusy
  saves := ⟨fun _ => [], {
    file := fun _ => rfl
    total := by simp [Sys.start]
    room := fun _ _ h => absurd h List.not_mem_nil
    length_le := fun _ => Nat.zero_le _
    length_lt := fun _ hbusy => absurd rfl hbusy }⟩

/-- In every run of any number of invocations in which allocations succeed, the bytes are those
of the items.  No function on a queue or a message leaves a block, overflows or fails, and a reply
is received as what it carries. -/
theorem bytes_refine_items (henv : env.strings = true ∧ env.base = true) {m₀ : Store}
    {queue : Rank → List Item} {abortFlag : Rank → Bool} {input : Rank → ReduceInput}
    {enqueued : List Item} {es : List (Event Item)} (hqueue : ∀ r, (m₀.queue r).Stores (queue r))
    (hreplies : m₀.replies = .empty) (hdequeued : m₀.dequeued = [])
    (hrun : (job.bytes env).Run (Sys.start queue abortFlag input enqueued, m₀) es (s, m)) :
    m.Refines job m₀.files s ∧
      (∀ e, s.Enabled job e → m.Takes s e → ∃ m', m.next env s e = some m' ∧
        m'.Refines job m₀.files (s.next job e)) ∧
      ∀ r sent, s.Enabled job (.requestReply r sent) → ∃ m',
        m.receive env r (s.work.request r).workRequestedRank =
          some ((s.reply r).received, m') := by
  have hstart : m₀.Refines job m₀.files (Sys.start queue abortFlag input enqueued) :=
    refines_start hqueue hreplies hdequeued
  obtain ⟨hcoh, h⟩ := refines_of_run henv hrun (coherent_start ..) hstart
  refine ⟨h, fun e he ht => refines_next henv hcoh h he ht, fun r sent he => ?_⟩
  obtain ⟨m', hreceive, _⟩ := h.receive_reply henv hcoh he
  exact ⟨m', hreceive⟩

/-- Ranks with empty queues in an empty directory. -/
def blankStore : Store where
  queue _ := blankQueue 0 1
  offsets _ := freshOffsets
  replies := .empty
  files := Queue.noFiles
  dequeued := []

theorem blank_stores : (blankQueue 0 1).Stores [] :=
  ⟨(layout_blank (by decide) (by decide)).holds, Nat.zero_le _⟩

/-- Rank `0` enqueues the words and hands one to rank `1`, which receives and dequeues it. -/
def handoverBytes : List (Event Item) :=
  List.flatten
    [handoverOf words, [.checkForTerm 1, .token 1 false, .workreqDone 1 0, .workreceiptDone 1,
      .worksendDone 1, .abortStart 1, .abortRequest 1 none, .abortReplies 1 false, .reduceSkip 1,
      .requestReply 1 false, .process 1 [.dequeue]]]

theorem bytes_refine_items_handover :
    let x := (ringPair.bytes {}).follow (.fresh, blankStore) handoverBytes
    x.2.Refines ringPair Queue.noFiles x.1 ∧ x.2.dequeued = [CStr.ofBuffer [100]] :=
  have hrun : (ringPair.bytes {}).Run (.fresh, blankStore) handoverBytes
      ((ringPair.bytes {}).follow (.fresh, blankStore) handoverBytes) :=
    .of_admits (by decide +kernel)
  ⟨(bytes_refine_items ⟨rfl, rfl⟩ (fun _ => blank_stores) rfl rfl hrun).1, by decide +kernel⟩

end Libcircle
