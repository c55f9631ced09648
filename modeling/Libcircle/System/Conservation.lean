import Libcircle.System.Requests
import Mathlib.Algebra.Order.Group.Multiset
import Mathlib.Tactic.Abel

/-!
# No item is lost or duplicated

The items enqueued so far are the items dequeued, the items in the queues, and
the items in the replies in flight.  A sender drops the items it posts, and the
receiver overwrites its queue, so this rests on `Loc.Tidy.queue_nil`: a rank
that waits for work has an empty queue.

The equation holds in any number of invocations when the items that checkpoints
took out of the queues are counted too.
-/

namespace Libcircle

variable {α : Type*} {size : Nat} {w : WorkNet α} {r d : Rank}

/-! ## Callbacks -/

/-- The items enqueued are those dequeued, those of this queue, and `rest`. -/
def CallbackState.Accounts (c : CallbackState α) (rest : Multiset α) : Prop :=
  (c.enqueued : Multiset α) = c.dequeued + c.queue + rest

theorem CallbackState.accounts_call {c : CallbackState α} {rest : Multiset α}
    (h : c.Accounts rest) (op : WorkOp α) : (c.call op).Accounts rest := by
  unfold Accounts at h ⊢
  cases op with
  | enqueue x =>
      simp only [call, ← Multiset.coe_add, h]
      abel
  | dequeue =>
      have hq : (c.queue : Multiset α) = c.queue.dropLast + c.queue.getLast?.toList := by
        rw [Multiset.coe_add]
        congr 1
        cases hl : c.queue.getLast? with
        | none => simp [List.getLast?_eq_none_iff.mp hl]
        | some x => exact (List.dropLast_append_getLast? x hl).symm
      simp only [call, ← Multiset.coe_add, h, hq]
      abel
  | abort => exact h

theorem CallbackState.accounts_run (ops : List (WorkOp α)) {c : CallbackState α}
    {rest : Multiset α} (h : c.Accounts rest) : (c.run ops).Accounts rest := by
  induction ops generalizing c with
  | nil => exact h
  | cons op ops ih => exact ih (accounts_call h op)

/-! ## The stock of items -/

namespace WorkNet

/-- The items in the queues. -/
def held (size : Nat) (w : WorkNet α) : Multiset α :=
  ∑ r ∈ Finset.range size, (w.queue r : Multiset α)

/-- The items in the replies in flight. -/
def inFlight (size : Nat) (w : WorkNet α) : Multiset α :=
  w.replies.totalWeight (fun m => (m.payload : Multiset α)) size

/-- The items in the queues of the other ranks. -/
def heldElsewhere (size : Nat) (w : WorkNet α) (r : Rank) : Multiset α :=
  ∑ x ∈ Finset.range size, ((Function.update w.queue r [] x : List α) : Multiset α)

theorem held_eq (w : WorkNet α) (hr : r < size) :
    w.held size = w.heldElsewhere size r + w.queue r :=
  sum_range_eq_add hr (by simp) fun x hx => by rw [Function.update_of_ne hx]

theorem held_update {w' : WorkNet α} {l : List α} (hr : r < size)
    (hq : w'.queue = Function.update w.queue r l) :
    w'.held size = w.heldElsewhere size r + l := by
  rw [held_eq w' hr, heldElsewhere, hq, Function.update_idem, Function.update_self]
  rfl

theorem sendWork_stock (hr : r < size) (hd : d < size) (abortFlag : Bool) (inv count : Nat) :
    (w.sendWork abortFlag inv r d count).held size +
      (w.sendWork abortFlag inv r d count).inFlight size = w.held size + w.inFlight size := by
  rw [held_update hr (sendWork_queue w abortFlag inv count r d), held_eq w hr]
  by_cases hc : count = 0
  · have hflight : (w.sendWork abortFlag inv r d count).inFlight size = w.inFlight size := by
      rw [hc, sendWork_zero]
      refine (Chan.totalWeight_push _ _ _ hr hd).trans ?_
      cases abortFlag <;> simp [Reply.payload, inFlight]
    rw [hflight, hc]
    simp
  · have hflight : (w.sendWork abortFlag inv r d count).inFlight size = w.inFlight size +
        ((w.queue r).drop ((w.queue r).length - count) : List α) := by
      simp only [sendWork, if_neg hc]
      exact Chan.totalWeight_push _ _ _ hr hd
    have hsplit : (w.queue r : Multiset α) = ((w.queue r).take ((w.queue r).length - count) +
        (w.queue r).drop ((w.queue r).length - count) : Multiset α) := by
      rw [Multiset.coe_add, List.take_append_drop]
    rw [hflight, hsplit]
    abel

theorem sendNoWork_stock (hr : r < size) (hd : d < size) (abortFlag : Bool) :
    (w.sendNoWork abortFlag r d).held size + (w.sendNoWork abortFlag r d).inFlight size =
      w.held size + w.inFlight size := by
  have h := sendWork_stock (w := w) hr hd abortFlag 0 0
  rwa [sendWork_zero] at h

theorem workReceive_stock (hr : r < size) (hd : d < size) (hq : w.queue r = [])
    {m : Reply α} {ms : List (Reply α)} (hm : w.replies d r = m :: ms) :
    (w.workReceive r d m).held size + (w.workReceive r d m).inFlight size =
      w.held size + w.inFlight size := by
  have hflight : w.inFlight size = (w.workReceive r d m).inFlight size + m.payload := by
    unfold inFlight
    rw [workReceive_replies]
    exact Chan.totalWeight_pop _ hm hd hr
  have hqueue : (w.workReceive r d m).queue = Function.update w.queue r m.payload := by
    cases m with
    | items inv l => rfl
    | noWork => simp [workReceive, Reply.payload, ← hq]
    | abort => simp [workReceive, Reply.payload, ← hq]
  rw [held_update hr hqueue, held_eq w hr, hflight, hq]
  simp only [Multiset.coe_nil, add_zero]
  abel

/-- Replies without items carry none. -/
theorem inFlight_eq_zero (h : ∀ r d k l, .items k l ∉ w.replies r d) : w.inFlight size = 0 := by
  refine Chan.totalWeight_eq_zero fun a b m hm => ?_
  cases m with
  | items k l => exact absurd hm (h a b k l)
  | noWork | abort => rfl

theorem held_eq_zero (h : ∀ r, r < size → w.queue r = []) : w.held size = 0 :=
  Finset.sum_eq_zero fun r hr => by rw [h r (Finset.mem_range.mp hr), Multiset.coe_nil]

end WorkNet

/-! ## Runs -/

section Runs

variable {job : Job} {s t : Sys α} {e : Event α}

/-- Every item enqueued is dequeued, checkpointed, in a queue or in flight. -/
def Sys.Conserved (job : Job) (s : Sys α) : Prop :=
  (s.enqueued : Multiset α) =
    s.dequeued + s.checkpointed + (s.work.held job.size + s.work.inFlight job.size)

theorem conserved_callback (hr : r < job.size) (h : s.Conserved job) (ops : List (WorkOp α)) :
    ((s.callback r ops).enqueued : Multiset α) = (s.callback r ops).dequeued + s.checkpointed +
      ((s.work.setQueue r (s.callback r ops).queue).held job.size +
        s.work.inFlight job.size) := by
  have hacc : (s.callbackState r).Accounts
      (s.checkpointed + s.work.heldElsewhere job.size r + s.work.inFlight job.size) := by
    unfold Sys.Conserved at h
    rw [WorkNet.held_eq s.work hr] at h
    simp only [CallbackState.Accounts, Sys.callbackState, h]
    abel
  have hrun : (s.callback r ops).Accounts _ := CallbackState.accounts_run ops hacc
  unfold CallbackState.Accounts at hrun
  rw [WorkNet.held_update hr rfl, hrun]
  abel

theorem conserved_start {queue : Rank → List α} {abortFlag : Rank → Bool}
    {input : Rank → ReduceInput} {enqueued : List α}
    (h : (enqueued : Multiset α) = ∑ r ∈ Finset.range job.size, (queue r : Multiset α)) :
    (Sys.start queue abortFlag input enqueued).Conserved job := by
  simp [Sys.Conserved, Sys.start, WorkNet.held, WorkNet.inFlight, Chan.totalWeight,
    Chan.outWeight, Chan.weight, h]

theorem conserved_next (he : s.Enabled job e) (hcoh : s.Coherent job) (h : s.Conserved job) :
    (s.next job e).Conserved job := by
  obtain ⟨hok, hmatch⟩ := hcoh
  have hr : e.rank < job.size := (hok _).rank_lt he
  cases e with
  | begin r next ops => exact conserved_callback hr h ops
  | process r ops => exact conserved_callback hr h ops
  | workreqDone r rand =>
      simp only [Sys.Conserved, Sys.next]
      split <;> exact h
  | sendWork r count =>
      have hat := (hok r).position
      rw [he.1] at hat
      have hd := (hmatch.awaits_lt _ _ (hmatch.awaits_head hat.2.2.1)).1
      exact h.trans (congrArg _ (WorkNet.sendWork_stock hr hd _ _ _).symm)
  | sendNoWork r =>
      have hat := (hok r).position
      rw [show s.pc r = _ from he] at hat
      have hd := (hmatch.awaits_lt _ _ (hmatch.awaits_head hat.2)).1
      exact h.trans (congrArg _ (WorkNet.sendNoWork_stock hr hd _).symm)
  | requestReply r sent =>
      obtain ⟨_, _, hreq, hm⟩ := he
      obtain ⟨m, ms, hms⟩ := List.exists_cons_of_ne_nil hm
      have hd := (hmatch.awaits_lt _ _ (hmatch.awaits_of_reply hm)).2.1
      have hq : s.work.queue r = [] := (hok r).tidy.queue_nil hreq
      have hstock := WorkNet.workReceive_stock (w := s.work.requestTest r sent) hr hd hq hms
      rw [show m = s.reply r by simp [Sys.reply, hms]] at hstock
      exact h.trans (congrArg _ hstock.symm)
  | finish r =>
      have hr : r < job.size := hr
      simp only [Sys.Conserved, Sys.next]
      split
      · refine h.trans ?_
        have hheld : (s.work.setQueue r []).held job.size =
            s.work.heldElsewhere job.size r + ([] : List α) := WorkNet.held_update hr rfl
        rw [hheld, WorkNet.held_eq s.work hr]
        simp only [← Multiset.coe_add, Multiset.coe_nil, WorkNet.inFlight, WorkNet.setQueue]
        abel
      · exact h
  | _ => exact h

/-- Without an abort, no checkpoint takes items out of a queue. -/
theorem checkpointed_next (hflag : s.abortFlag e.rank = false) :
    (s.next job e).checkpointed = s.checkpointed := by
  cases e with
  | finish r => simp [Sys.next, show s.abortFlag r = false from hflag]
  | _ => rfl

theorem conserved_of_run {es : List (Event α)} (hrun : job.step.Run s es t)
    (hcoh : s.Coherent job) (h : s.Conserved job) : t.Conserved job :=
  (hrun.invariant (I := fun s => s.Coherent job ∧ s.Conserved job)
    (fun _ _ hI hE => ⟨coherent_next hE hI.1, conserved_next hE hI.1 hI.2⟩) ⟨hcoh, h⟩).2

theorem checkpointed_of_run {es : List (Event α)} (hrun : job.step.Run s es t)
    (hes : ∀ r, .finish r ∉ es) : t.checkpointed = s.checkpointed := by
  induction hrun with
  | nil => rfl
  | @cons s t e es he _ ih =>
      rw [ih fun r hr => hes r (List.mem_cons_of_mem _ hr)]
      cases e with
      | finish r => exact absurd (List.mem_cons_self ..) (hes r)
      | _ => rfl

/-- Work items are conserved, at every state of every run of any number of
invocations.  The items the queues hold at the start count as enqueued.  Only the
checkpoint at the end of an invocation takes items out of the equation. -/
theorem work_conserved {queue : Rank → List α} {abortFlag : Rank → Bool}
    {input : Rank → ReduceInput} {enqueued : List α} {es : List (Event α)}
    (hstart : (enqueued : Multiset α) = ∑ r ∈ Finset.range job.size, (queue r : Multiset α))
    (hrun : job.step.Run (Sys.start queue abortFlag input enqueued) es t) :
    (t.enqueued : Multiset α) =
        t.dequeued + t.checkpointed + (t.work.held job.size + t.work.inFlight job.size) ∧
      ((∀ r, .finish r ∉ es) → t.checkpointed = []) ∧
      (∀ r, (t.work.request r).workRequested = true → t.work.queue r = []) ∧
      ∀ r sent, t.Enabled job (.requestReply r sent) → t.work.queue r = [] := by
  have hcoh := coherent_of_run hrun (coherent_start ..)
  refine ⟨?_, ?_, ?_, ?_⟩
  · exact conserved_of_run hrun (coherent_start ..) (conserved_start hstart)
  · exact fun hes => checkpointed_of_run hrun hes
  · exact fun r hreq => (hcoh.ok r).tidy.queue_nil hreq
  · exact fun r _ he => (hcoh.ok r).tidy.queue_nil he.2.2.1

end Runs

theorem work_conserved_handover :
    let t := ringPair.step.follow .fresh handover
    (t.enqueued : Multiset Nat) =
      t.dequeued + t.checkpointed + (t.work.held 2 + t.work.inFlight 2) :=
  (work_conserved rfl (EventSystem.Run.of_admits (by decide +kernel))).1

end Libcircle
