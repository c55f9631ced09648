import Libcircle.System.Conservation

/-!
# Receipts

`work_outstanding` counts the transfers a rank posted that are not received yet,
and the receipts that are on their way back.  `WorkNet.Accounted` says so, and
that both belong to the invocation the rank is in.

The counter is reset when an invocation starts, while receipts stay in the
network, and a rank that leaves the main loop by the token does not look for
receipts again.  So the equation needs that such a rank starts its next
invocation with all its transfers acknowledged (`SettledBegin`).  With tree
termination this holds by itself (`Loc.Tidy.acknowledged`).
-/

namespace Libcircle

variable {α : Type*} {size : Nat} {w w' : WorkNet α} {r d src : Rank} {inv : Rank → Nat}

namespace WorkNet

/-- The transfers of `r` that are not received yet. -/
def transfersFrom (size : Nat) (w : WorkNet α) (r : Rank) : Nat :=
  w.replies.outWeight Reply.transfers size r

/-- The receipts on their way to `r`. -/
def receiptsTo (size : Nat) (w : WorkNet α) (r : Rank) : Nat :=
  w.receipts.inWeight (fun _ => 1) size r

/-- The receipts are accounted for. -/
structure Accounted (size : Nat) (inv : Rank → Nat) (w : WorkNet α) : Prop where
  outstanding_eq : ∀ r, w.workOutstanding r = w.transfersFrom size r + w.receiptsTo size r
  receipt_lt : ∀ r d, w.receipts d r ≠ [] → d < size ∧ r < size
  /-- A transfer in flight was posted in the invocation its sender is in. -/
  transfer_inv : ∀ r d k l, .items k l ∈ w.replies r d → k = inv r
  /-- A receipt is for a transfer of the invocation its receiver is in. -/
  receipt_inv : ∀ r d k, k ∈ w.receipts d r → k = inv r

theorem not_mem_of_transfersFrom (h : w.transfersFrom size r = 0) (hd : d < size) {k : Nat}
    {l : List α} : .items k l ∉ w.replies r d := fun hm =>
  absurd (Chan.eq_zero_of_outWeight h hd hm) Nat.one_ne_zero

theorem not_mem_of_receiptsTo (h : w.receiptsTo size r = 0) (hd : d < size) {k : Nat} :
    k ∉ w.receipts d r := fun hm =>
  absurd (Chan.eq_zero_of_inWeight h hd hm) Nat.one_ne_zero

namespace Accounted

theorem congr (h : Accounted size inv w) (hout : w'.workOutstanding = w.workOutstanding)
    (hreplies : w'.replies = w.replies) (hreceipts : w'.receipts = w.receipts) :
    Accounted size inv w' := by
  obtain ⟨h₁, h₂, h₃, h₄⟩ := h
  constructor
  · simpa only [transfersFrom, receiptsTo, hout, hreplies, hreceipts] using h₁
  · simpa only [hreceipts] using h₂
  · simpa only [hreplies] using h₃
  · simpa only [hreceipts] using h₄

/-- A rank without outstanding transfers has none in flight, and no receipt is under way. -/
theorem none_of_outstanding (h : Accounted size inv w) (hr : w.workOutstanding r = 0) :
    w.transfersFrom size r = 0 ∧ w.receiptsTo size r = 0 := by
  have := h.outstanding_eq r
  omega

/-- A reply without items changes no account. -/
theorem push (h : Accounted size inv w) {m : Reply α} (hm : m.transfers = 0)
    (hout : w'.workOutstanding = w.workOutstanding)
    (hreplies : w'.replies = w.replies.push r d m) (hreceipts : w'.receipts = w.receipts)
    (hd : d < size) : Accounted size inv w' where
  outstanding_eq a := by
    rw [hout, h.outstanding_eq a, transfersFrom, transfersFrom, receiptsTo, receiptsTo,
      hreplies, hreceipts]
    by_cases ha : a = r
    · subst ha
      rw [Chan.outWeight_push_self _ _ _ hd, hm, Nat.add_zero]
    · rw [Chan.outWeight_push_ne _ _ _ ha]
  receipt_lt a b := by
    rw [hreceipts]
    exact h.receipt_lt a b
  transfer_inv a b k l hk := by
    rw [hreplies, Chan.mem_push] at hk
    rcases hk with hk | ⟨_, _, hk⟩
    · exact h.transfer_inv a b k l hk
    · rw [← hk] at hm
      cases hm
  receipt_inv a b := by
    rw [hreceipts]
    exact h.receipt_inv a b

theorem sendNoWork (h : Accounted size inv w) (hd : d < size) (abortFlag : Bool) :
    Accounted size inv ((w.sendNoWork abortFlag r d).nextRequestor r) :=
  h.push (r := r) (d := d) (by cases abortFlag <;> rfl) rfl rfl rfl hd

theorem sendWork (h : Accounted size inv w) (hd : d < size) (abortFlag : Bool) (count : Nat) :
    Accounted size inv ((w.sendWork abortFlag (inv r) r d count).nextRequestor r) := by
  by_cases hc : count = 0
  · subst hc
    rw [sendWork_zero]
    exact h.sendNoWork hd abortFlag
  rw [WorkNet.sendWork, if_neg hc]
  constructor
  · intro a
    have heq := h.outstanding_eq a
    unfold transfersFrom receiptsTo at heq ⊢
    simp only [nextRequestor]
    by_cases ha : a = r
    · subst ha
      rw [Chan.outWeight_push_self _ _ _ hd, Function.update_self, heq]
      simp only [Reply.transfers]
      omega
    · rw [Chan.outWeight_push_ne _ _ _ ha, Function.update_of_ne ha, heq]
  · exact h.receipt_lt
  · intro a b k l hk
    rcases (Chan.mem_push _ _).mp hk with hk | ⟨ha, _, hk⟩
    · exact h.transfer_inv a b k l hk
    · subst ha
      simp only [Reply.items.injEq] at hk
      exact hk.1
  · exact h.receipt_inv

theorem workReceive (h : Accounted size inv w) (hr : r < size) (hd : d < size) {m : Reply α}
    {ms : List (Reply α)} (hm : w.replies d r = m :: ms) :
    Accounted size inv ((w.workReceive r d m).requestDone r) := by
  have hmem : m ∈ w.replies d r := by simp [hm]
  have hpop : ∀ a b k l, .items k l ∈ w.replies.pop d r a b → k = inv a :=
    fun a b k l hk => h.transfer_inv a b k l (Chan.mem_of_mem_pop _ hk)
  cases m with
  | items k l =>
      constructor
      · intro a
        have heq := h.outstanding_eq a
        unfold transfersFrom receiptsTo at heq ⊢
        simp only [requestDone, WorkNet.workReceive]
        by_cases ha : a = d
        · subst ha
          rw [Chan.inWeight_push_self _ _ _ hr, heq, Chan.outWeight_pop_self _ hm hr]
          simp only [Reply.transfers]
          omega
        · rw [Chan.inWeight_push_ne _ _ _ ha, Chan.outWeight_pop_ne _ _ ha, heq]
      · intro a b hab
        by_cases hrd : b = r ∧ a = d
        · exact ⟨hrd.1 ▸ hr, hrd.2 ▸ hd⟩
        · exact h.receipt_lt a b fun hnil => hab ((Chan.push_ne _ _ hrd).trans hnil)
      · exact hpop
      · intro a b j hj
        rcases (Chan.mem_push _ _).mp hj with hj | ⟨_, rfl, rfl⟩
        · exact h.receipt_inv a b j hj
        · exact h.transfer_inv _ _ _ _ hmem
  | noWork | abort =>
      refine ⟨fun a => ?_, h.receipt_lt, hpop, h.receipt_inv⟩
      have heq := h.outstanding_eq a
      unfold transfersFrom at heq ⊢
      simp only [requestDone, WorkNet.workReceive]
      by_cases ha : a = d
      · subst ha
        rw [Chan.outWeight_pop_self _ hm hr] at heq
        exact heq
      · rw [Chan.outWeight_pop_ne _ _ ha]
        exact heq

theorem workreceiptRecv (h : Accounted size inv w) (hm : w.receipts src r ≠ []) :
    Accounted size inv (w.workreceiptRecv r src) where
  outstanding_eq a := by
    obtain ⟨k, ks, hk⟩ := List.exists_cons_of_ne_nil hm
    have heq := h.outstanding_eq a
    unfold transfersFrom receiptsTo at heq ⊢
    simp only [WorkNet.workreceiptRecv]
    by_cases ha : a = r
    · subst ha
      rw [Chan.inWeight_pop_self _ hk (h.receipt_lt _ _ hm).1] at heq
      rw [Function.update_self]
      omega
    · rw [Function.update_of_ne ha, Chan.inWeight_pop_ne _ _ ha, heq]
  receipt_lt a b hab := by
    obtain ⟨k, hk⟩ := List.exists_mem_of_ne_nil _ hab
    exact h.receipt_lt a b (List.ne_nil_of_mem (Chan.mem_of_mem_pop _ hk))
  transfer_inv := h.transfer_inv
  receipt_inv a b k hk := h.receipt_inv a b k (Chan.mem_of_mem_pop _ hk)

/-- A rank with all transfers acknowledged starts an invocation. -/
theorem init (h : Accounted size inv w) (hmatch : w.Matched size)
    (hout : w.workOutstanding r = 0) (next : Option Rank) (k : Nat) :
    Accounted size (Function.update inv r k) (w.init r next) where
  outstanding_eq a := by
    have hw : (w.init r next).workOutstanding = w.workOutstanding := by
      simp only [WorkNet.init, ← hout, Function.update_eq_self]
    rw [hw]
    exact h.outstanding_eq a
  receipt_lt := h.receipt_lt
  transfer_inv a b j l hj := by
    by_cases ha : a = r
    · subst ha
      have hb := (hmatch.awaits_lt _ _ (hmatch.awaits_of_reply (List.ne_nil_of_mem hj))).1
      exact absurd hj (not_mem_of_transfersFrom (h.none_of_outstanding hout).1 hb)
    · rw [Function.update_of_ne ha]
      exact h.transfer_inv a b j l hj
  receipt_inv a b j hj := by
    by_cases ha : a = r
    · subst ha
      have hb := (h.receipt_lt _ _ (List.ne_nil_of_mem hj)).1
      exact absurd hj (not_mem_of_receiptsTo (h.none_of_outstanding hout).2 hb)
    · rw [Function.update_of_ne ha]
      exact h.receipt_inv a b j hj

end Accounted

end WorkNet

/-! ## Runs -/

section Runs

variable {job : Job} {s t : Sys α} {e : Event α}

/-- A rank that left its last invocation by the token starts the next one with all its
transfers acknowledged. -/
def SettledBegin (job : Job) (s : Sys α) : Event α → Prop
  | .begin r _ _ =>
      0 < s.inv r → (job.opts (s.inv r)).termTree = false → s.work.workOutstanding r = 0
  | _ => True

instance (s : Sys α) : ∀ e, Decidable (SettledBegin job s e)
  | .begin .. => inferInstanceAs (Decidable (_ → _ → _))
  | .workreq .. | .workreqDone .. | .sendWork .. | .sendNoWork .. | .workreceipt ..
  | .workreceiptDone .. | .worksend .. | .worksendDone .. | .abortStart .. | .abortRequest ..
  | .abortReplies .. | .reduceSkip .. | .reduceResume .. | .reduceBegin .. | .reduceReply ..
  | .reduceDone .. | .requestSkip .. | .requestReply .. | .requestSend .. | .requestNone ..
  | .process .. | .checkForTerm .. | .termReply .. | .termRepliesDone .. | .termUp ..
  | .termDown .. | .token .. | .barrierStart .. | .barrierReply .. | .barrierUp ..
  | .barrierDown .. | .tokenDrain .. | .worksendWait .. | .reduceSync .. | .reduceSyncReply ..
  | .reduceSyncDone .. | .abortReduceReply .. | .abortReduceUp .. | .abortReduceDown ..
  | .finish .. => .isTrue trivial

theorem accounted_start (queue : Rank → List α) (abortFlag : Rank → Bool)
    (input : Rank → ReduceInput) (enqueued : List α) :
    (Sys.start queue abortFlag input enqueued).work.Accounted size fun _ => 0 where
  outstanding_eq _ := by
    simp [Sys.start, WorkNet.transfersFrom, WorkNet.receiptsTo, Chan.outWeight, Chan.inWeight,
      Chan.weight]
  receipt_lt _ _ h := absurd rfl h
  transfer_inv _ _ _ _ h := by simp [Sys.start] at h
  receipt_inv _ _ _ h := by simp [Sys.start] at h

theorem outstanding_of_begin {next : Option Rank} {ops : List (WorkOp α)}
    (he : s.Enabled job (.begin r next ops)) (hc : SettledBegin job s (.begin r next ops))
    (hok : s.Ok job r) : s.work.workOutstanding r = 0 := by
  have hst := (hok.requested_of_idle he.1).1
  have hack := hok.tidy.acknowledged
  rcases Nat.eq_zero_or_pos (s.inv r) with h₀ | hpos
  · exact hack (.inl h₀) (by simp [Sys.loc, hst])
  · cases ht : (job.opts (s.inv r)).termTree with
    | true => exact hack (.inr ht) (by simp [Sys.loc, hst])
    | false => exact hc hpos ht

theorem accounted_next (he : s.Enabled job e) (hc : SettledBegin job s e)
    (hcoh : s.Coherent job) (h : s.work.Accounted job.size s.inv) :
    (s.next job e).work.Accounted job.size (s.next job e).inv := by
  obtain ⟨hok, hmatch⟩ := hcoh
  have hr := (hok _).rank_lt he
  cases e with
  | begin r next ops =>
      exact (h.init hmatch (outstanding_of_begin he hc (hok r)) next _).congr rfl rfl rfl
  | workreqDone r rand =>
      simp only [Sys.next]
      split
      · exact h
      · exact h.congr rfl rfl rfl
  | sendWork r count =>
      have hat := (hok r).position
      rw [he.1] at hat
      exact h.sendWork (hmatch.awaits_lt _ _ (hmatch.awaits_head hat.2.2.1)).1 _ _
  | sendNoWork r =>
      have hat := (hok r).position
      rw [show s.pc r = _ from he] at hat
      exact h.sendNoWork (hmatch.awaits_lt _ _ (hmatch.awaits_head hat.2)).1 _
  | workreceipt r src => exact h.workreceiptRecv he.2.2
  | requestReply r sent =>
      obtain ⟨_, _, hreq, hm⟩ := he
      obtain ⟨m, ms, hms⟩ := List.exists_cons_of_ne_nil hm
      have hd := (hmatch.awaits_lt _ _ (hmatch.awaits_of_reply hm)).2.1
      have htest : (s.work.requestTest r sent).Accounted job.size s.inv := h.congr rfl rfl rfl
      have hdone := htest.workReceive hr hd hms
      rwa [show m = s.reply r by simp [Sys.reply, hms]] at hdone
  | finish r =>
      simp only [Sys.next]
      split
      · exact h.congr rfl rfl rfl
      · exact h
  | workreq r src | worksend r i | requestSend r sent next | requestNone r sent | process r ops
  | worksendWait r => exact h.congr rfl rfl rfl
  | _ => exact h

theorem accounted_of_run {es : List (Event α)}
    (hrun : (job.step.restrict (SettledBegin job)).Run s es t) (hcoh : s.Coherent job)
    (h : s.work.Accounted job.size s.inv) : t.work.Accounted job.size t.inv :=
  (hrun.restrict_invariant (I := fun s => s.Coherent job ∧ s.work.Accounted job.size s.inv)
    (fun _ _ hI hE hC => ⟨coherent_next hE hI.1, accounted_next hE hC hI.1 hI.2⟩) ⟨hcoh, h⟩).2

/-- The receipt accounting is exact across invocations, in every run in which each rank
that used the token starts its next invocation with all its transfers acknowledged: at
every state `work_outstanding` is the number of transfers not yet received plus the number
of receipts not yet received, all of the current invocation. -/
theorem receipts_exact {queue : Rank → List α} {abortFlag : Rank → Bool}
    {input : Rank → ReduceInput} {enqueued : List α} {es : List (Event α)}
    (hrun : (job.step.restrict (SettledBegin job)).Run
      (Sys.start queue abortFlag input enqueued) es t) (r : Rank) :
    t.work.workOutstanding r =
        t.work.transfersFrom job.size r + t.work.receiptsTo job.size r ∧
      (∀ d k l, .items k l ∈ t.work.replies r d → k = t.inv r) ∧
      ∀ d, ∀ k ∈ t.work.receipts d r, k = t.inv r := by
  have h := accounted_of_run hrun (coherent_start ..) (accounted_start ..)
  exact ⟨h.outstanding_eq r, h.transfer_inv r, h.receipt_inv r⟩

end Runs

/-! ## Two invocations by the token -/

/-- One pass through the main loop up to `CIRCLE_request_work`, in which `r` finds nothing. -/
def passMain {α : Type*} (r : Rank) : List (Event α) :=
  [.workreqDone r 0, .workreceiptDone r, .worksendDone r, .abortStart r, .abortRequest r none,
    .abortReplies r false, .reduceSkip r]

/-- One pass through the cleanup loop, in which the first `sends` sends of `r` are complete. -/
def passCleanup {α : Type*} (r : Rank) (sends : Nat) (done : Bool) : List (Event α) :=
  List.flatten
    [[.workreqDone r 0], List.replicate sends (.worksend r 0),
      [.worksendDone r, .reduceSkip r, .requestNone r true, .abortStart r, .abortRequest r none,
        .abortReplies r false, .tokenDrain r false done, .barrierStart r]]

/-- Rank `0` hands an item to rank `1`, and the two terminate.  After the item has arrived, rank
`0` looks for `receipts` before it goes on. -/
def ringInvocation (receipts : List (Event Nat)) : List (Event Nat) :=
  List.flatten
    [handover, [.checkForTerm 1, .token 1 false], passMain 1,
      [.requestReply 1 false, .process 1 [.dequeue]], receipts,
      [.workreceiptDone 0, .worksendDone 0, .abortStart 0, .abortRequest 0 none,
        .abortReplies 0 false, .reduceSkip 0, .requestSkip 0, .process 0 [.dequeue]],
      passMain 0, [.requestSend 0 true (some 1), .checkForTerm 0, .token 0 false],
      [.workreq 1 0, .workreqDone 1 0, .sendNoWork 1, .workreceiptDone 1, .worksendDone 1,
        .abortStart 1, .abortRequest 1 none, .abortReplies 1 false, .reduceSkip 1,
        .requestNone 1 false, .checkForTerm 1, .token 1 true],
      passMain 1, [.requestNone 1 false, .checkForTerm 1, .token 1 false],
      passMain 0, [.requestReply 0 false, .checkForTerm 0, .token 0 true],
      passMain 1, [.requestNone 1 false, .checkForTerm 1, .token 1 true],
      [.barrierStart 1], passCleanup 1 2 false,
      [.barrierReply 1 none, .barrierUp 1, .barrierDown 1 false],
      [.barrierStart 0], passCleanup 0 2 true,
      [.barrierReply 0 (some 1), .barrierUp 0, .worksendWait 0],
      passCleanup 1 0 false,
      [.barrierReply 1 none, .barrierUp 1, .barrierDown 1 true, .worksendWait 1,
        .abortReduceUp 1, .abortReduceReply 0, .abortReduceUp 0, .finish 0, .abortReduceDown 1,
        .finish 1]]

/-- Rank `0` finds the receipt, and hands an item over in the next invocation too. -/
def acknowledged : List (Event Nat) := ringInvocation [.workreceipt 0 1] ++ handover

theorem receipts_exact_acknowledged :
    let t := ringPair.step.follow .fresh acknowledged
    t.inv 0 = 2 ∧ t.work.transfersFrom 2 0 = 1 ∧ t.work.workOutstanding 0 = 1 := by
  intro t
  have hrun : (ringPair.step.restrict (SettledBegin ringPair)).Run .fresh acknowledged t :=
    .of_admits (by decide +kernel)
  have htransfers : t.work.transfersFrom 2 0 = 1 := by decide +kernel
  have hreceipts : t.work.receiptsTo 2 0 = 0 := by decide +kernel
  have hexact := (receipts_exact hrun 0).1
  rw [show ringPair.size = 2 from rfl, htransfers, hreceipts] at hexact
  exact ⟨by decide +kernel, htransfers, hexact⟩

/-- The two terminate before rank `0` looks for the receipt, and rank `0` starts another
invocation. -/
def leftover : List (Event Nat) := ringInvocation [] ++ [.begin 0 (some 1) []]

/-- The accounting is not exact in every run. -/
theorem receipts_exact_fails :
    ¬∀ (es : List (Event Nat)) (t : Sys Nat),
      ringPair.step.Run .fresh es t →
        t.stage 0 = .main → t.work.workOutstanding 0 =
          t.work.transfersFrom ringPair.size 0 + t.work.receiptsTo ringPair.size 0 := by
  intro h
  have hrun : ringPair.step.Run .fresh leftover _ :=
    EventSystem.Run.of_admits (by decide +kernel)
  have hacc := h leftover _ hrun (by decide +kernel)
  revert hacc
  decide +kernel

end Libcircle
