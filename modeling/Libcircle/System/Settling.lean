import Libcircle.System.Passes

/-!
# The end of the work

Every rank calls `CIRCLE_begin` (`leads_begun`), and then the ranks can get rid of
all items.  Each item in a queue or on its way, each transfer without its receipt,
and each requestor to be served adds to `WorkNet.load`.  No rank running alone
raises it (`quiet_load`), and while the system is not settled, some rank can lower it.
-/

namespace Libcircle

variable {α : Type*} {job : Job} {s t : Sys α} {e : Event α} {r d : Rank}

/-! ## All ranks call `CIRCLE_begin` -/

/-- Every rank has called `CIRCLE_begin`. -/
def Sys.Begun (job : Job) (s : Sys α) : Prop := ∀ r, r < job.size → 0 < s.inv r

theorem begun_next (h : s.Begun job) : (s.next job e).Begun job := fun r hr =>
  (h r hr).trans_le (inv_le_next r)

theorem leads_begun (ht : (job.opts 1).termTree = true) (hL : s.Live job) :
    job.benign.Leads s fun t => t.Live job ∧ t.Begun job := by
  refine EventSystem.Leads.descend (fun s => ∑ r ∈ Finset.range job.size, (1 - s.inv r))
    (fun u hu hb => ?_) hL
  obtain ⟨r, hr, hinv⟩ : ∃ r, r < job.size ∧ u.inv r = 0 := by
    simpa only [Sys.Begun, not_forall, Nat.not_lt, Nat.le_zero_eq, exists_prop] using hb
  obtain ⟨next, hnext⟩ := exists_nextProc job.size r
  have he : u.Enabled job (.begin r next []) :=
    ⟨idle_of_inv_eq_zero hu.once hinv, hr, hnext, .inl rfl⟩
  refine Job.benign_next he hinv rfl (.here ⟨live_next ht he hinv hu, .inr ?_⟩)
  have hsum := sum_add_eq_of_ne (Finset.mem_range.mpr hr) (fun x => 1 - u.inv x)
    (fun x => 1 - (u.next job (.begin r next [])).inv x)
    fun x hx => by simp [Sys.next, Function.update_of_ne hx]
  have hself : (u.next job (.begin r next [])).inv r = 1 := by simp [Sys.next, hinv]
  simp only [hinv, hself] at hsum
  omega

/-! ## The load -/

/-- The weight of a reply in flight. -/
def Reply.load (m : Reply α) : Nat := m.transfers + m.payload.length

namespace WorkNet

variable {w w' : WorkNet α} {size : Nat}

/-- What `r` has to process, to answer and to wait for. -/
def stake (w : WorkNet α) (r : Rank) : Nat :=
  (w.queue r).length + 2 * (w.requestors r).length + w.workOutstanding r

/-- The work left in the system. -/
def load (size : Nat) (w : WorkNet α) : Nat :=
  ∑ r ∈ Finset.range size, w.stake r + w.replies.totalWeight Reply.load size

theorem load_congr (hqueue : w'.queue = w.queue) (hreq : w'.requestors = w.requestors)
    (hout : w'.workOutstanding = w.workOutstanding) (hreplies : w'.replies = w.replies) :
    w'.load size = w.load size := by
  simp only [load, stake, hqueue, hreq, hout, hreplies]

/-- Only the stake of `r` changes, and the replies. -/
theorem load_of_stake (w w' : WorkNet α) (hr : r < size)
    (hne : ∀ x, x ≠ r → w'.stake x = w.stake x) :
    w'.load size + w.stake r + w.replies.totalWeight Reply.load size =
      w.load size + w'.stake r + w'.replies.totalWeight Reply.load size := by
  have hsum := sum_add_eq_of_ne (Finset.mem_range.mpr hr) w.stake w'.stake hne
  unfold load
  omega

theorem load_sendNoWork (hr : r < size) (hd : d < size) (hne : w.requestors r ≠ [])
    (abortFlag : Bool) :
    ((w.sendNoWork abortFlag r d).nextRequestor r).load size ≤ w.load size := by
  have hload := load_of_stake w ((w.sendNoWork abortFlag r d).nextRequestor r) hr
    fun x hx => by simp [stake, nextRequestor, sendNoWork, Function.update_of_ne hx]
  have hstake : ((w.sendNoWork abortFlag r d).nextRequestor r).stake r + 2 = w.stake r := by
    have hpos := List.length_pos_of_ne_nil hne
    simp only [stake, nextRequestor, sendNoWork, Function.update_self, List.length_tail]
    omega
  have hflight :
      ((w.sendNoWork abortFlag r d).nextRequestor r).replies.totalWeight Reply.load size =
      w.replies.totalWeight Reply.load size := by
    refine (Chan.totalWeight_push _ _ _ hr hd).trans ?_
    cases abortFlag <;> rfl
  omega

theorem load_sendWork (hr : r < size) (hd : d < size) (hne : w.requestors r ≠ [])
    (abortFlag : Bool) (inv : Nat) {count : Nat} (hcount : count ≤ (w.queue r).length) :
    ((w.sendWork abortFlag inv r d count).nextRequestor r).load size ≤ w.load size := by
  by_cases h0 : count = 0
  · rw [h0, sendWork_zero]
    exact load_sendNoWork hr hd hne abortFlag
  · -- the items move from the queue to the reply, which replaces the requestor
    have hload := load_of_stake w
      ((w.sendWork abortFlag inv r d count).nextRequestor r) hr fun x hx => by
        simp [stake, nextRequestor, Function.update_of_ne hx]
    have hstake : ((w.sendWork abortFlag inv r d count).nextRequestor r).stake r + (count + 1) =
        w.stake r := by
      have hpos := List.length_pos_of_ne_nil hne
      simp only [stake, nextRequestor, sendWork_queue, sendWork_requestors,
        sendWork_workOutstanding, Function.update_self, List.length_tail, List.length_take, h0,
        if_false]
      omega
    have hflight : ((w.sendWork abortFlag inv r d count).nextRequestor r).replies.totalWeight
        Reply.load size = w.replies.totalWeight Reply.load size + (1 + count) := by
      simp only [sendWork, h0, if_false, nextRequestor]
      rw [Chan.totalWeight_push _ _ _ hr hd]
      simp only [Reply.load, Reply.transfers, Reply.payload, List.length_drop]
      omega
    omega

/-- A receipt is received. -/
theorem load_workreceiptRecv (hr : r < size) (hout : 0 < w.workOutstanding r) :
    (w.workreceiptRecv r d).load size < w.load size := by
  have hload := load_of_stake w (w.workreceiptRecv r d) hr
    fun x hx => by simp [stake, workreceiptRecv, Function.update_of_ne hx]
  have hstake : (w.workreceiptRecv r d).stake r + 1 = w.stake r := by
    simp only [stake, workreceiptRecv, Function.update_self]
    omega
  have hflight : (w.workreceiptRecv r d).replies = w.replies := rfl
  rw [hflight] at hload
  omega

/-- Items are received. -/
theorem load_workReceive (hr : r < size) (hd : d < size) (hq : w.queue r = []) {k : Nat}
    {l : List α} {ms : List (Reply α)} (hm : w.replies d r = .items k l :: ms) :
    (w.workReceive r d (.items k l)).load size < w.load size := by
  have hload := load_of_stake w (w.workReceive r d (.items k l)) hr
    fun x hx => by simp [stake, workReceive, Function.update_of_ne hx]
  have hstake : (w.workReceive r d (.items k l)).stake r = w.stake r + l.length := by
    simp only [stake, workReceive, Function.update_self, hq, List.length_nil]
    omega
  have hflight : w.replies.totalWeight Reply.load size =
      (w.workReceive r d (.items k l)).replies.totalWeight Reply.load size + (1 + l.length) :=
    Chan.totalWeight_pop _ hm hd hr
  omega

/-- An item is processed. -/
theorem load_setQueue (hr : r < size) {l : List α} (hl : l.length < (w.queue r).length) :
    (w.setQueue r l).load size < w.load size := by
  have hload := load_of_stake w (w.setQueue r l) hr
    fun x hx => by simp [stake, setQueue, Function.update_of_ne hx]
  have hstake : (w.setQueue r l).stake r + (w.queue r).length = w.stake r + l.length := by
    simp only [stake, setQueue, Function.update_self]
    omega
  have hflight : (w.setQueue r l).replies = w.replies := rfl
  rw [hflight] at hload
  omega

end WorkNet

/-! ## A rank running alone -/

/-- A transfer of the plan leaves items in the queue. -/
theorem count_lt_of_sendWork {count : Nat} (he : s.Enabled job (.sendWork r count))
    (hcoh : s.Coherent job) :
    s.work.requestors r ≠ [] ∧ count < (s.work.queue r).length := by
  have hat := (hcoh.ok r).position
  rw [he.1] at hat
  exact ⟨hat.2.2.1, (tail_sum_lt he.2 hat.2.2.2.2).1⟩

/-- No quiet event raises the load. -/
theorem quiet_load (hq : e.Quiet) (he : s.Enabled job e) (hcoh : s.Coherent job) :
    (s.next job e).work.load job.size ≤ s.work.load job.size := by
  have hlt := (hcoh.ok _).rank_lt he
  cases e with
  | workreqDone r rand =>
      refine (WorkNet.load_congr ?_ ?_ ?_ ?_).le <;>
      · simp only [Sys.next]
        split <;> rfl
  | sendWork r count =>
      obtain ⟨hne, hcount⟩ := count_lt_of_sendWork he hcoh
      have hd := (hcoh.matched.awaits_lt _ _ (hcoh.matched.awaits_head hne)).1
      exact WorkNet.load_sendWork hlt hd hne _ _ hcount.le
  | sendNoWork r =>
      have hat := (hcoh.ok r).position
      rw [show s.pc r = .sendNoWork from he] at hat
      have hd := (hcoh.matched.awaits_lt _ _ (hcoh.matched.awaits_head hat.2)).1
      exact WorkNet.load_sendNoWork hlt hd hat.2 _
  | begin | workreq | workreceipt | worksend | requestReply | process | termReply | token
  | worksendWait | finish => exact hq.elim
  | _ => exact Nat.le_refl _

/-- No quiet event takes the last item. -/
theorem quiet_nonempty (hq : e.Quiet) (he : s.Enabled job e) (hcoh : s.Coherent job)
    (hne : s.work.queue r ≠ []) : (s.next job e).work.queue r ≠ [] := by
  cases e with
  | workreqDone x rand =>
      simp only [Sys.next]
      split <;> exact hne
  | sendWork x count =>
      obtain ⟨_, hcount⟩ := count_lt_of_sendWork he hcoh
      simp only [Sys.next, WorkNet.nextRequestor, WorkNet.sendWork_queue]
      by_cases hx : r = x
      · subst hx
        rw [Function.update_self, ← List.length_pos_iff, List.length_take]
        omega
      · rwa [Function.update_of_ne hx]
  | begin | requestReply | process | finish => exact hq.elim
  | _ => exact hne

/-- No quiet event receives or sends a receipt. -/
theorem quiet_receipts (hq : e.Quiet) : (s.next job e).work.receipts = s.work.receipts := by
  cases e with
  | workreqDone r rand =>
      simp only [Sys.next]
      split <;> rfl
  | sendWork r count => simp [Sys.next, WorkNet.nextRequestor]
  | workreceipt | requestReply | begin | worksendWait | finish | process => exact hq.elim
  | _ => rfl

/-! ## While the system is not settled -/

theorem settled_of_stage (hL : s.Live job) (hB : 0 < s.inv r) (hst : s.stage r ≠ .main) :
    s.termView.Settled job 1 :=
  hL.draining.term.phase.resolve_left fun hS => hst (hS.main_of_pos hB)

/-- Before the system is settled, all ranks are in the main loop. -/
theorem stage_of_not_settled (hL : s.Live job) (hB : 0 < s.inv r)
    (hS : ¬s.termView.Settled job 1) : s.stage r = .main :=
  of_not_not fun hst => hS (settled_of_stage hL hB hst)

theorem opts_of_stage (ht : (job.opts 1).termTree = true) (hO : s.Once job)
    (hst : s.stage r ≠ .outside) : (job.opts (s.inv r)).termTree = true := by
  rw [hO.inv_eq hst]
  exact ht

/-- The next step of a rank with an item processes it. -/
theorem process_load (hL : s.Live job) (hpc : s.pc r = .work) (hb : s.Busy r) :
    s.Enabled job (.process r [.dequeue]) ∧
      (s.next job (.process r [.dequeue])).work.load job.size < s.work.load job.size := by
  have he : s.Enabled job (.process r [.dequeue]) := ⟨hpc, hb⟩
  have hr : r < job.size := (hL.coherent.ok _).rank_lt he
  refine ⟨he, WorkNet.load_setQueue hr ?_⟩
  have hpos := List.length_pos_of_ne_nil hb.1
  simp only [Sys.callback, CallbackState.run, List.foldl_cons, List.foldl_nil, CallbackState.call,
    Sys.callbackState, List.length_dropLast]
  omega

/-- The system is settled, or the load is lower. -/
def Sys.Lightened (job : Job) (s t : Sys α) : Prop :=
  (t.Live job ∧ t.Begun job) ∧
    (t.termView.Settled job 1 ∨ t.work.load job.size < s.work.load job.size)

/-- What a rank running alone in the main loop has not changed. -/
structure Sys.Keeps (job : Job) (s t : Sys α) (r : Rank) : Prop where
  live : t.Live job
  begun : t.Begun job
  elsewhere : s.Elsewhere t r
  receipts : t.work.receipts = s.work.receipts
  load : t.work.load job.size ≤ s.work.load job.size
  busy : s.Busy r → t.Busy r

/-- Some run comes to a stop of the main loop, unless the load is lowered on the way. -/
theorem leads_stop (ht : (job.opts 1).termTree = true) (hL : s.Live job) (hB : s.Begun job)
    (hS : ¬s.termView.Settled job 1) (hr : r < job.size) {p : Pc} (hp : p ∈ Stage.main.stops) :
    job.benign.Leads s fun t => s.Lightened job t ∨ (s.Keeps job t r ∧ t.pc r = p) := by
  have hst := stage_of_not_settled hL (hB r hr) hS
  have hsolo := solo_main (opts_of_stage ht hL.once (by simp [hst])) hL.coherent hst hp
  have halone := alone ht hL (J := fun t => t.Begun job ∧ t.work.receipts = s.work.receipts ∧
      t.work.load job.size ≤ s.work.load job.size ∧ (s.Busy r → t.Busy r))
    (fun u e hu ⟨hub, hrec, hload, hbusy⟩ _ hq he =>
      ⟨begun_next hub, (quiet_receipts hq).trans hrec,
        (quiet_load hq he hu.coherent).trans hload, fun hb =>
        ⟨quiet_nonempty hq he hu.coherent (hbusy hb).1,
          (congrFun (quiet_abortFlag hq) r).trans (hbusy hb).2⟩⟩)
    ⟨hB, rfl, Nat.le_refl _, id⟩ hsolo
  refine halone.trans ?_
  rintro t ⟨hLt, hels, ⟨hBt, hrec, hload, hbusy⟩, hleft | ⟨hpc, hb⟩ | hpc⟩
  · exact .here (.inl ⟨⟨hLt, hBt⟩, .inl (settled_of_stage hLt (hBt r hr) hleft)⟩)
  · obtain ⟨he, hlt⟩ := process_load hLt hpc hb
    exact Job.benign_next he trivial rfl
      (.here (.inl ⟨⟨live_next ht he trivial hLt, begun_next hBt⟩, .inr (hlt.trans_le hload)⟩))
  · exact .here (.inr ⟨⟨hLt, hBt, hels, hrec, hload, hbusy⟩, hpc⟩)

/-- A rank with an item lowers the load. -/
theorem lighten_busy (ht : (job.opts 1).termTree = true) (hL : s.Live job) (hB : s.Begun job)
    (hS : ¬s.termView.Settled job 1) (hr : r < job.size) (hb : s.Busy r) :
    job.benign.Leads s (s.Lightened job) := by
  refine (leads_stop ht hL hB hS hr (p := .work) (by decide)).trans ?_
  rintro t (hdone | ⟨hk, hpc⟩)
  · exact .here hdone
  · obtain ⟨he, hlt⟩ := process_load hk.live hpc (hk.busy hb)
    exact Job.benign_next he trivial rfl
      (.here ⟨⟨live_next ht he trivial hk.live, begun_next hk.begun⟩,
        .inr (hlt.trans_le hk.load)⟩)

/-- A receipt in flight is received. -/
theorem lighten_receipt (ht : (job.opts 1).termTree = true) (hL : s.Live job) (hB : s.Begun job)
    (hS : ¬s.termView.Settled job 1) (hm : s.work.receipts d r ≠ []) :
    job.benign.Leads s (s.Lightened job) := by
  obtain ⟨hd, hr⟩ := hL.accounted.receipt_lt r d hm
  refine (leads_stop ht hL hB hS hr (p := .workreceipt) (by decide)).trans ?_
  rintro t (hdone | ⟨hk, hpc⟩)
  · exact .here hdone
  · have hm' : t.work.receipts d r ≠ [] := by rwa [hk.receipts]
    have hout : 0 < t.work.workOutstanding r := by
      refine Nat.pos_of_ne_zero fun h0 => ?_
      obtain ⟨k, hk'⟩ := List.exists_mem_of_ne_nil _ hm'
      exact WorkNet.not_mem_of_receiptsTo (hk.live.accounted.none_of_outstanding h0).2 hd hk'
    have he : t.Enabled job (.workreceipt r d) := ⟨hpc, hout, hm'⟩
    have hlt : (t.next job (.workreceipt r d)).work.load job.size < t.work.load job.size :=
      WorkNet.load_workreceiptRecv hr hout
    exact Job.benign_next he trivial trivial
      (.here ⟨⟨live_next ht he trivial hk.live, begun_next hk.begun⟩,
        .inr (hlt.trans_le hk.load)⟩)

/-- Items in flight are received. -/
theorem lighten_transfer (ht : (job.opts 1).termTree = true) (hL : s.Live job) (hB : s.Begun job)
    (hS : ¬s.termView.Settled job 1) {k : Nat} {l : List α} (hm : .items k l ∈ s.work.replies d r) :
    job.benign.Leads s (s.Lightened job) := by
  obtain ⟨hr, hd, hdr⟩ := hL.matched.awaits_lt _ _
    (hL.matched.awaits_of_reply (List.ne_nil_of_mem hm))
  refine (leads_stop ht hL hB hS hr (p := .request) (by decide)).trans ?_
  rintro t (hdone | ⟨hk, hpc⟩)
  · exact .here hdone
  · have hreplies : t.work.replies d r = s.work.replies d r :=
      congrArg Mail.replies (hk.elsewhere.mail d hdr r)
    have hmem : .items k l ∈ t.work.replies d r := hreplies ▸ hm
    obtain ⟨m, hone, _⟩ := hk.live.matched.reply_unique (List.ne_nil_of_mem hmem)
    obtain rfl : .items k l = m := by
      rw [hone] at hmem
      exact List.mem_singleton.mp hmem
    obtain ⟨hw, hrank⟩ := hk.live.matched.awaits_of_reply (List.ne_nil_of_mem hmem)
    have hq : t.work.queue r = [] := (hk.live.coherent.ok r).tidy.queue_nil hw
    have he : t.Enabled job (.requestReply r false) :=
      ⟨hpc, .inr hq, hw, by rw [hrank, hone]; simp⟩
    have hreply : t.reply r = .items k l := by simp [Sys.reply, hrank, hone]
    have hlt : (t.next job (.requestReply r false)).work.load job.size <
        t.work.load job.size := by
      have hrecv := WorkNet.load_workReceive (w := t.work.requestTest r false) hr hd hq hone
      simp only [Sys.next, hreply, hrank]
      exact (WorkNet.load_congr rfl rfl rfl rfl).trans_lt
        (hrecv.trans_eq (WorkNet.load_congr rfl rfl rfl rfl))
    exact Job.benign_next he trivial trivial
      (.here ⟨⟨live_next ht he trivial hk.live, begun_next hk.begun⟩,
        .inr (hlt.trans_le hk.load)⟩)

/-- A transfer without a receipt is on its way, or its receipt is. -/
theorem exists_outstanding (hA : s.work.Accounted job.size s.inv)
    (hout : s.work.workOutstanding r ≠ 0) :
    (∃ d, s.work.receipts d r ≠ []) ∨ ∃ d k l, .items k l ∈ s.work.replies r d := by
  by_contra hnone
  simp only [not_or, not_exists, not_not] at hnone
  obtain ⟨hrec, hitems⟩ := hnone
  refine hout ((hA.outstanding_eq r).trans ?_)
  have hto : s.work.receiptsTo job.size r = 0 := by
    unfold WorkNet.receiptsTo Chan.inWeight
    exact Finset.sum_eq_zero fun d _ => by simp [Chan.weight, hrec d]
  have hfrom : s.work.transfersFrom job.size r = 0 := by
    unfold WorkNet.transfersFrom Chan.outWeight
    refine Finset.sum_eq_zero fun d _ => List.sum_eq_zero fun n hn => ?_
    obtain ⟨m, hm, rfl⟩ := List.mem_map.mp hn
    cases m with
    | items k l => exact absurd hm (hitems d k l)
    | noWork | abort => rfl
  rw [hto, hfrom]

/-- Some run settles the system. -/
theorem leads_settled (ht : (job.opts 1).termTree = true) (hL : s.Live job) (hB : s.Begun job) :
    job.benign.Leads s fun t => (t.Live job ∧ t.Begun job) ∧ t.termView.Settled job 1 := by
  refine EventSystem.Leads.descend (fun s => s.work.load job.size) (fun u ⟨hu, hub⟩ hS => ?_)
    ⟨hL, hB⟩
  obtain ⟨r, hr, hrest⟩ : ∃ r, r < job.size ∧ ¬(u.work.workOutstanding r = 0 ∧ ¬u.Busy r) := by
    by_contra hall
    have hrest : ∀ r, r < job.size → u.work.workOutstanding r = 0 ∧ ¬u.Busy r := fun r hr =>
      of_not_not fun h => hall ⟨r, hr, h⟩
    exact hS fun r hr => ⟨hub r hr, (hrest r hr).1, fun _ => passive_of_not_busy (hrest r hr).2⟩
  rw [not_and_or, not_not] at hrest
  rcases hrest with hout | hb
  · obtain ⟨d, hm⟩ | ⟨d, k, l, hm⟩ := exists_outstanding hu.accounted hout
    · exact lighten_receipt ht hu hub hS hm
    · exact lighten_transfer ht hu hub hS hm
  · exact lighten_busy ht hu hub hS hr hb

end Libcircle
