import Libcircle.System.Cleanup

/-!
# All ranks start the barrier

While some rank has not started the barrier, one of the ranks can lower the weight
of what is waited for: a request is received and answered, an abort request is
answered, a start message is answered, and a lowest rank with a reduction counts a
reply or passes its result on (`leads_lowered`).
-/

namespace Libcircle

variable {α : Type*} {job : Job} {s t : Sys α} {e : Event α} {r x d q c : Rank}

/-- The weight is lowered at a stop of the cleanup loop. -/
theorem lower_at (ht : (job.opts 1).termTree = true) (hC : s.Cleaning job) (hA : ¬s.Arrived job)
    (hr : r < job.size) {p : Pc} (hp : p ∈ Stage.cleanup.stops)
    (h : ∀ t, s.Stopped job t r p → job.benign.Leads t (s.Lowered job)) :
    job.benign.Leads s (s.Lowered job) := by
  refine (leads_stopped ht hC hA hr hp).trans ?_
  rintro t (hlow | hstop)
  · exact .here hlow
  · exact h t hstop

/-! ## Requests for work -/

theorem weight_workreq (hq : q < job.size) (hr : r < job.size) (hm : s.work.requests q r ≠ []) :
    (s.next job (.workreq r q)).waits.weight job < s.waits.weight job := by
  obtain ⟨m, ms, hms⟩ := List.exists_cons_of_ne_nil hm
  have hpop : s.work.requests.totalWeight (fun _ => 3) job.size =
      (s.work.requests.pop q r).totalWeight (fun _ => 3) job.size + 3 :=
    Chan.totalWeight_pop _ hms hq hr
  refine Waits.weight_lt hr (fun x hx => ?_) ?_
  · refine Waits.due_congr rfl ?_ rfl rfl rfl rfl
    simp [Sys.waits, Sys.next, WorkNet.workreqRecv, Function.update_of_ne hx]
  · simp only [Waits.due, Waits.flight, Sys.waits, Sys.next, WorkNet.workreqRecv,
      Function.update_self, List.length_append, List.length_singleton]
    omega

/-- A request in flight is received. -/
theorem lower_request (ht : (job.opts 1).termTree = true) (hC : s.Cleaning job)
    (hA : ¬s.Arrived job) (hm : s.work.requests q r ≠ []) :
    job.benign.Leads s (s.Lowered job) := by
  obtain ⟨hq, hr, _⟩ := hC.live.matched.awaits_lt _ _ (hC.live.matched.awaits_of_request hm)
  refine lower_at ht hC hA hr (p := .workreq) (by decide) fun t hstop => ?_
  have hm' : t.work.requests q r ≠ [] := by
    rwa [show t.work.requests = s.work.requests from congrArg Waits.requests hstop.waits]
  exact hstop.lower ht (e := .workreq r q) ⟨hstop.pc, hm'⟩ trivial trivial
    (weight_workreq hq hr hm')

/-- A requestor is turned away. -/
theorem lower_requestor (ht : (job.opts 1).termTree = true) (hC : s.Cleaning job)
    (hA : ¬s.Arrived job) (hr : r < job.size) (hne : s.work.requestors r ≠ []) :
    job.benign.Leads s (s.Lowered job) := by
  refine (leads_stopped ht hC hA hr (p := .worksend) (by decide)).mono ?_
  rintro t (hlow | hstop)
  · exact hlow
  · have hat := (hstop.cleaning.live.coherent.ok r).position
    rw [hstop.pc] at hat
    have hserved : t.work.requestors r = [] := hat.2
    rw [hstop.requestors] at hserved
    exact absurd hserved hne

/-- A reply without items. -/
theorem waits_requestReply (hnone : ∀ k l, s.reply r ≠ .items k l) :
    (s.next job (.requestReply r false)).waits =
      { s.waits with
        request := Function.update s.work.request r
          { s.work.request r with workRequested := false } } := by
  cases hm : s.reply r with
  | items k l => exact absurd hm (hnone k l)
  | noWork | abort =>
      simp [Sys.waits, Sys.next, hm, WorkNet.requestDone, WorkNet.workReceive,
        WorkNet.requestTest]

/-- A reply is received, if it is the one trace left of every request. -/
theorem lower_reply (ht : (job.opts 1).termTree = true) (hC : s.Cleaning job)
    (hA : ¬s.Arrived job) (hw : (s.work.request r).workRequested = true)
    (hrequests : ∀ q d, s.work.requests q d = [])
    (hrequestors : ∀ d, d < job.size → s.work.requestors d = []) :
    job.benign.Leads s (s.Lowered job) := by
  have haw : s.work.Awaits r (s.work.request r).workRequestedRank := ⟨hw, rfl⟩
  obtain ⟨hr, hd, _⟩ := hC.live.matched.awaits_lt _ _ haw
  refine lower_at ht hC hA hr (p := .request) (by decide) fun t hstop => ?_
  have hL := hstop.cleaning.live
  have hw' : (t.work.request r).workRequested = true := by rwa [hstop.request]
  have hreply : t.work.replies (t.work.request r).workRequestedRank r ≠ [] := by
    intro hnil
    have hone := (hL.matched.balanced r _).one ⟨hw', rfl⟩
    rw [hstop.request] at hnil
    simp [WorkNet.traces, hnil, hstop.requests, hrequests, hstop.requestors, hstop.request,
      hrequestors _ hd] at hone
  obtain ⟨hitems, _⟩ := hL.accounted.none_in_flight hL.matched hstop.cleaning.settled
    (t.work.request r).workRequestedRank r
  have hnone : ∀ k l, t.reply r ≠ .items k l := by
    intro k l hm
    obtain ⟨m, ms, hms⟩ := List.exists_cons_of_ne_nil hreply
    rw [Sys.reply, hms, List.headD_cons] at hm
    refine hitems k l ?_
    rw [hms, hm]
    exact List.mem_cons_self
  have he : t.Enabled job (.requestReply r false) := ⟨hstop.pc, .inl hstop.stage, hw', hreply⟩
  refine hstop.lower ht he trivial trivial ?_
  rw [waits_requestReply hnone]
  refine Waits.weight_request_lt (v := t.waits) hr ?_
  simp [Sys.waits, hw']

/-! ## The abort broadcast -/

theorem weight_abortRequest (hst : s.stage r = .cleanup) (hq : q < job.size) (hr : r < job.size)
    (hm : s.abort.requests q r ≠ []) :
    (s.next job (.abortRequest r (some q))).waits.weight job < s.waits.weight job := by
  obtain ⟨m, ms, hms⟩ := List.exists_cons_of_ne_nil hm
  have hpop : s.abort.requests.totalWeight (fun _ => 1) job.size =
      (s.abort.requests.pop q r).totalWeight (fun _ => 1) job.size + 1 :=
    Chan.totalWeight_pop _ hms hq hr
  obtain ⟨hrequests, hout⟩ := (s.abort.recvRequest r q).abortStart_keeps (s.tree job r) r
  have hdue : ∀ x, (s.next job (.abortRequest r (some q))).waits.due job x = s.waits.due job x := by
    refine fun x => Waits.due_congr rfl rfl rfl rfl ?_ rfl
    simp only [Sys.waits, Sys.next, hst, decide_true, hout]
    rfl
  refine Waits.weight_lt hr (fun x _ => hdue x) ?_
  have hnext : (s.next job (.abortRequest r (some q))).abort.requests =
      s.abort.requests.pop q r := by
    simp only [Sys.next, hst, decide_true]
    exact hrequests
  have hflight : (s.next job (.abortRequest r (some q))).waits.flight job + 1 =
      s.waits.flight job := by
    have hwork : (s.next job (.abortRequest r (some q))).work = s.work := rfl
    simp only [Waits.flight, Sys.waits, hnext, hwork, hpop]
    omega
  rw [hdue]
  omega

/-- A rank with a broadcast outstanding is one of the communicator. -/
theorem lt_of_abortOutstanding (hcoh : s.Coherent job)
    (h : (s.abort.st r).abortOutstanding = true) : r < job.size := by
  refine (hcoh.ok r).lt_size fun hpc => ?_
  have hst := ((hcoh.ok r).requested_of_idle hpc).1
  exact absurd (((hcoh.ok r).tidy.settled (.inr (.inr hst))).2.2.symm.trans h) (by decide)

/-- A neighbour in the tree is a rank of the communicator. -/
theorem Job.neighbour_lt (hr : r < job.size) (hq : q ∈ job.neighbours r) : q < job.size := by
  rcases List.mem_append.mp hq with hq | hq
  · exact (parent_lt (Option.mem_toList.mp hq)).trans hr
  · exact job.rootedTree.node_of_mem hq

/-- An abort request is answered. -/
theorem lower_abortRequest (ht : (job.opts 1).termTree = true) (hC : s.Cleaning job)
    (hA : ¬s.Arrived job) (hm : s.abort.requests q r ≠ []) :
    job.benign.Leads s (s.Lowered job) := by
  have hpair := hC.live.draining.abort
  have hout : (s.abort.st q).abortOutstanding = true ∧ r ∈ job.neighbours q := by
    by_contra hnot
    rw [not_and_or, Bool.not_eq_true] at hnot
    exact hm (hpair.none q r hnot).1
  have hq := lt_of_abortOutstanding hC.live.coherent hout.1
  have hr := job.neighbour_lt hq hout.2
  refine lower_at ht hC hA hr (p := .abortRequest) (by decide) fun t hstop => ?_
  have hm' : t.abort.requests q r ≠ [] := by rwa [hstop.abortRequests]
  have he : t.Enabled job (.abortRequest r (some q)) := ⟨hstop.pc, by simpa using hm'⟩
  exact hstop.lower ht he trivial trivial (weight_abortRequest hstop.stage hq hr hm')

/-- The replies of the neighbours are received, when all have answered. -/
theorem lower_abortReplies (ht : (job.opts 1).termTree = true) (hC : s.Cleaning job)
    (hA : ¬s.Arrived job) (hout : (s.abort.st r).abortOutstanding = true)
    (hnone : ∀ q, s.abort.requests r q = []) : job.benign.Leads s (s.Lowered job) := by
  have hr := lt_of_abortOutstanding hC.live.coherent hout
  refine lower_at ht hC hA hr (p := .abortReplies) (by decide) fun t hstop => ?_
  have hout' : (t.abort.st r).abortOutstanding = true := by rwa [hstop.abortOutstanding]
  have htree : t.tree job r = job.tree 1 r :=
    hstop.cleaning.live.once.tree_eq (by simp [hstop.stage])
  have hreplies : ∀ q ∈ (t.tree job r).neighbours, t.abort.replies q r ≠ [] := by
    intro q hq hnil
    rw [htree] at hq
    have hone := hstop.cleaning.live.draining.abort.one r q hout' hq
    simp [hnil, hstop.abortRequests, hnone] at hone
  have he : t.Enabled job (.abortReplies r true) := ⟨hstop.pc, fun _ => ⟨hout', hreplies⟩⟩
  refine hstop.lower ht he trivial trivial (Waits.weight_lt hr (fun x hx => ?_) ?_)
  · refine Waits.due_congr rfl rfl rfl rfl ?_ rfl
    simp [Sys.waits, Sys.next, AbortNet.repliesDone, Function.update_of_ne hx]
  · refine Nat.add_lt_add_right ?_ (t.waits.flight job)
    simp [Waits.due, Sys.waits, Sys.next, AbortNet.repliesDone, hout']

/-! ## Reductions -/

theorem parentSent_congr {M : Type*} {net net' : Chan Rank M}
    (h : ∀ p, (job.tree 1 x).parentRank = some p → net' p x = net p x) :
    (job.tree 1 x).parentSent net' x = (job.tree 1 x).parentSent net x := by
  unfold TreeState.parentSent
  cases hp : (job.tree 1 x).parentRank with
  | none => rfl
  | some p => simp only [h p hp]

namespace ReduceNet

variable {y : ReduceNet} {p : Rank}

/-- A rank in the cleanup loop answers a start message. -/
theorem due_begin (h : y.Background job.rootedTree) (hp : (job.tree 1 c).parentRank = some p)
    (hc : c ∈ job.rootedTree.children p) (hm : y.net p c ≠ []) :
    (∀ x, x ≠ c → (y.begin (job.tree 1 c) c true false true).due (job.tree 1 x) x =
        y.due (job.tree 1 x) x) ∧
      (y.begin (job.tree 1 c) c true false true).due (job.tree 1 c) c <
        y.due (job.tree 1 c) c := by
  have hbegin : y.begin (job.tree 1 c) c true false true =
      { y with
        st := Function.update y.st c { y.st c with valid := false }
        net := (y.net.pop p c).push c p (.header .check false (y.st c).total (y.st c).bytes) } := by
    simp [begin, Starts, hp]
  obtain ⟨_, hidle, hstart, _⟩ := (h.edge p c hc).of_start hm
  have hpc : p < c := parent_lt hp
  rw [hbegin]
  constructor
  · intro x hx
    have hsent : (job.tree 1 x).parentSent ((y.net.pop p c).push c p (.header .check false
        (y.st c).total (y.st c).bytes)) x = (job.tree 1 x).parentSent y.net x := by
      refine parentSent_congr fun q hq => ?_
      have hqx : q < x := parent_lt hq
      rw [Chan.push_ne, Chan.pop_ne _ fun h => hx h.2]
      rintro ⟨rfl, rfl⟩
      exact Nat.lt_asymm hpc hqx
    simp only [due, hsent, Function.update_of_ne hx]
  · have hgone : (job.tree 1 c).parentSent ((y.net.pop p c).push c p (.header .check false
        (y.st c).total (y.st c).bytes)) c = false := by
      rw [Bool.eq_false_iff]
      intro hsent
      obtain ⟨q, hq, hm'⟩ := TreeState.parentSent_iff.mp hsent
      obtain rfl : p = q := Option.some.inj (hp.symm.trans hq)
      rw [Chan.push_ne _ _ fun h => Nat.ne_of_lt hpc h.1, Chan.pop_self, hstart] at hm'
      exact hm' rfl
    have hsent : (job.tree 1 c).parentSent y.net c = true :=
      TreeState.parentSent_iff.mpr ⟨p, hp, hm⟩
    simp [due, hgone, hsent, hidle]

/-- A rank counts a reply. -/
theorem due_recvReply (h : y.Background job.rootedTree) (hc : c ∈ job.rootedTree.children r)
    (hm : y.net c r ≠ []) :
    (∀ x, x ≠ r → (y.recvReply r c).due (job.tree 1 x) x = y.due (job.tree 1 x) x) ∧
      (y.recvReply r c).due (job.tree 1 r) r < y.due (job.tree 1 r) r := by
  obtain ⟨hout, _, _, hreply⟩ := (h.edge r c hc).of_reply hm
  obtain ⟨⟨total, valid, hst⟩, _, hnet⟩ := y.recvReply_of_isReply hreply
  have hle : (y.st r).replies ≤ (job.tree 1 r).children := by
    rw [h.replies_eq r hout]
    exact List.countP_le_length
  have hsent : ∀ x, (job.tree 1 x).parentSent (y.recvReply r c).net x =
      (job.tree 1 x).parentSent y.net x := by
    refine fun x => parentSent_congr fun q hq => hnet q x ?_
    rintro ⟨rfl, rfl⟩
    have hqx : q < x := parent_lt hq
    have hp : (job.tree 1 q).parentRank = some x := job.rootedTree.parent_of_mem hc
    have hxq : x < q := parent_lt hp
    exact Nat.lt_asymm hqx hxq
  constructor
  · intro x hx
    simp only [due, hsent, hst, Function.update_of_ne hx]
  · simp only [due, hsent, hst, Function.update_self, hout, if_true]
    omega

end ReduceNet

/-- Before the first rank completes the barrier, the messages of reductions are those of background
reductions. -/
theorem Sys.Cleaning.background (h : s.Cleaning job) (hA : ¬s.Arrived job) :
    s.reduce.Background job.rootedTree :=
  (h.live.draining.reduce.resolve_right fun hpast => by
    obtain ⟨⟨x, hx, hp⟩, _⟩ := hpast
    exact hA (arrived_of_past h.live.waves hx hp)).2

theorem Sys.Stopped.background {p : Pc} (h : s.Stopped job t r p) (hC : s.Cleaning job)
    (hA : ¬s.Arrived job) : t.reduce.Background job.rootedTree :=
  h.reduce ▸ hC.background hA

theorem Sys.Stopped.tree_eq {p : Pc} (h : s.Stopped job t r p) : t.tree job r = job.tree 1 r :=
  h.cleaning.live.once.tree_eq (by simp [h.stage])

/-- A start message is answered. -/
theorem lower_start (ht : (job.opts 1).termTree = true) (hC : s.Cleaning job)
    (hA : ¬s.Arrived job) (hr : r < job.size)
    (hsent : (job.tree 1 r).parentSent s.reduce.net r = true) :
    job.benign.Leads s (s.Lowered job) := by
  refine lower_at ht hC hA hr (p := .reduce) (by decide) fun t hstop => ?_
  have hL := hstop.cleaning.live
  have hB := hstop.background hC hA
  have htree := hstop.tree_eq
  rw [← hstop.reduce] at hsent
  obtain ⟨p, hp, hm⟩ := TreeState.parentSent_iff.mp hsent
  have hmem := job.mem_children hr hp
  obtain ⟨hout, hidle, _, _⟩ := (hB.edge p r hmem).of_start hm
  have hopts : (t.opts job r).reduceEnabled = true := by
    rw [Sys.opts, hL.once.inv_eq (by simp [hstop.stage])]
    exact hL.reducing p hout
  have he : t.Enabled job (.reduceBegin r false true []) :=
    ⟨hstop.pc, hopts, hidle, fun _ => ⟨by simp [hstop.stage], by rwa [htree]⟩, .inl rfl⟩
  have hwaits : (t.next job (.reduceBegin r false true [])).waits =
      { t.waits with reduce := t.reduce.begin (job.tree 1 r) r true false true } := by
    simp only [Sys.waits, Sys.next, hstop.stage, decide_true, htree, ReduceNet.callback_nil]
  obtain ⟨hdue, hlt⟩ := ReduceNet.due_begin hB hp hmem hm
  refine hstop.lower ht he trivial rfl ?_
  rw [hwaits]
  exact Waits.weight_reduce_lt hr hdue hlt

theorem ReduceNet.IsReply.replyReady {ms : List ReduceMsg} (h : IsReply ms) :
    ReplyReady ms = true := by
  cases h with
  | header valid count bytes hb =>
      rcases hb with rfl | rfl
      · rfl
      · simp [ReplyReady]
  | data count bytes buf hb => simp [ReplyReady]

/-- One quiet step more, which changes nothing of what is waited for. -/
theorem Sys.Stopped.next {p a : Pc} (h : s.Stopped job t r p)
    (ht : (job.opts 1).termTree = true) (he : t.Enabled job e) (hr : e.rank = r) (hq : e.Quiet)
    (hst : (t.next job e).stage r = t.stage r) (hw : (t.next job e).waits = t.waits)
    (hpc : (t.next job e).pc r = a) : s.Stopped job (t.next job e) r a where
  cleaning := cleaning_next ht he (firstOnly_of_quiet hq) h.cleaning
  stage := hst.trans h.stage
  waits := hw.trans h.waits
  elsewhere := h.elsewhere.next hr hq
  pc := hpc

/-- In the loop over its children, a rank counts the next reply that is there, and passes its result
on when it has counted all. -/
theorem lower_replies (ht : (job.opts 1).termTree = true) (hC : s.Cleaning job)
    (hA : ¬s.Arrived job) (hr : r < job.size) {i : Nat}
    (hstop : s.Stopped job t r (.reduceReplies i))
    (hcan : (s.reduce.st r).replies = (job.tree 1 r).children ∨
      ∃ j, i ≤ j ∧ j < (job.tree 1 r).children ∧
        s.reduce.net ((job.tree 1 r).child j) r ≠ []) :
    job.benign.Leads t (s.Lowered job) := by
  induction hn : (job.tree 1 r).children - i generalizing t i with
  | zero =>
      have hat := (hstop.cleaning.live.coherent.ok r).position
      rw [hstop.pc] at hat
      obtain ⟨_, _, _, hout, hle⟩ := hat
      have hle : i ≤ (t.tree job r).children := hle
      rw [hstop.tree_eq] at hle
      obtain rfl : i = (job.tree 1 r).children := by omega
      have hall : (s.reduce.st r).replies = (job.tree 1 r).children :=
        hcan.resolve_right fun hex => by
          obtain ⟨j, hij, hj, _⟩ := hex
          exact absurd hij (Nat.not_le.mpr hj)
      rw [← hstop.reduce] at hall
      have he : t.Enabled job (.reduceDone r []) :=
        ⟨by rw [hstop.pc, hstop.tree_eq], .inl rfl⟩
      exact hstop.lower ht he trivial rfl (weight_reduceDone hr hstop.tree_eq hout hall)
  | succ n ih =>
      have hi : i < (job.tree 1 r).children := by omega
      have hindex : (t.pc r).index = i := by rw [hstop.pc]; rfl
      have hchild : t.child job r = (job.tree 1 r).child i := by
        rw [Sys.child, hstop.tree_eq, hindex]
      have hpc : t.pc r = .reduceReplies (t.pc r).index := by rw [hindex, hstop.pc]
      have hlt : (t.pc r).index < (t.tree job r).children := by rwa [hindex, hstop.tree_eq]
      by_cases hm : t.reduce.net ((job.tree 1 r).child i) r = []
      · have he : t.Enabled job (.reduceReply r false []) := ⟨hpc, hlt, by simp, .inl rfl⟩
        have hw : (t.next job (.reduceReply r false [])).waits = t.waits := by
          simp [Sys.waits, Sys.next, ReduceNet.callback_nil]
        have hstop' := hstop.next (a := .reduceReplies (i + 1)) ht he rfl ⟨rfl, rfl⟩ rfl hw
          (by simp [Sys.next, hindex])
        refine Job.benign_next he trivial rfl (ih hstop' ?_ (by omega))
        rcases hcan with hall | ⟨j, hij, hj, hne⟩
        · exact .inl hall
        · refine .inr ⟨j, Nat.lt_of_le_of_ne hij ?_, hj, hne⟩
          rintro rfl
          rw [hstop.reduce] at hm
          exact hne hm
      · have hB := hstop.background hC hA
        have hmem : (job.tree 1 r).child i ∈ job.rootedTree.children r := TreeState.child_mem hi
        obtain ⟨_, _, _, hreply⟩ := (hB.edge _ _ hmem).of_reply hm
        have he : t.Enabled job (.reduceReply r true []) :=
          ⟨hpc, hlt, fun _ => by rw [hchild]; exact hreply.replyReady, .inl rfl⟩
        have hwaits : (t.next job (.reduceReply r true [])).waits =
            { t.waits with reduce := t.reduce.recvReply r ((job.tree 1 r).child i) } := by
          simp only [Sys.waits, Sys.next, hchild, if_true, ReduceNet.callback_nil]
        obtain ⟨hdue, hlt⟩ := ReduceNet.due_recvReply hB hmem hm
        refine hstop.lower ht he trivial rfl ?_
        rw [hwaits]
        exact Waits.weight_reduce_lt hr hdue hlt

/-- When all start messages are answered, a lowest rank with a reduction outstanding can go on. -/
theorem lower_reduce (ht : (job.opts 1).termTree = true) (hC : s.Cleaning job)
    (hA : ¬s.Arrived job) (hx : (s.reduce.st x).outstanding = true)
    (hsent : ∀ c, c < job.size → (job.tree 1 c).parentSent s.reduce.net c = false) :
    job.benign.Leads s (s.Lowered job) := by
  have hB := hC.background hA
  obtain ⟨r, hout, hmin⟩ :=
    job.rootedTree_wf.has_min {y | (s.reduce.st y).outstanding = true} ⟨x, hx⟩
  have hout : (s.reduce.st r).outstanding = true := hout
  have hr : r < job.size := by
    refine (hC.live.coherent.ok r).lt_size fun hpc => ?_
    have hst := ((hC.live.coherent.ok r).requested_of_idle hpc).1
    exact absurd (((hC.live.coherent.ok r).tidy.settled (.inr (.inr hst))).2.1.symm.trans hout)
      (by decide)
  -- each child has been counted, or its reply is in flight
  have hcan : (s.reduce.st r).replies = (job.tree 1 r).children ∨
      ∃ j, 0 ≤ j ∧ j < (job.tree 1 r).children ∧
        s.reduce.net ((job.tree 1 r).child j) r ≠ [] := by
    by_cases hm : ∃ c ∈ job.rootedTree.children r, s.reduce.net c r ≠ []
    · obtain ⟨c, hc, hm⟩ := hm
      obtain ⟨j, hj⟩ := List.getElem?_of_mem hc
      have hlt : j < (job.tree 1 r).children := (List.getElem?_eq_some_iff.mp hj).1
      have hchild : (job.tree 1 r).child j = c :=
        Option.some.inj ((TreeState.child_getElem? hlt).symm.trans hj)
      exact .inr ⟨j, Nat.zero_le j, hlt, by rwa [hchild]⟩
    · left
      rw [hB.replies_eq r hout]
      refine List.countP_eq_length.mpr fun c hc => ?_
      cases hB.edge r c hc with
      | quiet hidle hd hu => exact ReduceNet.heard_iff.mpr ⟨hidle, hd, hu⟩
      | started _ _ hd _ =>
          have hstart : (job.tree 1 c).parentSent s.reduce.net c = true :=
            TreeState.parentSent_iff.mpr
              ⟨r, job.rootedTree.parent_of_mem hc, by simp [hd]⟩
          exact absurd ((hsent c (job.rootedTree.node_of_mem hc)).symm.trans hstart) (by decide)
      | working _ hbusy _ _ => exact absurd hc (hmin c hbusy)
      | answered _ _ _ hu => exact absurd ⟨c, hc, hu.ne_nil⟩ hm
  refine lower_at ht hC hA hr (p := .reduce) (by decide) fun t hstop => ?_
  have hL := hstop.cleaning.live
  have hout' : (t.reduce.st r).outstanding = true := by rwa [hstop.reduce]
  have hopts : (t.opts job r).reduceEnabled = true := by
    rw [Sys.opts, hL.once.inv_eq (by simp [hstop.stage])]
    exact hL.reducing r hout'
  have he : t.Enabled job (.reduceResume r) := ⟨hstop.pc, hopts, hout'⟩
  have hstop' := hstop.next (a := .reduceReplies 0) ht he rfl trivial rfl rfl
    (Function.update_self ..)
  exact Job.benign_next he trivial trivial (lower_replies ht hC hA hr hstop' hcan)

/-! ## The barrier is started -/

/-- A send is found complete. -/
theorem weight_worksend (hr : r < job.size) (hne : s.work.sends r ≠ []) :
    (s.next job (.worksend r 0)).waits.weight job < s.waits.weight job := by
  refine Waits.weight_lt hr (fun x hx => ?_) ?_
  · refine Waits.due_congr rfl rfl ?_ rfl rfl rfl
    simp [Sys.waits, Sys.next, WorkNet.worksendCheck, Function.update_of_ne hx]
  · refine Nat.add_lt_add_right ?_ (s.waits.flight job)
    have hpos := List.length_pos_of_ne_nil hne
    simp only [Waits.due, Sys.waits, Sys.next, WorkNet.worksendCheck, Function.update_self,
      List.length_eraseIdx_of_lt hpos]
    omega

theorem lower_send (ht : (job.opts 1).termTree = true) (hC : s.Cleaning job)
    (hA : ¬s.Arrived job) (hr : r < job.size) (hne : s.work.sends r ≠ []) :
    job.benign.Leads s (s.Lowered job) := by
  refine lower_at ht hC hA hr (p := .worksend) (by decide) fun t hstop => ?_
  rw [← hstop.sends] at hne
  have he : t.Enabled job (.worksend r 0) := ⟨hstop.pc, List.length_pos_of_ne_nil hne⟩
  exact hstop.lower ht he trivial trivial (weight_worksend hr hne)

/-- The request of a rank that was answered is found complete. -/
theorem lower_sent (ht : (job.opts 1).termTree = true) (hC : s.Cleaning job)
    (hA : ¬s.Arrived job) (hr : r < job.size)
    (hreq : (s.work.request r).workRequestReq = true) : job.benign.Leads s (s.Lowered job) := by
  refine lower_at ht hC hA hr (p := .request) (by decide) fun t hstop => ?_
  rw [← hstop.request] at hreq
  have hmay : ¬t.MayRequest r true := fun hmay => hmay.1 hstop.stage
  have he : t.Enabled job (.requestNone r true) :=
    ⟨hstop.pc, .inl hstop.stage, .inr (.inl hmay)⟩
  refine hstop.lower ht he trivial trivial ?_
  have hwaits : (t.next job (.requestNone r true)).waits =
      { t.waits with
        request := Function.update t.work.request r
          { t.work.request r with
            workRequestReq := (t.work.request r).workRequestReq && !true } } := rfl
  rw [hwaits]
  refine Waits.weight_request_lt (v := t.waits) hr ?_
  simp [Sys.waits, hreq]

/-- A rank that waits for nothing starts the barrier. -/
theorem lower_settled (ht : (job.opts 1).termTree = true) (hC : s.Cleaning job)
    (hA : ¬s.Arrived job) (hr : r < job.size) (hset : s.Settled r)
    (hstarted : (s.barrier.st r).barrierStarted = false) : job.benign.Leads s (s.Lowered job) := by
  refine lower_at ht hC hA hr (p := .barrierStart) (by decide) fun t hstop => ?_
  have hset' : t.Settled r := by
    obtain ⟨h₁, h₂, h₃, h₄, h₅, _⟩ := hset
    exact ⟨by rwa [hstop.request], by rwa [hstop.reduce], by rwa [hstop.abortOutstanding],
      by rwa [hstop.sends], by rwa [hstop.request], hstop.cleaning.live.token r⟩
  have he : t.Enabled job (.barrierStart r) := hstop.pc
  rw [← hstop.started] at hstarted
  exact hstop.lower ht he trivial trivial (weight_barrierStart hr hset' hstarted)

/-- While some rank has not started the barrier, the weight can be lowered. -/
theorem leads_lowered (ht : (job.opts 1).termTree = true) (hC : s.Cleaning job)
    (hA : ¬s.Arrived job) : job.benign.Leads s (s.Lowered job) := by
  by_cases hrequests : ∃ q r, s.work.requests q r ≠ []
  · obtain ⟨q, r, hm⟩ := hrequests
    exact lower_request ht hC hA hm
  simp only [not_exists, not_not] at hrequests
  by_cases hrequestors : ∃ r, r < job.size ∧ s.work.requestors r ≠ []
  · obtain ⟨r, hr, hne⟩ := hrequestors
    exact lower_requestor ht hC hA hr hne
  simp only [not_exists, not_and, not_not] at hrequestors
  by_cases habort : ∃ q r, s.abort.requests q r ≠ []
  · obtain ⟨q, r, hm⟩ := habort
    exact lower_abortRequest ht hC hA hm
  simp only [not_exists, not_not] at habort
  by_cases hsent : ∃ c, c < job.size ∧ (job.tree 1 c).parentSent s.reduce.net c = true
  · obtain ⟨c, hc, hsent⟩ := hsent
    exact lower_start ht hC hA hc hsent
  simp only [not_exists, not_and, Bool.not_eq_true] at hsent
  obtain ⟨r, hr, hnot⟩ : ∃ r, r < job.size ∧ (s.barrier.st r).barrierStarted = false := by
    simp only [Sys.Arrived, not_forall, not_or, Bool.not_eq_true] at hA
    obtain ⟨r, hr, _, hnot⟩ := hA
    exact ⟨r, hr, hnot⟩
  -- what the barrier of `r` waits for
  cases hw : (s.work.request r).workRequested with
  | true => exact lower_reply ht hC hA hw hrequests hrequestors
  | false =>
  cases hred : (s.reduce.st r).outstanding with
  | true => exact lower_reduce ht hC hA hred hsent
  | false =>
  cases hab : (s.abort.st r).abortOutstanding with
  | true => exact lower_abortReplies ht hC hA hab fun q => habort r q
  | false =>
  cases hreq : (s.work.request r).workRequestReq with
  | true => exact lower_sent ht hC hA hr hreq
  | false =>
  by_cases hsends : s.work.sends r = []
  · exact lower_settled ht hC hA hr ⟨hw, hred, hab, hsends, hreq, hC.live.token r⟩ hnot
  · exact lower_send ht hC hA hr hsends

/-- Some run takes every rank to the barrier. -/
theorem leads_arrived (ht : (job.opts 1).termTree = true) (hC : s.Cleaning job) :
    job.benign.Leads s fun t => t.Cleaning job ∧ t.Arrived job :=
  EventSystem.Leads.descend (fun s => s.waits.weight job)
    (fun _ hu hA => leads_lowered ht hu hA) hC

end Libcircle
