import Libcircle.System.LastRound

/-!
# The end of the cleanup loop

Once no rank is in the main loop, the ranks stop asking for work, starting
reductions and broadcasting aborts.  What they still wait for (`Sys.waits`) gets
less: each message in flight, each requestor, each send and each flag the barrier
waits for has a weight, a rank running alone raises none of them (`waits_quiet`),
and while some rank has not started the barrier, one of the ranks can lower the
weight.  So all ranks start the barrier (`leads_arrived`).
-/

namespace Libcircle

variable {α : Type*} {job : Job} {s t : Sys α} {e : Event α} {r x d q c : Rank}

/-! ## What the ranks wait for -/

/-- What the ranks in the cleanup loop wait for. -/
structure Waits where
  request : Rank → Request
  requestors : Rank → List Rank
  sends : Rank → List SendReq
  requests : Chan Rank Unit
  reduce : ReduceNet
  abortOutstanding : Rank → Bool
  abortRequests : Chan Rank Unit
  started : Rank → Bool

/-- What the ranks of `s` wait for. -/
def Sys.waits (s : Sys α) : Waits where
  request := s.work.request
  requestors := s.work.requestors
  sends := s.work.sends
  requests := s.work.requests
  reduce := s.reduce
  abortOutstanding r := (s.abort.st r).abortOutstanding
  abortRequests := s.abort.requests
  started r := (s.barrier.st r).barrierStarted

/-- The replies `r` waits for, and the start message it has not answered. -/
def ReduceNet.due (y : ReduceNet) (t : TreeState) (r : Rank) : Nat :=
  (if (y.st r).outstanding then t.children + 1 - (y.st r).replies else 0) +
    (t.parentSent y.net r).toNat

namespace Waits

variable {v v' : Waits}

/-- What is left to do for `r`.  A requestor becomes a send. -/
def due (job : Job) (v : Waits) (r : Rank) : Nat :=
  (v.request r).workRequested.toNat + (v.request r).workRequestReq.toNat +
    2 * (v.requestors r).length + (v.sends r).length + v.reduce.due (job.tree 1 r) r +
    (v.abortOutstanding r).toNat + (!v.started r).toNat

/-- The weight of the requests in flight.  A request becomes a requestor. -/
def flight (job : Job) (v : Waits) : Nat :=
  v.requests.totalWeight (fun _ => 3) job.size + v.abortRequests.totalWeight (fun _ => 1) job.size

/-- What is left to do. -/
def weight (job : Job) (v : Waits) : Nat :=
  ∑ r ∈ Finset.range job.size, v.due job r + v.flight job

/-- Less is left for `r`, or in flight. -/
theorem weight_lt (hr : r < job.size) (hne : ∀ x, x ≠ r → v'.due job x = v.due job x)
    (h : v'.due job r + v'.flight job < v.due job r + v.flight job) :
    v'.weight job < v.weight job := by
  have hsum := sum_add_eq_of_ne (Finset.mem_range.mpr hr) (v.due job) (v'.due job) hne
  unfold weight
  omega

theorem due_congr (hrequest : v'.request x = v.request x)
    (hrequestors : v'.requestors x = v.requestors x) (hsends : v'.sends x = v.sends x)
    (hreduce : v'.reduce.due (job.tree 1 x) x = v.reduce.due (job.tree 1 x) x)
    (habort : v'.abortOutstanding x = v.abortOutstanding x)
    (hstarted : v'.started x = v.started x) : v'.due job x = v.due job x := by
  simp only [due, hrequest, hrequestors, hsends, hreduce, habort, hstarted]

/-- Only the request of `r` changes. -/
theorem weight_request_lt {req : Request} (hr : r < job.size)
    (hlt : req.workRequested.toNat + req.workRequestReq.toNat <
      (v.request r).workRequested.toNat + (v.request r).workRequestReq.toNat) :
    weight job { v with request := Function.update v.request r req } < v.weight job := by
  refine weight_lt hr (fun x hx => due_congr (Function.update_of_ne hx _ _) rfl rfl rfl rfl rfl) ?_
  refine Nat.add_lt_add_right ?_ (v.flight job)
  simp only [due, Function.update_self]
  omega

/-- Only the reductions change. -/
theorem weight_reduce_lt {y : ReduceNet} (hr : r < job.size)
    (hne : ∀ x, x ≠ r → y.due (job.tree 1 x) x = v.reduce.due (job.tree 1 x) x)
    (hlt : y.due (job.tree 1 r) r < v.reduce.due (job.tree 1 r) r) :
    weight job { v with reduce := y } < v.weight job := by
  refine weight_lt hr (fun x hx => due_congr rfl rfl rfl (hne x hx) rfl rfl) ?_
  refine Nat.add_lt_add_right ?_ (v.flight job)
  simp only [due]
  omega

end Waits

/-! ## A rank running alone -/

/-- The parts of `s` in `Sys.waits` are the same. -/
theorem waits_congr (hwork : t.work = s.work) (hreduce : t.reduce = s.reduce)
    (hout : ∀ x, (t.abort.st x).abortOutstanding = (s.abort.st x).abortOutstanding)
    (hrequests : t.abort.requests = s.abort.requests)
    (hstarted : ∀ x, (t.barrier.st x).barrierStarted = (s.barrier.st x).barrierStarted) :
    t.waits = s.waits := by
  simp only [Sys.waits, hwork, hreduce, hout, hrequests, hstarted]

theorem ReduceNet.callback_nil (y : ReduceNet) (r : Rank) : y.callback r [] = y := by
  simp [callback, ReduceInput.run]

/-- A result goes up, and start messages go down. -/
theorem ReduceNet.parentSent_finish (y : ReduceNet) (count : Nat) (r x : Rank) :
    (job.tree 1 x).parentSent (y.finish (job.tree 1 r) r count).net x =
      (job.tree 1 x).parentSent y.net x := by
  unfold finish
  split
  · cases hp : (job.tree 1 r).parentRank with
    | none => rfl
    | some p =>
        unfold TreeState.parentSent
        cases hq : (job.tree 1 x).parentRank with
        | none => rfl
        | some q =>
            have hpr : p < r := parent_lt hp
            have hqx : q < x := parent_lt hq
            have hne : ¬(q = r ∧ x = p) := by
              rintro ⟨rfl, rfl⟩
              exact Nat.lt_asymm hpr hqx
            simp only [set, sendResult_net_ne _ hne]
  · rfl

/-- A rank that passes its result on waits for nothing. -/
theorem ReduceNet.due_finish (y : ReduceNet) (count : Nat) (hout : (y.st r).outstanding = true)
    (hall : (y.st r).replies = (job.tree 1 r).children) :
    (∀ x, x ≠ r → (y.finish (job.tree 1 r) r count).due (job.tree 1 x) x =
        y.due (job.tree 1 x) x) ∧
      (y.finish (job.tree 1 r) r count).due (job.tree 1 r) r < y.due (job.tree 1 r) r := by
  constructor
  · intro x hx
    rw [due, due, (finish_ne hx y _ _).1, parentSent_finish]
  · have hidle : ((y.finish (job.tree 1 r) r count).st r).outstanding = false := by
      simp [finish, hall, set]
    rw [due, due, parentSent_finish, hidle, hout, hall]
    simp

/-- The last reply has been counted. -/
theorem weight_reduceDone (hr : r < job.size) (htree : s.tree job r = job.tree 1 r)
    (hout : (s.reduce.st r).outstanding = true)
    (hall : (s.reduce.st r).replies = (job.tree 1 r).children) :
    (s.next job (.reduceDone r [])).waits.weight job < s.waits.weight job := by
  obtain ⟨hne, hlt⟩ := @ReduceNet.due_finish job r s.reduce (s.objects r) hout hall
  have hwaits : (s.next job (.reduceDone r [])).waits =
      { s.waits with reduce := s.reduce.finish (job.tree 1 r) r (s.objects r) } := by
    rw [← htree, ← ReduceNet.callback_nil (s.reduce.finish ..) r]
    rfl
  rw [hwaits]
  exact Waits.weight_reduce_lt hr hne hlt

/-- In the cleanup loop an abort is not broadcast. -/
theorem AbortNet.abortStart_keeps (y : AbortNet) (t : TreeState) (r : Rank) :
    (y.abortStart t true r).requests = y.requests ∧
      ∀ x, ((y.abortStart t true r).st x).abortOutstanding = (y.st x).abortOutstanding := by
  unfold abortStart
  split
  · exact ⟨rfl, fun _ => rfl⟩
  · refine ⟨rfl, fun x => ?_⟩
    by_cases hx : x = r
    · subst hx
      simp [set]
    · simp [set, Function.update_of_ne hx]

/-- The start of the barrier. -/
theorem weight_barrierStart (hr : r < job.size) (hset : s.Settled r)
    (hstarted : (s.barrier.st r).barrierStarted = false) :
    (s.next job (.barrierStart r)).waits.weight job < s.waits.weight job := by
  refine Waits.weight_lt hr (fun x hx => ?_) ?_
  · refine Waits.due_congr rfl rfl rfl rfl rfl ?_
    simp [Sys.waits, Sys.next, hset, BarrierNet.barrierStart, BarrierNet.set,
      Function.update_of_ne hx]
  · refine Nat.add_lt_add_right ?_ (s.waits.flight job)
    simp [Waits.due, Sys.waits, Sys.next, hset, BarrierNet.barrierStart, BarrierNet.set, hstarted]

/-- A rank running alone in the cleanup loop changes nothing of what is waited for, or lowers the
weight, or leaves the loop. -/
theorem waits_quiet (hq : e.Quiet) (he : s.Enabled job e) (hO : s.Once job)
    (hst : s.stage e.rank = .cleanup) :
    (s.next job e).waits = s.waits ∨
      (s.next job e).waits.weight job < s.waits.weight job ∨ (s.next job e).Past e.rank := by
  have hr : e.rank < job.size := (hO.coherent.ok _).rank_lt he
  have hat := (hO.coherent.ok e.rank).position
  have htree : s.tree job e.rank = job.tree 1 e.rank := hO.tree_eq (by simp [hst])
  cases e with
  | workreqDone r rand =>
      left
      have hst : s.stage r = .cleanup := hst
      have hwork : (s.next job (.workreqDone r rand)).work = s.work := by
        simp [Sys.next, Sys.Refuses, hst]
      exact waits_congr hwork rfl (fun _ => rfl) rfl fun _ => rfl
  | sendWork r count =>
      rw [show s.pc (Event.sendWork (α := α) r count).rank = _ from he.1] at hat
      exact absurd (hst.symm.trans hat.1) (by decide)
  | sendNoWork r =>
      rw [show s.pc (Event.sendNoWork (α := α) r).rank = _ from he] at hat
      have hpos := List.length_pos_of_ne_nil (show s.work.requestors r ≠ [] from hat.2)
      refine .inr (.inl (Waits.weight_lt hr (fun x hx => ?_) ?_))
      · change x ≠ r at hx
        refine Waits.due_congr ?_ ?_ ?_ rfl rfl rfl <;>
          simp [Sys.waits, Sys.next, WorkNet.nextRequestor, WorkNet.sendNoWork,
            Function.update_of_ne hx]
      · refine Nat.add_lt_add_right ?_ (s.waits.flight job)
        simp only [Waits.due, Event.rank, Sys.waits, Sys.next, WorkNet.nextRequestor,
          WorkNet.sendNoWork, Function.update_self, List.length_tail, List.length_append,
          List.length_singleton]
        omega
  | abortStart r =>
      left
      have hst : s.stage r = .cleanup := hst
      obtain ⟨hrequests, hout⟩ := s.abort.abortStart_keeps (s.tree job r) r
      by_cases hflag : s.abortFlag r = true
      · have habort : (s.next job (.abortStart r)).abort =
            s.abort.abortStart (s.tree job r) true r := by
          simp [Sys.next, hflag, hst]
        refine waits_congr rfl rfl (fun x => ?_) ?_ fun _ => rfl
        · rw [habort, hout]
        · rw [habort, hrequests]
      · have habort : (s.next job (.abortStart r)).abort = s.abort := by
          simp [Sys.next, hflag]
        exact waits_congr rfl rfl (fun _ => by rw [habort]) (by rw [habort]) fun _ => rfl
  | abortRequest r src =>
      obtain rfl : src = none := hq
      exact .inl rfl
  | abortReplies r done =>
      obtain rfl : done = false := hq
      exact .inl rfl
  | reduceBegin r due hit calls =>
      obtain ⟨rfl, rfl, rfl⟩ := hq
      left
      have hreduce : (s.next job (.reduceBegin r false false [])).reduce = s.reduce := by
        simp only [Sys.next, ReduceNet.begin_quiet, ReduceNet.callback_nil]
      exact waits_congr rfl hreduce (fun _ => rfl) rfl fun _ => rfl
  | reduceReply r hit calls =>
      obtain ⟨rfl, rfl⟩ := hq
      left
      have hreduce : (s.next job (.reduceReply r false [])).reduce = s.reduce := by
        simp [Sys.next, ReduceNet.callback_nil]
      exact waits_congr rfl hreduce (fun _ => rfl) rfl fun _ => rfl
  | reduceDone r calls =>
      obtain rfl : calls = [] := hq
      have htree : s.tree job r = job.tree 1 r := htree
      rw [show s.pc (Event.reduceDone (α := α) r []).rank = _ from he.1] at hat
      have hreduce : (s.next job (.reduceDone r [])).reduce =
          s.reduce.finish (job.tree 1 r) r (s.objects r) := by
        simp only [Sys.next, ReduceNet.callback_nil, htree]
      by_cases hall : (s.reduce.st r).replies = (job.tree 1 r).children
      · exact .inr (.inl (weight_reduceDone hr htree hat.2.2.2.1 hall))
      · have hsame : s.reduce.finish (job.tree 1 r) r (s.objects r) = s.reduce := if_neg hall
        exact .inl (waits_congr rfl (hreduce.trans hsame) (fun _ => rfl) rfl fun _ => rfl)
  | requestNone r sent =>
      obtain rfl : sent = false := hq
      left
      have hwork : (s.next job (.requestNone r false)).work = s.work := by
        simp [Sys.next, WorkNet.requestTest]
      exact waits_congr hwork rfl (fun _ => rfl) rfl fun _ => rfl
  | requestSend r sent next =>
      exact absurd hst he.2.2.2.1.1
  | barrierStart r =>
      by_cases hset : s.Settled r
      · cases hstarted : (s.barrier.st r).barrierStarted with
        | true =>
            left
            refine waits_congr rfl rfl (fun _ => rfl) rfl fun x => ?_
            by_cases hx : x = r
            · subst hx
              simp [Sys.next, hset, BarrierNet.barrierStart, BarrierNet.set, hstarted]
            · simp [Sys.next, hset, BarrierNet.barrierStart, BarrierNet.set,
                Function.update_of_ne hx]
        | false => exact .inr (.inl (weight_barrierStart hr hset hstarted))
      · left
        exact waits_congr rfl rfl (fun _ => rfl) rfl fun _ => by simp [Sys.next, hset]
  | barrierReply r src =>
      obtain rfl : src = none := hq
      exact .inl rfl
  | barrierUp r =>
      obtain ⟨_, hy⟩ | ⟨p, _, _, hy⟩ | ⟨_, _, hy⟩ := s.barrier.report_cases (s.tree job r) r
      · left
        exact waits_congr rfl rfl (fun _ => rfl) rfl fun _ => by simp [Sys.next, hy]
      · left
        refine waits_congr rfl rfl (fun _ => rfl) rfl fun x => ?_
        by_cases hx : x = r
        · subst hx
          simp [Sys.next, hy, BarrierNet.sendUp]
        · simp [Sys.next, hy, BarrierNet.sendUp, Function.update_of_ne hx]
      · exact .inr (.inr (.inl (by simp [Sys.next, Event.rank, hy])))
  | barrierDown r hit =>
      obtain rfl : hit = false := hq
      obtain hy | ⟨_, _, h, _⟩ := s.barrier.await_cases (s.tree job r) r false
      · left
        have hbarrier : (s.next job (.barrierDown r false)).barrier = s.barrier := by
          simp only [Sys.next, hy]
        exact waits_congr rfl rfl (fun _ => rfl) rfl fun _ => by rw [hbarrier]
      · cases h
  | begin | workreq | workreceipt | worksend | requestReply | process | termReply | token
  | worksendWait | reduceSync | reduceSyncReply | reduceSyncDone | abortReduceReply
  | abortReduceUp | abortReduceDown | finish => exact hq.elim
  | _ => exact .inl rfl

/-! ## Before the barrier -/

/-- No rank is in the main loop, and none will be. -/
structure Sys.Cleaning (job : Job) (s : Sys α) : Prop where
  live : s.Live job
  settled : s.termView.Settled job 1
  left : s.AllLeft job

theorem cleaning_next (ht : (job.opts 1).termTree = true) (he : s.Enabled job e)
    (hf : FirstOnly s e) (h : s.Cleaning job) : (s.next job e).Cleaning job where
  live := live_next ht he hf h.live
  settled := h.settled.of_calm
    (settled_calm he (beginsAt_of_firstOnly hf) h.live.coherent h.live.accounted h.settled)
  left x hx := left_next he hf (h.live.coherent.ok _) (h.left x hx)

/-- Every rank has started the barrier, or completed it. -/
def Sys.Arrived (job : Job) (s : Sys α) : Prop :=
  ∀ x, x < job.size → s.Past x ∨ (s.barrier.st x).barrierStarted = true

theorem arrived_of_past (hW : s.Waves job) (hx : x < job.size) (hp : s.Past x) : s.Arrived job :=
  fun _ hr => past_or_started hW hx hp hr

/-- A rank that has not completed the barrier is in the cleanup loop. -/
theorem Sys.Cleaning.stage_of_not_past (h : s.Cleaning job) (hx : x < job.size)
    (hnot : ¬s.Past x) : s.stage x = .cleanup := by
  obtain ⟨hst, hinv⟩ := h.left x hx
  cases hstage : s.stage x with
  | main => exact absurd hstage hst
  | cleanup => rfl
  | after => exact absurd (.inl hstage) hnot
  | outside => exact absurd (.inr ⟨hstage, hinv⟩) hnot

/-- Before the first rank completes the barrier, all are in the cleanup loop. -/
theorem Sys.Cleaning.stage_eq (h : s.Cleaning job) (hA : ¬s.Arrived job) (hx : x < job.size) :
    s.stage x = .cleanup :=
  h.stage_of_not_past hx fun hp => hA (arrived_of_past h.live.waves hx hp)

/-- A rank that has started the barrier stays so until it completes it. -/
theorem started_next (he : s.Enabled job e) (hf : FirstOnly s e) (hinv : 0 < s.inv x)
    (h : (s.barrier.st x).barrierStarted = true) :
    (s.next job e).Past x ∨ ((s.next job e).barrier.st x).barrierStarted = true := by
  by_cases hx : x = e.rank
  · subst hx
    cases e with
    | begin r next ops => exact absurd (show s.inv r = 0 from hf) (Nat.ne_of_gt hinv)
    | barrierStart r =>
        right
        simp only [Sys.next, Event.rank]
        split
        · simp [BarrierNet.barrierStart, BarrierNet.set]
        · exact h
    | barrierReply r src =>
        right
        cases src with
        | none => exact h
        | some q => simpa [Sys.next, Event.rank, BarrierNet.recvArrival] using h
    | barrierUp r =>
        obtain ⟨_, hy⟩ | ⟨p, _, _, hy⟩ | ⟨_, _, hy⟩ := s.barrier.report_cases (s.tree job r) r
        · exact .inr (by simpa [Sys.next, Event.rank, hy] using h)
        · exact .inr (by simpa [Sys.next, Event.rank, hy, BarrierNet.sendUp] using h)
        · exact .inl (.inl (by simp [Sys.next, Event.rank, hy]))
    | barrierDown r hit =>
        obtain hy | ⟨p, _, _, hy⟩ := s.barrier.await_cases (s.tree job r) r hit
        · exact .inr (by simpa [Sys.next, Event.rank, hy] using h)
        · exact .inl (.inl (by simp [Sys.next, Event.rank, hy]))
    | _ => exact .inr h
  · right
    have hloc : (s.next job e).loc x = s.loc x := loc_next_of_ne hx
    exact (congrArg (fun l => l.barrier.barrierStarted) hloc).trans h

theorem arrived_next (he : s.Enabled job e) (hf : FirstOnly s e) (hC : s.Cleaning job)
    (h : s.Arrived job) : (s.next job e).Arrived job := fun x hx => by
  rcases h x hx with hp | hb
  · exact .inl (past_next he hf hC.live.once hp)
  · exact started_next he hf (hC.left x hx).2 hb

/-- All ranks have started the barrier, or less is left to do. -/
def Sys.Lowered (job : Job) (s t : Sys α) : Prop :=
  t.Cleaning job ∧ (t.Arrived job ∨ t.waits.weight job < s.waits.weight job)

/-- A rank running alone has come to `p`, and nothing of what is waited for has changed. -/
structure Sys.Stopped (job : Job) (s t : Sys α) (r : Rank) (p : Pc) : Prop where
  cleaning : t.Cleaning job
  stage : t.stage r = .cleanup
  waits : t.waits = s.waits
  elsewhere : s.Elsewhere t r
  pc : t.pc r = p

/-- Nothing has been lowered yet, or it has. -/
def Sys.Nearer (job : Job) (s t : Sys α) : Prop :=
  s.Lowered job t ∨ (t.Cleaning job ∧ t.waits = s.waits)

/-- A rank running alone keeps this. -/
theorem nearer_next (ht : (job.opts 1).termTree = true) (hq : e.Quiet) (he : t.Enabled job e)
    (hlive : t.Live job) (h : s.Nearer job t) : s.Nearer job (t.next job e) := by
  have hf : FirstOnly t e := firstOnly_of_quiet hq
  have hr : e.rank < job.size := (hlive.coherent.ok _).rank_lt he
  have hC : t.Cleaning job := h.elim And.left And.left
  have hC' := cleaning_next ht he hf hC
  by_cases hA : t.Arrived job
  · exact .inl ⟨hC', .inl (arrived_next he hf hC hA)⟩
  · rcases waits_quiet hq he hlive.once (hC.stage_eq hA hr) with hsame | hlt | hpast
    · rcases h with ⟨_, hlow⟩ | ⟨_, heq⟩
      · exact .inl ⟨hC', .inr (hsame ▸ hlow.resolve_left hA)⟩
      · exact .inr ⟨hC', hsame.trans heq⟩
    · rcases h with ⟨_, hlow⟩ | ⟨_, heq⟩
      · exact .inl ⟨hC', .inr (hlt.trans (hlow.resolve_left hA))⟩
      · exact .inl ⟨hC', .inr (heq ▸ hlt)⟩
    · exact .inl ⟨hC', .inl (arrived_of_past hC'.live.waves hr hpast)⟩

/-- Some run comes to a stop of the cleanup loop, unless the weight is lowered on the way. -/
theorem leads_stopped (ht : (job.opts 1).termTree = true) (hC : s.Cleaning job)
    (hA : ¬s.Arrived job) (hr : r < job.size) {p : Pc} (hp : p ∈ Stage.cleanup.stops) :
    job.benign.Leads s fun t => s.Lowered job t ∨ s.Stopped job t r p := by
  have hst := hC.stage_eq hA hr
  have halone := alone ht hC.live (J := s.Nearer job)
    (fun u e hu hnear _ hq he => nearer_next ht hq he hu hnear) (.inr ⟨hC, rfl⟩)
    (solo_cleanup hC.live.coherent hst hp)
  refine halone.mono ?_
  rintro t ⟨_, hels, hlow | ⟨hCt, hsame⟩, hend⟩
  · exact .inl hlow
  · by_cases hAt : t.Arrived job
    · exact .inl ⟨hCt, .inl hAt⟩
    · have hstt := hCt.stage_eq hAt hr
      exact .inr ⟨hCt, hstt, hsame, hels, hend.resolve_left fun hgone => hgone hstt⟩

namespace Sys.Stopped

variable {p : Pc} (h : s.Stopped job t r p)
include h

/-- The step that lowers the weight. -/
theorem lower (ht : (job.opts 1).termTree = true) (he : t.Enabled job e) (hf : FirstOnly t e)
    (hb : e.Benign) (hlt : (t.next job e).waits.weight job < t.waits.weight job) :
    job.benign.Leads t (s.Lowered job) :=
  Job.benign_next he hf hb
    (.here ⟨cleaning_next ht he hf h.cleaning, .inr (hlt.trans_eq (congrArg _ h.waits))⟩)

theorem request : t.work.request = s.work.request := congrArg Waits.request h.waits

theorem requestors : t.work.requestors = s.work.requestors := congrArg Waits.requestors h.waits

theorem sends : t.work.sends = s.work.sends := congrArg Waits.sends h.waits

theorem requests : t.work.requests = s.work.requests := congrArg Waits.requests h.waits

theorem reduce : t.reduce = s.reduce := congrArg Waits.reduce h.waits

theorem abortOutstanding (x : Rank) :
    (t.abort.st x).abortOutstanding = (s.abort.st x).abortOutstanding :=
  congrFun (congrArg Waits.abortOutstanding h.waits) x

theorem abortRequests : t.abort.requests = s.abort.requests :=
  congrArg Waits.abortRequests h.waits

theorem started (x : Rank) : (t.barrier.st x).barrierStarted = (s.barrier.st x).barrierStarted :=
  congrFun (congrArg Waits.started h.waits) x

end Sys.Stopped

end Libcircle
