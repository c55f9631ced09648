import Libcircle.System.Waves

/-!
# An abort reaches every rank

The abort reduction is a wave that carries the disjunction of the abort flags up
the tree and the result down again.  Once a rank in the main loop has its flag
set, either the flag is on its way to the root (`Sys.Spreading`), or the root has
it and so has every rank that completed the reduction (`Sys.Agreed`).  When every
rank has returned from `CIRCLE_work_loop`, all flags are set and no work reply is
in flight.  Ranks may call `CIRCLE_checkpoint` before others return, and then their
queues are empty (`Sys.Emptied`).
-/

namespace Libcircle

variable {α : Type*} {job : Job} {s t : Sys α} {e : Event α} {r x : Rank}

/-! ## The abort flag stays set -/

theorem CallbackState.abortFlag_run (ops : List (WorkOp α)) {c : CallbackState α}
    (h : c.abortFlag = true) : (c.run ops).abortFlag = true := by
  induction ops generalizing c with
  | nil => exact h
  | cons op ops ih =>
      refine ih ?_
      cases op with
      | enqueue x => exact h
      | dequeue => exact h
      | abort => rfl

theorem update_callback_abortFlag (s : Sys α) (r : Rank) (ops : List (WorkOp α)) (x : Rank)
    (h : s.abortFlag x = true) :
    Function.update s.abortFlag r (s.callback r ops).abortFlag x = true := by
  by_cases hx : x = r
  · subst hx
    rw [Function.update_self]
    exact CallbackState.abortFlag_run ops (c := s.callbackState x) h
  · rwa [Function.update_of_ne hx]

/-- Only the result of the abort reduction can clear a flag. -/
theorem abortFlag_next (hup : e ≠ .abortReduceUp e.rank) (hdown : e ≠ .abortReduceDown e.rank)
    (h : s.abortFlag x = true) : (s.next job e).abortFlag x = true := by
  cases e with
  | begin r next ops | process r ops => exact update_callback_abortFlag s r ops x h
  | abortRequest r src | reduceBegin r due hit calls | reduceReply r hit calls
  | reduceDone r calls | reduceSync r calls | reduceSyncReply r calls | reduceSyncDone r calls
  | requestReply r sent =>
      exact le_abortFlag _ _ _ _ h
  | abortReduceUp r => exact absurd rfl hup
  | abortReduceDown r => exact absurd rfl hdown
  | _ => exact h

/-! ## The reduction -/

/-- The flag of `x` is set, or its partial result in `CIRCLE_abort_reduce` is. -/
def Sys.Raised (s : Sys α) (x : Rank) : Prop :=
  s.abortFlag x = true ∨ (s.pc x = .abortReduce ∧ (s.abortReduce.st x).flag = true)

/-- No rank has the result, which will be set. -/
structure Sys.Spreading (job : Job) (s : Sys α) : Prop where
  root_done : s.abortReduce.wave.done job.rootedTree.root = 0
  marked : s.abortReduce.wave.Marked job.rootedTree s.Raised (· = true)

/-- The result is set, on every rank that has it and in every message that carries it. -/
structure Sys.Agreed (job : Job) (s : Sys α) : Prop where
  root_done : s.abortReduce.wave.done job.rootedTree.root = 1
  flag_of_done : ∀ x, x < job.size → s.abortReduce.wave.done x = 1 → s.abortFlag x = true
  answers : ∀ p c, c ∈ job.rootedTree.children p → false ∉ s.abortReduce.net p c

/-- In `CIRCLE_abort_reduce` a rank receives the flag of a child or reports. -/
theorem event_of_abortReduce (he : s.Enabled job e) (hpc : s.pc e.rank = .abortReduce) :
    e = .abortReduceReply e.rank ∨ e = .abortReduceUp e.rank := by
  cases e with
  | abortReduceReply r => exact .inl rfl
  | abortReduceUp r => exact .inr rfl
  | workreqDone r rand | sendNoWork r | workreceiptDone r | worksendDone r | abortStart r
  | termRepliesDone r | termUp r | barrierStart r | barrierUp r | worksendWait r
  | reduceSync r calls | finish r => cases (show s.pc r = _ from he).symm.trans hpc
  | reduceReply r hit calls | reduceSyncReply r calls =>
      have h := he.1
      rw [show s.pc r = .abortReduce from hpc] at h
      cases h
  | _ => cases he.1.symm.trans hpc

/-- A rank that is marked stays so, unless it reports or gets the result. -/
theorem raised_next (he : s.Enabled job e) (hreply : e ≠ .abortReduceReply e.rank)
    (hup : e ≠ .abortReduceUp e.rank) (hdown : e ≠ .abortReduceDown e.rank) (h : s.Raised x) :
    (s.next job e).Raised x := by
  rcases h with h | ⟨hpc, hflag⟩
  · exact .inl (abortFlag_next hup hdown h)
  · have hx : x ≠ e.rank := by
      rintro rfl
      rcases event_of_abortReduce he hpc with h | h
      · exact hreply h
      · exact hup h
    have hloc : (s.next job e).loc x = s.loc x := loc_next_of_ne hx
    have hpc' : (s.next job e).pc x = s.pc x := congrArg Loc.pc hloc
    have hst' : (s.next job e).abortReduce.st x = s.abortReduce.st x :=
      congrArg Loc.abortReduce hloc
    exact .inr ⟨hpc'.trans hpc, by rwa [hst']⟩

theorem Sys.Spreading.of_wave (h : s.Spreading job)
    (hwave : t.abortReduce.wave = s.abortReduce.wave)
    (hraised : ∀ x, s.Raised x → t.Raised x) : t.Spreading job where
  root_done := by rw [hwave, h.root_done]
  marked := by
    rw [hwave]
    exact h.marked.mono fun x _ => hraised x

theorem Sys.Agreed.of_wave (h : s.Agreed job) (hwave : t.abortReduce.wave = s.abortReduce.wave)
    (hflag : ∀ x, s.abortFlag x = true → t.abortFlag x = true) : t.Agreed job where
  root_done := by rw [hwave, h.root_done]
  flag_of_done x hlt hx := by
    rw [hwave] at hx
    exact hflag x (h.flag_of_done x hlt hx)
  answers p c hc := by
    rw [show t.abortReduce.net = s.abortReduce.net from congrArg Wave.net hwave]
    exact h.answers p c hc

theorem raised_frame (hx : x ≠ e.rank) : (s.next job e).Raised x ↔ s.Raised x := by
  have hloc : (s.next job e).loc x = s.loc x := loc_next_of_ne hx
  have hpc : (s.next job e).pc x = s.pc x := congrArg Loc.pc hloc
  have hst : (s.next job e).abortReduce.st x = s.abortReduce.st x :=
    congrArg Loc.abortReduce hloc
  have hflag : (s.next job e).abortFlag x = s.abortFlag x := congrArg Loc.abortFlag hloc
  rw [Sys.Raised, Sys.Raised, hpc, hst, hflag]

/-- A rank reports: it passes its mark on, or is the root and has the result. -/
theorem spreading_up (he : s.Enabled job (.abortReduceUp r)) (hW : s.Waves job)
    (h : s.Spreading job) :
    (s.next job (.abortReduceUp r)).Spreading job ∨ (s.next job (.abortReduceUp r)).Agreed job := by
  have hO := hW.once
  have hok := hO.coherent.ok r
  have hlt : r < job.size := hok.rank_lt (e := .abortReduceUp r) he
  obtain ⟨hpc, hindex⟩ := he
  have htree := hO.tree_eq (hok.stage_ne (by simp [hpc]))
  rw [htree] at hindex
  have hat := hok.position
  rw [hpc] at hat
  have hflag : s.Raised r → (s.abortReduce.st r).flag = true := by
    rintro (ha | ⟨_, hf⟩)
    · exact hat.2.2.2.2 ha
    · exact hf
  obtain ⟨p, hp, hy⟩ | ⟨hp, hy⟩ := s.abortReduce.report_cases (job.tree 1 r) r
  · left
    have hc := job.mem_children hlt hp
    have hwave := AbortReduceNet.wave_sendUp (r := r) s.abortReduce p
    constructor
    · simp only [Sys.next, htree, hy, hwave]
      exact h.root_done
    · have hraised : ∀ x, x ≠ r → s.Raised x → (s.next job (.abortReduceUp r)).Raised x :=
        fun x hx => (raised_frame (e := .abortReduceUp r) hx).mpr
      have hmarked := h.marked.send (m := (s.abortReduce.st r).flag) hc hraised hflag
      simpa only [Sys.next, htree, hy, hwave] using hmarked
  · right
    obtain rfl := job.eq_root hlt hp
    have hall := hW.abort.counted_of_replies hindex
    have hresult := hflag (h.marked.root_of_release hW.abort hall)
    obtain ⟨hdone, hnone⟩ := hW.abort.none_done h.root_done
    constructor
    · simp [Sys.next, htree, hy, AbortReduceNet.wave_complete, Wave.release, h.root_done]
    · intro x hx hx1
      by_cases hxr : x = job.rootedTree.root
      · simp [Sys.next, htree, hy, hxr, hresult]
      · have hx0 : s.abortReduce.wave.done x = 0 := hdone x hx
        rw [show (s.next job (.abortReduceUp _)).abortReduce.wave.done x
          = s.abortReduce.wave.done x from ?_, hx0] at hx1
        · cases hx1
        · simp [Sys.next, htree, hy, AbortReduceNet.wave_complete, Wave.release,
            Function.update_of_ne hxr]
    · intro p c hc hmem
      simp only [Sys.next, htree, hy] at hmem
      rcases (Chan.mem_bcast _ _).mp hmem with hmem | ⟨_, _, hfalse⟩
      · rw [show s.abortReduce.net p c = [] from hnone p c hc] at hmem
        cases hmem
      · exact absurd (hfalse.trans hresult) (by decide)

theorem spreading_next (he : s.Enabled job e) (hW : s.Waves job) (h : s.Spreading job) :
    (s.next job e).Spreading job ∨ (s.next job e).Agreed job := by
  have hO := hW.once
  have hlt := (hO.coherent.ok _).rank_lt he
  cases e with
  | worksendWait r | reduceSyncDone r calls =>
      exact .inl (h.of_wave (AbortReduceNet.wave_enter s.abortReduce _)
        fun x => raised_next he (by simp) (by simp) (by simp))
  | abortReduceReply r =>
      left
      obtain ⟨hpc, hindex, hm⟩ := id he
      have htree := hO.tree_eq ((hO.coherent.ok r).stage_ne (by simp [hpc]))
      rw [htree] at hindex hm
      have hc : (job.tree 1 r).child (s.abortReduce.st r).index ∈ job.rootedTree.children r :=
        TreeState.child_mem hindex
      obtain ⟨m, hnet, _⟩ := hW.abort.sent_of_report hc hm
      have hnet : s.abortReduce.net ((job.tree 1 r).child (s.abortReduce.st r).index) r = [m] :=
        hnet
      have hwave := AbortReduceNet.wave_recvFlag (r := r) s.abortReduce
        ((job.tree 1 r).child (s.abortReduce.st r).index) m
      constructor
      · simp only [Sys.next, htree, hnet, List.headD_cons, hwave]
        exact h.root_done
      · have hpc' : (s.next job (.abortReduceReply r)).pc r = .abortReduce := hpc
        refine Wave.Marked.mono ?_ fun x _ hx => hx
        simp only [Sys.next, htree, hnet, List.headD_cons, hwave]
        refine h.marked.recv hW.abort hc hnet ?_ ?_
        · intro x hx
          by_cases hxr : x = r
          · subst hxr
            refine hx.imp_right ?_
            rintro ⟨_, hflag⟩
            exact ⟨hpc, by simp [AbortReduceNet.recvFlag, hflag]⟩
          · simpa [Sys.Raised, AbortReduceNet.recvFlag, Function.update_of_ne hxr] using hx
        · rintro rfl
          exact .inr ⟨hpc, by simp [AbortReduceNet.recvFlag]⟩
  | abortReduceUp r => exact spreading_up he hW h
  | abortReduceDown r =>
      obtain ⟨hpc, hsent⟩ := he
      rw [hO.tree_eq ((hO.coherent.ok r).stage_ne (by simp [hpc]))] at hsent
      obtain ⟨p, hp, hm⟩ := TreeState.parentSent_iff.mp hsent
      exact absurd ((hW.abort.none_done h.root_done).2 p r (job.mem_children hlt hp)) hm
  | _ =>
      exact .inl (h.of_wave rfl fun x => raised_next he (by simp) (by simp) (by simp))

/-- In one invocation a rank reduces its abort flag once. -/
theorem reducing_done (hO : s.Once job) (hpc : s.pc r = .abortReduce ∨ s.pc r = .abortReduceDown) :
    s.abortReduce.wave.done r = 0 := by
  have hat := (hO.coherent.ok r).position
  have hinv : s.inv r = 1 :=
    hO.inv_eq ((hO.coherent.ok r).stage_ne (by rcases hpc with hpc | hpc <;> simp [hpc]))
  have hcount : (s.loc r).Reducing := by
    rcases hpc with hpc | hpc <;> rw [hpc] at hat
    · exact hat.2.2.2.1
    · exact hat.2.2.2.1
  have hcount : (s.abortReduce.st r).completed + 1 = s.inv r := hcount
  have hgoal : (s.abortReduce.st r).completed = 0 := by omega
  exact hgoal

theorem agreed_next (he : s.Enabled job e) (hW : s.Waves job) (h : s.Agreed job) :
    (s.next job e).Agreed job := by
  have hO := hW.once
  have hlt := (hO.coherent.ok _).rank_lt he
  have hbusy : s.pc e.rank = .abortReduce → False := by
    intro hpc
    have hat := (hO.coherent.ok e.rank).position
    rw [hpc] at hat
    have hdone := reducing_done hO (.inl hpc)
    have heq := hW.abort.done_eq_of_not_up hlt hat.2.2.1
    rw [h.root_done, hdone] at heq
    cases heq
  cases e with
  | worksendWait r | reduceSyncDone r calls =>
      exact h.of_wave (AbortReduceNet.wave_enter s.abortReduce _)
        fun x => abortFlag_next (by simp) (by simp)
  | abortReduceReply r => exact (hbusy he.1).elim
  | abortReduceUp r => exact (hbusy he.1).elim
  | abortReduceDown r =>
      obtain ⟨hpc, hsent⟩ := he
      have htree := hO.tree_eq ((hO.coherent.ok r).stage_ne (by simp [hpc]))
      rw [htree] at hsent
      obtain ⟨p, hp, hm⟩ := TreeState.parentSent_iff.mp hsent
      have hc := job.mem_children hlt hp
      obtain ⟨m, hnet, _⟩ := hW.abort.answered_of_answer hc hm
      have hnet : s.abortReduce.net p r = [m] := hnet
      have hm : m = true := by
        cases m with
        | true => rfl
        | false => exact absurd (by rw [hnet]; exact List.mem_cons_self ..) (h.answers p r hc)
      have hy := AbortReduceNet.await_eq s.abortReduce (job.tree 1 r) r hp
      rw [hnet, hm, List.headD_cons] at hy
      have hne := Wave.root_ne_of_mem hc
      constructor
      · simp only [Sys.next, htree, hy, AbortReduceNet.wave_recvResult]
        exact (Function.update_of_ne hne _ _).trans h.root_done
      · intro x hx hx1
        by_cases hxr : x = r
        · simp [Sys.next, htree, hy, hxr]
        · have hold : s.abortReduce.wave.done x = 1 := by
            simpa [Sys.next, htree, hy, AbortReduceNet.wave_recvResult, Wave.answer, Wave.release,
              Function.update_of_ne hxr] using hx1
          simpa [Sys.next, Function.update_of_ne hxr] using h.flag_of_done x hx hold
      · intro p' c hc' hmem
        simp only [Sys.next, htree, hy] at hmem
        rcases (Chan.mem_bcast _ _).mp hmem with hmem | ⟨_, _, hfalse⟩
        · exact h.answers p' c hc' (Chan.mem_of_mem_pop _ hmem)
        · cases hfalse
  | _ => exact h.of_wave rfl fun x => abortFlag_next (by simp) (by simp)

/-! ## Runs -/

theorem abort_of_run {es : List (Event α)} (hrun : job.once.Run s es t) (hW : s.Waves job)
    (h : s.Spreading job ∨ s.Agreed job) : t.Waves job ∧ (t.Spreading job ∨ t.Agreed job) :=
  hrun.restrict_invariant (I := fun s => s.Waves job ∧ (s.Spreading job ∨ s.Agreed job))
    (fun _ _ ⟨hW, h⟩ hE hF =>
      ⟨waves_next hE hF hW, h.elim (spreading_next hE hW) fun h => .inr (agreed_next hE hW h)⟩)
    ⟨hW, h⟩

/-- A flag set in the main loop is on its way to the root. -/
theorem spreading_of_main (hW : s.Waves job) (hr : r < job.size) (hst : s.stage r = .main)
    (hflag : s.abortFlag r = true) : s.Spreading job := by
  have htidy := (hW.once.coherent.ok r).tidy
  have hup : s.abortReduce.wave.up r = false :=
    (htidy.abortReduce_reset (by simp [Sys.loc, hst])).1
  have hinv : s.inv r = 1 := hW.once.inv_eq (by simp [hst])
  have hcount : (s.abortReduce.st r).completed + 1 = s.inv r :=
    (htidy.counted_looping (.inl hst)).2
  have hdone : s.abortReduce.wave.done r = 0 := by
    change (s.abortReduce.st r).completed = 0
    omega
  refine ⟨(hW.abort.done_eq_of_not_up hr hup).symm.trans hdone, .inl ⟨r, hr, ?_, .inl hflag⟩⟩
  exact fun hc => absurd (hup.symm.trans hc.1) (by decide)

/-- `r` has returned from `CIRCLE_work_loop`. -/
def Sys.Returned (s : Sys α) (r : Rank) : Prop :=
  s.pc r = .returned ∨ (s.pc r = .idle ∧ s.inv r = 1)

instance (s : Sys α) (r : Rank) : Decidable (s.Returned r) :=
  inferInstanceAs (Decidable (_ ∨ _))

/-- A rank that has returned has completed the reduction. -/
theorem returned_done (hO : s.Once job) (hret : s.Returned r) :
    s.abortReduce.wave.done r = 1 := by
  have hok := hO.coherent.ok r
  rcases hret with hpc | ⟨hpc, hinv⟩
  · have hat := hok.position
    rw [hpc] at hat
    have hinv : s.inv r = 1 := hO.inv_eq (hok.stage_ne (by simp [hpc]))
    exact hat.2.2.2.trans hinv
  · have hcount := hok.tidy.counted
    rw [show (s.loc r).stage = .outside from (hok.requested_of_idle hpc).1] at hcount
    exact hcount.2.trans hinv

/-- A rank with an outstanding request is not through the cleanup barrier. -/
theorem not_requested_of_returned (hO : s.Once job) (hret : s.Returned r) :
    (s.work.request r).workRequested = false := by
  have hok := hO.coherent.ok r
  rcases hret with hpc | ⟨hpc, _⟩
  · have hat := hok.position
    rw [hpc] at hat
    exact (hok.tidy.settled (.inr (.inl hat.1))).1
  · exact (hok.tidy.settled (.inr (.inr (hok.requested_of_idle hpc).1))).1

/-- Outside `CIRCLE_begin` a rank can only call it. -/
theorem event_of_idle (he : s.Enabled job e) (hpc : s.pc e.rank = .idle) :
    ∃ next ops, e = .begin e.rank next ops := by
  cases e with
  | begin r next ops => exact ⟨next, ops, rfl⟩
  | workreqDone r rand | sendNoWork r | workreceiptDone r | worksendDone r | abortStart r
  | termRepliesDone r | termUp r | barrierStart r | barrierUp r | worksendWait r
  | reduceSync r calls | finish r => cases (show s.pc r = _ from he).symm.trans hpc
  | reduceReply r hit calls | reduceSyncReply r calls =>
      have h := he.1
      rw [show s.pc r = .idle from hpc] at h
      cases h
  | _ => cases he.1.symm.trans hpc

/-- A rank leaves `CIRCLE_begin` by the checkpoint. -/
theorem finish_of_outside (he : s.Enabled job e) (hok : s.Ok job e.rank)
    (hout : (s.next job e).stage e.rank = .outside) : e = .finish e.rank := by
  by_cases hpc : s.pc e.rank = .idle
  · obtain ⟨next, ops, hb⟩ := event_of_idle he hpc
    rw [hb] at hout
    simp [Sys.next, Event.rank] at hout
  · have hst : s.stage e.rank ≠ .outside := hok.stage_ne hpc
    cases e with
    | finish r => rfl
    | begin r next ops => exact absurd he.1 hpc
    | termUp r | termDown r hit =>
        simp only [Sys.next, Event.rank, Function.update_self] at hout
        unfold stageAfterTerm at hout
        split at hout
        · cases hout
        · exact absurd hout hst
    | token r hit | barrierUp r | barrierDown r hit =>
        simp only [Sys.next, Event.rank, Function.update_self] at hout
        rcases ite_eq_iff.mp hout with ⟨_, hout⟩ | ⟨_, hout⟩
        · cases hout
        · exact absurd hout hst
    | _ => exact absurd hout hst

/-- A rank that has finished an aborted invocation has nothing in its queue. -/
def Sys.Emptied (s : Sys α) : Prop :=
  ∀ r, s.stage r = .outside → 0 < s.inv r → s.abortFlag r = true → s.work.queue r = []

theorem emptied_next (he : s.Enabled job e) (hcoh : s.Coherent job) (h : s.Emptied) :
    (s.next job e).Emptied := by
  intro r hst hinv hflag
  by_cases hr : r = e.rank
  · subst hr
    obtain ⟨q, rfl⟩ : ∃ q, e = .finish q := ⟨_, finish_of_outside he (hcoh.ok e.rank) hst⟩
    have hflag : s.abortFlag q = true := hflag
    simp [Sys.next, hflag, WorkNet.setQueue, Event.rank]
  · have hloc : (s.next job e).loc r = s.loc r := loc_next_of_ne hr
    have hqueue : (s.next job e).work.queue r = s.work.queue r := congrArg Loc.queue hloc
    rw [hqueue]
    exact h r ((congrArg Loc.stage hloc).symm.trans hst) (hinv.trans_eq (congrArg Loc.inv hloc))
      ((congrArg Loc.abortFlag hloc).symm.trans hflag)

theorem emptied_of_run {queue : Rank → List α} {abortFlag : Rank → Bool}
    {input : Rank → ReduceInput} {enqueued : List α} {es : List (Event α)}
    (hrun : job.step.Run (Sys.start queue abortFlag input enqueued) es t) : t.Emptied :=
  (hrun.invariant (I := fun s => s.Coherent job ∧ s.Emptied)
    (fun _ _ ⟨hcoh, h⟩ he => ⟨coherent_next he hcoh, emptied_next he hcoh h⟩)
    ⟨coherent_start .., fun _ _ hinv _ => absurd hinv (Nat.lt_irrefl 0)⟩).2

/-- Without outstanding requests no reply is in flight. -/
theorem replies_nil_of_not_requested (hcoh : s.Coherent job)
    (h : ∀ r, r < job.size → (s.work.request r).workRequested = false) (r d : Rank) :
    s.work.replies d r = [] := by
  by_contra hne
  have hawait := hcoh.matched.awaits_of_reply hne
  have hreq := h r (hcoh.matched.awaits_lt _ _ hawait).1
  exact absurd (hreq.symm.trans hawait.1) (by decide)

/-- No work is lost by an abort with tree termination: in one invocation that starts with
no message in flight, once some rank has its flag set in the main loop, then, when every
rank has returned from `CIRCLE_work_loop`, in whatever order the ranks return and call
`CIRCLE_checkpoint`, all flags are set and no work reply is in flight.  Every item enqueued and
not dequeued is in one checkpoint, or in the queue of one rank that is about to hand its queue to
`CIRCLE_checkpoint`. -/
theorem abort_loses_no_work {queue : Rank → List α} {input : Rank → ReduceInput}
    {enqueued : List α} {es fs : List (Event α)} {a : Rank}
    (hstart : (enqueued : Multiset α) = ∑ r ∈ Finset.range job.size, (queue r : Multiset α))
    (hrun : job.once.Run (Sys.start queue (fun _ => false) input enqueued) es s)
    (ha : a < job.size) (hmain : s.stage a = .main) (hflag : s.abortFlag a = true)
    (hrun' : job.once.Run s fs t) (hret : ∀ r, r < job.size → t.Returned r) :
    (∀ r, r < job.size → t.abortFlag r = true) ∧ (∀ r d, t.work.replies d r = []) ∧
      (∀ r, r < job.size → t.work.queue r ≠ [] → t.Enabled job (.finish r)) ∧
      (t.enqueued : Multiset α) = t.dequeued + t.checkpointed +
        ∑ r ∈ Finset.range job.size, (t.work.queue r : Multiset α) := by
  have hWs := waves_of_run hrun (waves_start ..)
  have hS := spreading_of_main hWs ha hmain hflag
  obtain ⟨hW, hphase⟩ := abort_of_run hrun' hWs (.inl hS)
  have hdone := fun r hr => returned_done hW.once (hret r hr)
  have hroot := hdone _ job.rootedTree.root_node
  have hagreed := hphase.resolve_left fun h => by
    rw [h.root_done] at hroot
    cases hroot
  have hreplies := replies_nil_of_not_requested hW.once.coherent fun r hr =>
    not_requested_of_returned hW.once (hret r hr)
  have hall := hrun.of_restrict.append hrun'.of_restrict
  have hflags : ∀ r, r < job.size → t.abortFlag r = true := fun r hr =>
    hagreed.flag_of_done r hr (hdone r hr)
  refine ⟨hflags, hreplies, fun r hr hne => ?_, ?_⟩
  · refine (hret r hr).resolve_right fun ⟨hpc, hinv⟩ => hne ?_
    exact emptied_of_run hall r ((hW.once.coherent.ok r).requested_of_idle hpc).1
      (Nat.zero_lt_one.trans_eq hinv.symm) (hflags r hr)
  · have hcons := conserved_of_run hall (coherent_start ..) (conserved_start hstart)
    have hflight : t.work.inFlight job.size = 0 :=
      WorkNet.inFlight_eq_zero fun r d k l hm => by simp [hreplies] at hm
    rw [Sys.Conserved, hflight, add_zero] at hcons
    exact hcons

/-- One pass through the cleanup loop with tree termination, in which `r` finds nothing. -/
def passSettle {α : Type*} (r : Rank) : List (Event α) :=
  [.workreqDone r 0, .worksendDone r, .reduceSkip r, .requestNone r true, .abortStart r,
    .abortRequest r none, .abortReplies r false, .barrierStart r]

/-- The ranks terminate and drain the abort messages.  The barrier is about to complete. -/
def abortSettle {α : Type*} : List (Event α) :=
  List.flatten
    [abortRound,
      [.termUp 0, .barrierStart 0, .barrierReply 0 none, .barrierUp 0, .barrierDown 0 false],
      passMain 1, [.requestSkip 1], passTerm 1 true,
      [.barrierStart 1, .barrierReply 1 none, .barrierUp 1, .barrierDown 1 false],
      passSettle 0, [.barrierReply 0 (some 1)]]

/-- The barrier completes, and the ranks agree on the abort.  Rank `0` is through its checkpoint
before rank `1` returns. -/
def abortFinish {α : Type*} : List (Event α) :=
  List.flatten
    [abortSettle, [.barrierUp 0, .worksendWait 0], passSettle 1,
      [.barrierReply 1 none, .barrierUp 1, .barrierDown 1 true, .worksendWait 1,
        .abortReduceUp 1, .abortReduceReply 0, .abortReduceUp 0, .finish 0, .abortReduceDown 1]]

theorem abort_loses_no_work_abortEarly :
    let s := treePair.once.follow .fresh abortEarly
    let t := treePair.once.follow s abortFinish
    (∀ r, r < 2 → t.abortFlag r = true) ∧ (∀ r d, t.work.replies d r = []) ∧
      (t.pc 0 = .idle ∧ t.checkpointed = [1]) ∧ (t.pc 1 = .returned ∧ t.work.queue 1 = [2]) ∧
      (t.enqueued : Multiset Nat) = t.dequeued + t.checkpointed +
        ∑ r ∈ Finset.range 2, (t.work.queue r : Multiset Nat) :=
  have hrun : treePair.once.Run .fresh abortEarly (treePair.once.follow .fresh abortEarly) :=
    .of_admits (by decide +kernel)
  have hrun' : treePair.once.Run (treePair.once.follow .fresh abortEarly) abortFinish
      (treePair.once.follow (treePair.once.follow .fresh abortEarly) abortFinish) :=
    .of_admits (by decide +kernel)
  have hlost := abort_loses_no_work (a := 0) rfl hrun (by decide) (by decide +kernel)
    (by decide +kernel) hrun' (by decide +kernel)
  ⟨hlost.1, hlost.2.1, by decide +kernel, by decide +kernel, hlost.2.2.2⟩

end Libcircle
