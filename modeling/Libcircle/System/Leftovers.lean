import Libcircle.System.Completion
import Libcircle.System.FinalCount
import Libcircle.System.TokenRing

/-!
# What an invocation leaves in the network

All ranks leave the cleanup loop through a barrier "so that if the caller invokes
libcirlce again, no messages from this invocation interfere with messages from the
next".  With either kind of termination, nothing of the loops is in flight after the
barrier but receipts, and each message of the collectives after it is received before
its receiver returns.  So what the ranks leave are the receipts that `work_outstanding`
counts, and none at all with tree termination (`invocation_leaves_receipts`).
-/

namespace Libcircle

variable {α : Type*} {job : Job} {s t : Sys α} {e : Event α} {r x c p : Rank}

/-! ## Reports of the final reduction -/

namespace ReduceNet

/-- A report is a header, with the data it announces. -/
inductive IsFinal : List ReduceMsg → Prop
  | header (count : Nat) : IsFinal [.header .sync true count 0]
  | data (count bytes : Nat) (buf : List UInt8) (hb : bytes ≠ 0) :
      IsFinal [.header .sync true count bytes, .data .sync buf]

/-- Its header is seen. -/
theorem IsFinal.counts_ne_nil {ms : List ReduceMsg} (h : IsFinal ms) :
    ms.filterMap ReduceMsg.count? ≠ [] := by
  cases h <;> exact List.cons_ne_nil _ _

/-- A report is received as a whole. -/
theorem IsFinal.recvSync {y : ReduceNet} (h : IsFinal (y.net c r)) :
    (y.recvSync r c).net c r = [] := by
  generalize hms : y.net c r = ms at h
  cases h with
  | header count => simp [ReduceNet.recvSync, hms]
  | data count bytes buf hb => simp [ReduceNet.recvSync, hms, hb]

/-- The report of a rank whose partial result is valid. -/
theorem isFinal_syncFinish {t : TreeState} {y : ReduceNet} (hp : t.parentRank = some p)
    (hvalid : (y.st r).valid = true) (hnil : y.net r p = []) :
    IsFinal ((y.syncFinish t r).net r p) := by
  by_cases hb : 0 < (y.input r).size
  · simpa [syncFinish, hp, sendResult, hvalid, hb, hnil] using
      IsFinal.data _ _ _ (Nat.ne_of_gt hb)
  · have hzero : (y.input r).size = 0 := Nat.eq_zero_of_not_pos hb
    simpa [syncFinish, hp, sendResult, hvalid, hzero, hnil] using IsFinal.header _

/-- The other channels stay as they are. -/
theorem syncFinish_net_of_ne {t : TreeState} {y : ReduceNet} {a b : Rank}
    (h : ¬(a = r ∧ t.parentRank = some b)) : (y.syncFinish t r).net a b = y.net a b := by
  unfold syncFinish
  cases hp : t.parentRank with
  | none => rfl
  | some p =>
      have hne : ¬(a = r ∧ b = p) := fun hab => h ⟨hab.1, by rw [hp, hab.2]⟩
      simp only [sendResult]
      split <;> simp [Chan.push_ne _ _ hne]

end ReduceNet

/-- The messages of a reduction are reports, if reductions are enabled, and go up. -/
def Sys.Framed (job : Job) (s : Sys α) : Prop :=
  ∀ a b, s.reduce.net a b ≠ [] → (job.opts 1).reduceEnabled = true ∧
    a ∈ job.rootedTree.children b ∧ ReduceNet.IsFinal (s.reduce.net a b)

/-- So it is once a rank has completed the barrier. -/
def Sys.FramePhase (job : Job) (s : Sys α) : Prop :=
  (∃ x, x < job.size ∧ s.Past x) → s.Framed job

/-- A rank receives a report. -/
theorem Sys.Framed.reduceSyncReply {calls : List ReduceCall} (h : s.Framed job)
    (he : s.Enabled job (.reduceSyncReply r calls)) :
    (s.next job (.reduceSyncReply r calls)).Framed job := by
  obtain ⟨_, _, hready⟩ := he
  have hne : s.reduce.net (s.child job r) r ≠ [] := fun hnil => by
    rw [hnil] at hready
    cases hready
  intro a b hab
  have hnet : ¬(a = s.child job r ∧ b = r) →
      (s.next job (.reduceSyncReply r calls)).reduce.net a b = s.reduce.net a b :=
    fun hab => s.reduce.recvSync_net_ne hab
  by_cases hcr : a = s.child job r ∧ b = r
  · obtain ⟨rfl, rfl⟩ := hcr
    exact absurd ((h _ _ hne).2.2.recvSync (y := s.reduce)) hab
  · rw [hnet hcr] at hab ⊢
    exact h a b hab

/-- A rank passes its result on. -/
theorem Sys.Framed.reduceSyncDone {calls : List ReduceCall} (h : s.Framed job)
    (hR : s.Reporting job) (he : s.Enabled job (.reduceSyncDone r calls)) (hO : s.Once job)
    (hen : (job.opts 1).reduceEnabled = true) :
    (s.next job (.reduceSyncDone r calls)).Framed job := by
  have hlt : r < job.size := (hO.coherent.ok r).rank_lt (e := .reduceSyncDone r calls) he
  have hpc := he.1
  have hst : s.stage r = .after := stage_of_closing hO (by rw [hpc]; rfl)
  have htree := hO.tree_eq (r := r) (by simp [hst])
  have hpoint : (s.loc r).point ≠ none := by
    rw [point_of_past hO (.inl hst), hpc]
    exact Option.some_ne_none _
  have hnet : (s.next job (.reduceSyncDone r calls)).reduce.net =
      (s.reduce.syncFinish (job.tree 1 r) r).net := by
    rw [← htree]
    rfl
  intro a b hab
  rw [hnet] at hab ⊢
  by_cases hup : a = r ∧ (job.tree 1 r).parentRank = some b
  · obtain ⟨rfl, hp⟩ := hup
    have hc := job.mem_children hlt hp
    exact ⟨hen, hc, ReduceNet.isFinal_syncFinish hp (hR.valid a _ hpc) (hR.unsent b a hc hpoint)⟩
  · rw [ReduceNet.syncFinish_net_of_ne hup] at hab ⊢
    exact h a b hab

/-- The final reduction runs only where reductions are enabled. -/
theorem enabled_of_syncs (he : s.Enabled job e) (hO : s.Once job) (hsync : e.Syncs) :
    (job.opts 1).reduceEnabled = true := by
  have hopts : ∀ r, s.stage r = .after → (job.opts (s.inv r)).reduceEnabled = true →
      (job.opts 1).reduceEnabled = true := fun r hst hen => by
    rwa [hO.inv_eq (by simp [hst])] at hen
  cases e with
  | reduceSync r calls =>
      have hat := (hO.coherent.ok r).position
      rw [show s.pc r = _ from he] at hat
      exact hopts r hat.1 hat.2.2.2.2
  | reduceSyncReply r calls =>
      have hat := (hO.coherent.ok r).position
      rw [he.1] at hat
      exact hopts r hat.1 hat.2.2.2.2.1
  | reduceSyncDone r calls =>
      have hat := (hO.coherent.ok r).position
      rw [he.1] at hat
      exact hopts r hat.1 hat.2.2.2.2.1
  | _ => exact hsync.elim

theorem framePhase_start (queue : Rank → List α) (abortFlag : Rank → Bool)
    (input : Rank → ReduceInput) (enqueued : List α) :
    (Sys.start queue abortFlag input enqueued).FramePhase job := by
  rintro ⟨x, _, hp⟩
  simp [Sys.Past, Sys.start] at hp

theorem framePhase_next (he : s.Enabled job e) (hf : FirstOnly s e) (hW : s.Waves job)
    (hP : s.ReducePhase job) (hR : (job.opts 1).reduceEnabled = true → s.ReportPhase job)
    (h : s.FramePhase job) : (s.next job e).FramePhase job := by
  rintro ⟨x, hx, hp⟩
  have hO := hW.once
  by_cases hex : ∃ y, y < job.size ∧ s.Past y
  · have hF := h hex
    by_cases hsync : e.Syncs
    · have hen := enabled_of_syncs he hO hsync
      cases e with
      | reduceSync r calls => exact hF
      | reduceSyncReply r calls => exact hF.reduceSyncReply he
      | reduceSyncDone r calls => exact hF.reduceSyncDone (hR hen hex) he hO hen
      | _ => exact hsync.elim
    · obtain ⟨y, hy, hpy⟩ := hex
      have hquiet := (hP.resolve_left fun hn => hn.1 y hy hpy).2
      have hnet := reduce_net_next he hO (rested_of_past hW hy hpy) hquiet hsync
      rw [Sys.Framed, hnet]
      exact hF
  · -- when the first rank completes the barrier, no message is in flight
    have hnone : ∀ y, y < job.size → ¬s.Past y := fun y hy hpy => hex ⟨y, hy, hpy⟩
    intro a b hab
    exact absurd (reduce_net_first he hf hW hP hnone hx hp a b) hab

/-! ## The token -/

/-- With tree termination no token is in flight. -/
theorem tokenNet_next (ht : (job.opts 1).termTree = true) (he : s.Enabled job e)
    (hO : s.Once job) : (s.next job e).token.net = s.token.net := by
  have hopts : ∀ r, s.stage r ≠ .outside → (job.opts (s.inv r)).termTree ≠ false := fun r hst => by
    rw [hO.inv_eq hst, ht]
    decide
  cases e with
  | sendWork r count =>
      simp only [Sys.next]
      split
      · rfl
      · unfold TokenNet.blacken
        split <;> rfl
  | token r hit =>
      have hat := (hO.coherent.ok r).position
      rw [he.1] at hat
      exact absurd hat.2.2.1 (hopts r (by simp [show s.stage r = .main from hat.1]))
  | tokenDrain r hit done =>
      have hat := (hO.coherent.ok r).position
      rw [he.1] at hat
      exact absurd hat.2.2 (hopts r (by simp [show s.stage r = .cleanup from hat.1]))
  | _ => rfl

/-- The token of either kind of termination. -/
structure Sys.TokenPhase (job : Job) (s : Sys α) : Prop where
  ring : (job.opts 1).termTree = false → s.Ring job
  tree : (job.opts 1).termTree = true → ∀ a b, s.token.net a b = []

theorem tokenPhase_start (queue : Rank → List α) (abortFlag : Rank → Bool)
    (input : Rank → ReduceInput) (enqueued : List α) :
    (Sys.start queue abortFlag input enqueued).TokenPhase job :=
  ⟨fun _ => ring_start .., fun _ _ _ => rfl⟩

theorem tokenPhase_next (he : s.Enabled job e) (hf : FirstOnly s e) (hO : s.Once job)
    (h : s.TokenPhase job) : (s.next job e).TokenPhase job where
  ring ht := ring_next ht he hf hO (h.ring ht)
  tree ht a b := by
    rw [tokenNet_next ht he hO]
    exact h.tree ht a b

/-- Once all ranks have left the main loop, no token is in flight. -/
theorem Sys.TokenPhase.net_eq_nil (h : s.TokenPhase job)
    (hleft : ∀ x, x < job.size → s.stage x ≠ .main ∧ 0 < s.inv x) (a b : Rank) :
    s.token.net a b = [] := by
  cases ht : (job.opts 1).termTree with
  | true => exact h.tree ht a b
  | false =>
      have hR := h.ring ht
      obtain ⟨pos, k, ⟨habsent, _, _⟩ | ⟨d, sent, hp, _⟩⟩ := hR.token
      · exact habsent.net_eq a b
      · -- the last rank has got `TERMINATE`, and did not pass it on
        have hlast : job.size - 1 < job.size := Nat.sub_lt job.size_pos Nat.one_pos
        obtain ⟨hk, hle⟩ := (hp.terminated _).mp ((hR.stage _).mpr (hleft _ hlast))
        cases sent with
        | false =>
            cases hp.holder with
            | held _ _ hnet => exact hnet a b
        | true =>
            have hd := hp.forwards rfl hk
            omega

/-! ## Runs -/

/-- One invocation with either kind of termination, and what is in flight in it. -/
structure Sys.Flowing (job : Job) (s : Sys α) : Prop where
  waves : s.Waves job
  accounted : s.work.Accounted job.size s.inv
  abort : s.abort.Paired job.neighbours
  token : s.TokenPhase job
  reduce : s.ReducePhase job
  reports : (job.opts 1).reduceEnabled = true → s.ReportPhase job
  frames : s.FramePhase job

theorem flowing_start (queue : Rank → List α) (abortFlag : Rank → Bool)
    (input : Rank → ReduceInput) (enqueued : List α) :
    (Sys.start queue abortFlag input enqueued).Flowing job where
  waves := waves_start ..
  accounted := accounted_start ..
  abort := paired_start ..
  token := tokenPhase_start ..
  reduce := reducePhase_start ..
  reports _ := reportPhase_start queue abortFlag input enqueued
  frames := framePhase_start queue abortFlag input enqueued

theorem flowing_next (he : s.Enabled job e) (hf : FirstOnly s e) (h : s.Flowing job) :
    (s.next job e).Flowing job where
  waves := waves_next he hf h.waves
  accounted := accounted_next he (settledBegin_of_firstOnly hf) h.waves.once.coherent h.accounted
  abort := paired_next he h.waves.once h.abort
  token := tokenPhase_next he hf h.waves.once h.token
  reduce := reducePhase_next he hf h.waves h.reduce
  reports hen := reportPhase_next he hf h.waves h.reduce hen (h.reports hen)
  frames := framePhase_next he hf h.waves h.reduce h.reports h.frames

theorem flowing_of_run {es : List (Event α)} (hrun : job.once.Run s es t) (h : s.Flowing job) :
    t.Flowing job :=
  hrun.restrict_invariant (fun _ _ h he hf => flowing_next he hf h) h

/-! ## After the barrier -/

/-- Once a rank has completed the barrier, no message of the two loops is in flight but receipts. -/
structure Sys.Cleared (s : Sys α) : Prop where
  requests : ∀ a b, s.work.requests a b = []
  replies : ∀ a b, s.work.replies a b = []
  term : ∀ a b, s.term.net a b = []
  token : ∀ a b, s.token.net a b = []
  abortRequests : ∀ a b, s.abort.requests a b = []
  abortReplies : ∀ a b, s.abort.replies a b = []

theorem Sys.Flowing.cleared (h : s.Flowing job) (hx : x < job.size) (hp : s.Past x) :
    s.Cleared := by
  have hW := h.waves
  have hrest := rested_of_past hW hx hp
  have htraces := fun a b =>
    hW.once.coherent.matched.traces_eq_zero (hrest a).workRequested b
  have hnone := fun a b => h.abort.none a b (.inl (hrest a).abort)
  refine ⟨fun a b => ?_, fun a b => ?_, ?_, ?_, fun a b => (hnone a b).1, fun a b => (hnone b a).2⟩
  · have := htraces a b
    unfold WorkNet.traces at this
    exact List.length_eq_zero_iff.mp (by omega)
  · have := htraces b a
    unfold WorkNet.traces at this
    exact List.length_eq_zero_iff.mp (by omega)
  · exact hW.term.net_eq_nil fun r _ =>
      ((hW.once.coherent.ok r).tidy.term_reset (.inl (hrest r).stage_ne)).1
  · exact h.token.net_eq_nil fun r hr => left_of_past hW hx hp hr

/-- The receipts in flight are those the ranks have not looked for. -/
theorem Sys.Flowing.receipts_eq (h : s.Flowing job) (hx : x < job.size) (hp : s.Past x) (r : Rank) :
    s.work.receiptsTo job.size r = s.work.workOutstanding r := by
  have hnone : s.work.transfersFrom job.size r = 0 := by
    simp [WorkNet.transfersFrom, Chan.outWeight, Chan.weight, (h.cleared hx hp).replies]
  have := h.accounted.outstanding_eq r
  omega

/-- With tree termination there are none. -/
theorem Sys.Flowing.receipts_eq_nil (h : s.Flowing job) (ht : (job.opts 1).termTree = true)
    (hx : x < job.size) (hp : s.Past x) (d r : Rank) : s.work.receipts d r = [] := by
  have hO := h.waves.once
  have hack : s.inv r = 0 ∨ (job.opts (s.inv r)).termTree = true := by
    rcases Nat.le_one_iff_eq_zero_or_eq_one.mp (hO.inv_le r) with hinv | hinv
    · exact .inl hinv
    · exact .inr (hinv ▸ ht)
  have hout : s.work.workOutstanding r = 0 :=
    (hO.coherent.ok r).tidy.acknowledged hack (rested_of_past h.waves hx hp r).stage_ne
  refine List.eq_nil_iff_forall_not_mem.mpr fun k hk => ?_
  have hd := (h.accounted.receipt_lt r d (List.ne_nil_of_mem hk)).1
  exact WorkNet.not_mem_of_receiptsTo (h.accounted.none_of_outstanding hout).2 hd hk

/-! ## After the collectives -/

/-- All ranks have returned from `CIRCLE_work_loop`. -/
def Sys.AllReturned (job : Job) (s : Sys α) : Prop := ∀ r, r < job.size → s.Returned r

/-- Nothing is in flight but receipts. -/
structure Sys.Silent (s : Sys α) : Prop extends s.Cleared where
  barrier : ∀ a b, s.barrier.net a b = []
  reduce : ∀ a b, s.reduce.net a b = []
  abortReduce : ∀ a b, s.abortReduce.net a b = []

theorem past_of_returned (hO : s.Once job) (h : s.Returned r) : s.Past r := by
  rcases h with hpc | ⟨hpc, hinv⟩
  · exact .inl (stage_of_closing hO (by rw [hpc]; rfl))
  · exact .inr ⟨((hO.coherent.ok r).requested_of_idle hpc).1, by omega⟩

/-- A rank that has returned is through the final reduction. -/
theorem point_of_returned (hO : s.Once job) (h : s.Returned r) : (s.loc r).point = none := by
  rw [point_of_past hO (past_of_returned hO h)]
  rcases h with hpc | ⟨hpc, _⟩ <;> rw [hpc] <;> rfl

/-- When all ranks are through the final reduction, all reports have been received. -/
theorem Sys.Framed.net_eq_nil (h : s.Framed job)
    (hT : (job.opts 1).reduceEnabled = true → ∃ sent, s.Tallied job sent)
    (hpoint : ∀ r, r < job.size → (s.loc r).point = none) (a b : Rank) :
    s.reduce.net a b = [] := by
  by_contra hne
  obtain ⟨hen, hc, hfinal⟩ := h a b hne
  obtain ⟨sent, hT⟩ := hT hen
  have hparent : (job.tree 1 a).parentRank = some b := job.rootedTree.parent_of_mem hc
  have hba : b < a := parent_lt hparent
  have hb : b < job.size := hba.trans (job.rootedTree.node_of_mem hc)
  have hreplies : (s.tally job).replies b = (job.rootedTree.children b).length := by
    simp only [Sys.tally, hpoint b hb]
    rfl
  have hcounted := hT.wave.counted_of_replies hreplies a hc
  exact hfinal.counts_ne_nil (Wave.counted_iff.mp hcounted).2.2

/-- After the last rank has returned, nothing is in flight but receipts. -/
theorem Sys.Flowing.silent (h : s.Flowing job)
    (hC : (job.opts 1).reduceEnabled = true → s.Counting job)
    (hret : s.AllReturned job) : s.Silent := by
  have hW := h.waves
  have hO := hW.once
  have hpast : s.Past 0 := past_of_returned hO (hret 0 job.size_pos)
  refine ⟨h.cleared job.size_pos hpast, ?_, ?_, ?_⟩
  · refine hW.barrier.net_eq_nil fun r hr => ?_
    have hst : s.stage r ≠ .cleanup := by
      rcases past_of_returned hO (hret r hr) with hst | ⟨hst, _⟩ <;> simp [hst]
    exact ((hO.coherent.ok r).tidy.barrier_started ((hO.coherent.ok r).tidy.barrier_reset hst)).1
  · exact (h.frames ⟨0, job.size_pos, hpast⟩).net_eq_nil
      (fun hen => (hC hen).counts ⟨0, job.size_pos, hpast⟩)
      fun r hr => point_of_returned hO (hret r hr)
  · refine hW.abort.net_eq_nil fun r hr => ?_
    have hok := hO.coherent.ok r
    rcases hret r hr with hpc | ⟨hpc, _⟩
    · have hat := hok.position
      rw [hpc] at hat
      exact hat.2.2.1.1
    · have hst : (s.loc r).stage = .outside := (hok.requested_of_idle hpc).1
      exact (hok.tidy.abortReduce_reset (by simp [hst])).1

/-- An invocation leaves nothing in the network but receipts.  With either kind of termination, any
aborts, reductions enabled or not: once all ranks have returned from `CIRCLE_work_loop`, no message
of any other kind is in flight, the receipts on their way to a rank are those that
`work_outstanding` still counts there, and with tree termination there are none. -/
theorem invocation_leaves_receipts {queue : Rank → List α} {abortFlag : Rank → Bool}
    {input : Rank → ReduceInput} {enqueued : List α} {es : List (Event α)}
    (hrun : job.once.Run (Sys.start queue abortFlag input enqueued) es s)
    (hret : s.AllReturned job) :
    s.Silent ∧ ∀ r, s.work.receiptsTo job.size r = s.work.workOutstanding r ∧
      ((job.opts 1).termTree = true → ∀ d, s.work.receipts d r = []) := by
  have h := flowing_of_run hrun (flowing_start ..)
  have hO := h.waves.once
  have hpast : s.Past 0 := past_of_returned hO (hret 0 job.size_pos)
  refine ⟨h.silent (fun hen => counting_of_run hen hrun (counting_start ..)) hret, fun r =>
    ⟨h.receipts_eq job.size_pos hpast r, fun ht d => h.receipts_eq_nil ht job.size_pos hpast d r⟩⟩

/-- Rank `0` hands an item to rank `1`, and has not received the receipt when both have returned. -/
theorem invocation_leaves_receipts_leftover :
    let t : Sys Nat := ringPair.once.follow .fresh leftover.dropLast
    t.Silent ∧ t.work.receiptsTo 2 0 = 1 := by
  have hrun : ringPair.once.Run .fresh leftover.dropLast
      (ringPair.once.follow .fresh leftover.dropLast) := .of_admits (by decide +kernel)
  have hret : (ringPair.once.follow .fresh leftover.dropLast).AllReturned ringPair := by
    intro r hr
    have hr : r = 0 ∨ r = 1 := Nat.le_one_iff_eq_zero_or_eq_one.mp (Nat.le_of_lt_succ hr)
    rcases hr with rfl | rfl
    · exact .inr ⟨by decide +kernel, by decide +kernel⟩
    · exact .inr ⟨by decide +kernel, by decide +kernel⟩
  obtain ⟨hsilent, hreceipts⟩ := invocation_leaves_receipts hrun hret
  exact ⟨hsilent, (hreceipts 0).1.trans (by decide +kernel)⟩

end Libcircle
