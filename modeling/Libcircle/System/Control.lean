import Libcircle.System.Local

/-!
# The assertions hold

`at_next` checks the assertion at the position an event leads to, and
`tidy_next` what holds at every position.  `ok_next` puts them together, for every
rank.
-/

namespace Libcircle

variable {α : Type*} {job : Job} {s : Sys α} {e : Event α} {r : Rank} {l : Loc α}

/-- The assertions about one rank. -/
structure Sys.Ok (job : Job) (s : Sys α) (r : Rank) : Prop where
  position : (s.loc r).At job r (s.pc r)
  tidy : (s.loc r).Tidy job
  /-- Only ranks of the communicator call `CIRCLE_begin`. -/
  lt_size : s.pc r ≠ .idle → r < job.size

theorem Loc.Tidy.counted_looping (h : l.Tidy job) (hl : l.Looping) :
    l.barrier.completed + 1 = l.inv ∧ l.Reducing := by
  have hc := h.counted
  rcases hl with hl | hl <;>
  · rw [hl] at hc
    exact hc

theorem Loc.Tidy.inv_pos (h : l.Tidy job) (hne : l.stage ≠ .outside) : 0 < l.inv := by
  have hc := h.counted
  cases hst : l.stage with
  | outside => exact absurd hst hne
  | main | cleanup =>
      rw [hst] at hc
      exact hc.1 ▸ Nat.succ_pos _
  | after =>
      rw [hst] at hc
      exact hc.2

/-! ## Positions that depend on the stage -/

theorem at_afterWorkreq (h : l.Looping) (hs : l.Served) : l.At job r (afterWorkreq l.stage) := by
  rcases h with h | h
  · rw [h]
    exact ⟨h, hs⟩
  · rw [h]
    exact ⟨.inr h, hs⟩

theorem at_afterWorksend (h : l.Looping) (hs : l.Served) : l.At job r (afterWorksend l.stage) := by
  cases hst : l.stage <;> exact ⟨h, hs⟩

theorem at_afterAbort (h : l.Looping) (hs : l.Served) :
    l.At job r (afterAbort (job.opts l.inv).termTree l.stage) := by
  rcases h with h | h
  · rw [h]
    exact ⟨.inl h, hs⟩
  · rw [h, afterAbort]
    cases ht : (job.opts l.inv).termTree with
    | false => exact ⟨h, hs, ht⟩
    | true => exact ⟨h, hs⟩

theorem at_afterRequest (h : l.Looping) (hs : l.Served) : l.At job r (afterRequest l.stage) := by
  rcases h with h | h
  · rw [h]
    exact ⟨h, hs⟩
  · rw [h]
    exact ⟨.inr h, hs⟩

theorem passive_of_not_busy (h : ¬s.Busy r) : (s.loc r).Passive := by
  by_cases hq : s.work.queue r = []
  · exact .inl hq
  · refine .inr ?_
    by_contra hf
    exact h ⟨hq, Bool.eq_false_iff.mpr hf⟩

/-! ## Positions -/

/-- A transfer within the plan leaves items for the rest of the plan. -/
theorem tail_sum_lt {sizes : List Nat} {count n : Nat} (hback : BackOff sizes count)
    (hsum : sizes.sum < n) : count < n ∧ sizes.tail.sum < n - count := by
  cases sizes with
  | nil => exact absurd hback id
  | cons size rest =>
      simp only [List.sum_cons, List.tail_cons] at hsum ⊢
      rcases hback with ⟨h₀, h₁⟩ | ⟨_, h₂⟩ <;> omega

theorem reduce_reply_outstanding (y : ReduceNet) (hit : Bool) (child : Rank) :
    ((if hit then y.recvReply r child else y).st r).outstanding = (y.st r).outstanding := by
  cases hit
  · rfl
  · simp only [if_true, ReduceNet.recvReply]
    split <;> simp

/-! ### Requests for work -/

theorem at_workreqDone {rand : Nat} (he : s.Enabled job (.workreqDone r rand))
    (hat : (s.loc r).At job r (s.pc r)) :
    ((s.next job (.workreqDone r rand)).loc r).At job r
      ((s.next job (.workreqDone r rand)).pc r) := by
  have hpc : s.pc r = .workreq := he
  rw [hpc] at hat
  by_cases hreq : s.work.requestors r = []
  · simp only [Sys.next, Function.update_self, hreq, if_true, true_or]
    exact at_afterWorkreq hat hreq
  · by_cases href : s.Refuses job r
    · simp only [Sys.next, Function.update_self, hreq, href, if_true, if_false, or_true]
      exact ⟨hat, hreq⟩
    · simp only [Sys.next, Function.update_self, hreq, href, if_false, or_self]
      simp only [Sys.Refuses, not_or] at href
      obtain ⟨hq, hst, hf, _⟩ := href
      have hlen : 0 < (s.work.requestors r).length := List.length_pos_of_ne_nil hreq
      refine ⟨hat.resolve_right hst, Bool.eq_false_iff.mpr hf, hreq, ?_, ?_⟩
      · simp [Sys.loc, WorkNet.planSizes, splitSizes_length hlen]
      · simpa [Sys.loc, WorkNet.planSizes] using
          splitSizes_tail_sum_lt hlen (List.length_pos_of_ne_nil hq)

theorem at_sendWork {count : Nat} (he : s.Enabled job (.sendWork r count))
    (hat : (s.loc r).At job r (s.pc r)) :
    ((s.next job (.sendWork r count)).loc r).At job r ((s.next job (.sendWork r count)).pc r) := by
  obtain ⟨hpc, hback⟩ := he
  rw [hpc] at hat
  obtain ⟨hst, hf, hreq, hlen, hsum⟩ := hat
  simp only [Sys.loc] at hst hf hreq hlen hsum
  simp only [Sys.next, Function.update_self, Sys.afterRequestor]
  obtain ⟨hcount, hrest⟩ := tail_sum_lt hback hsum
  split
  next htail =>
    refine at_afterWorkreq (.inl hst) ?_
    simpa [Loc.Served, Sys.loc, WorkNet.nextRequestor] using htail
  next htail =>
    refine ⟨hst, hf, ?_, ?_, ?_⟩
    · simpa [Sys.loc, WorkNet.nextRequestor] using htail
    · simp [Sys.loc, WorkNet.nextRequestor, hlen]
    · simpa [Sys.loc, WorkNet.nextRequestor] using hrest

theorem at_sendNoWork (he : s.Enabled job (.sendNoWork r)) (hat : (s.loc r).At job r (s.pc r)) :
    ((s.next job (.sendNoWork r)).loc r).At job r ((s.next job (.sendNoWork r)).pc r) := by
  have hpc : s.pc r = .sendNoWork := he
  rw [hpc] at hat
  obtain ⟨hloop, _⟩ := hat
  simp only [Sys.next, Function.update_self, Sys.afterRequestor]
  split
  next htail =>
    refine at_afterWorkreq hloop ?_
    simpa [Loc.Served, Sys.loc, WorkNet.nextRequestor, WorkNet.sendNoWork] using htail
  next htail =>
    refine ⟨hloop, ?_⟩
    simpa [Loc.Served, Sys.loc, WorkNet.nextRequestor, WorkNet.sendNoWork] using htail

/-! ### Termination -/

theorem at_termRepliesDone (he : s.Enabled job (.termRepliesDone r))
    (hat : (s.loc r).At job r (s.pc r)) :
    ((s.next job (.termRepliesDone r)).loc r).At job r
      ((s.next job (.termRepliesDone r)).pc r) := by
  have hpc : s.pc r = .termReplies := he
  rw [hpc] at hat
  obtain ⟨hst, hserved, ht, hpas⟩ := hat
  simp only [Sys.next, Function.update_self]
  split
  next hout => exact ⟨hst, hserved, ht, hpas, hout⟩
  next => exact .inl hst

theorem at_termUp (he : s.Enabled job (.termUp r)) (hat : (s.loc r).At job r (s.pc r)) :
    ((s.next job (.termUp r)).loc r).At job r ((s.next job (.termUp r)).pc r) := by
  have hpc : s.pc r = .termUp := he
  rw [hpc] at hat
  simp only [Sys.next, Function.update_self]
  cases h : (s.term.report (s.tree job r) r).2 with
  | none => exact ⟨by simpa [Sys.loc, h, stageAfterTerm] using hat.1, hat.2⟩
  | some flag =>
      cases flag with
      | false => exact .inl (by simpa [Sys.loc, h, stageAfterTerm] using hat.1)
      | true =>
          exact ⟨by simp [Sys.loc, stageAfterTerm], hat.2.1⟩

theorem at_termDown {hit : Bool} (he : s.Enabled job (.termDown r hit))
    (hat : (s.loc r).At job r (s.pc r)) :
    ((s.next job (.termDown r hit)).loc r).At job r ((s.next job (.termDown r hit)).pc r) := by
  obtain ⟨hpc, _⟩ := he
  rw [hpc] at hat
  simp only [Sys.next, Function.update_self]
  cases h : (s.term.await (s.tree job r) r hit).2 with
  | none => exact .inl (by simpa [Sys.loc, h, stageAfterTerm] using hat.1)
  | some flag =>
      cases flag with
      | false => exact .inl (by simpa [Sys.loc, h, stageAfterTerm] using hat.1)
      | true =>
          exact ⟨by simp [Sys.loc, stageAfterTerm], hat.2.1⟩

theorem at_token {hit : Bool} (he : s.Enabled job (.token r hit))
    (hat : (s.loc r).At job r (s.pc r)) :
    ((s.next job (.token r hit)).loc r).At job r ((s.next job (.token r hit)).pc r) := by
  obtain ⟨hpc, _⟩ := he
  rw [hpc] at hat
  simp only [Sys.next, Function.update_self]
  generalize s.token.checkForTerm job.size (s.abortFlag r) r _ = y
  by_cases h : (y.st r).tokenProc = .terminate
  · rw [if_pos h]
    exact ⟨by simp [Sys.loc, h], hat.2.1⟩
  · rw [if_neg h]
    exact .inl (by simpa [Sys.loc, h] using hat.1)

/-! ### The barrier -/

theorem at_barrierStart (he : s.Enabled job (.barrierStart r)) (hat : (s.loc r).At job r (s.pc r)) :
    ((s.next job (.barrierStart r)).loc r).At job r ((s.next job (.barrierStart r)).pc r) := by
  have hpc : s.pc r = .barrierStart := he
  rw [hpc] at hat
  simp only [Sys.next, Function.update_self]
  split
  next h =>
    refine ⟨hat.1, hat.2, ?_⟩
    by_cases hset : s.Settled r
    · simp [Sys.loc, hset, BarrierNet.barrierStart, BarrierNet.set]
    · simpa [Sys.loc, hset] using h
  next => exact .inr hat.1

theorem at_barrierReply {src : Option Rank} (he : s.Enabled job (.barrierReply r src))
    (hat : (s.loc r).At job r (s.pc r)) :
    ((s.next job (.barrierReply r src)).loc r).At job r
      ((s.next job (.barrierReply r src)).pc r) := by
  obtain ⟨hpc, _⟩ := he
  rw [hpc] at hat
  cases src with
  | none =>
      simp only [Sys.next, Function.update_self]
      exact hat
  | some q =>
      simp only [Sys.next, Function.update_self]
      exact ⟨hat.1, hat.2.1, by simpa [Sys.loc, BarrierNet.recvArrival] using hat.2.2⟩

theorem at_barrierUp (he : s.Enabled job (.barrierUp r)) (hat : (s.loc r).At job r (s.pc r))
    (htidy : (s.loc r).Tidy job) :
    ((s.next job (.barrierUp r)).loc r).At job r ((s.next job (.barrierUp r)).pc r) := by
  have hpc : s.pc r = .barrierUp := he
  rw [hpc] at hat
  obtain ⟨hst, hserved, hstarted⟩ := hat
  have hidle := htidy.abortReduce_reset (by simp [hst])
  have hred := (htidy.counted_looping (.inr hst)).2
  simp only [Sys.next, Function.update_self]
  obtain ⟨_, h⟩ | ⟨p, _, _, h⟩ | ⟨_, _, h⟩ := s.barrier.report_cases (s.tree job r) r
  · rw [h]
    exact ⟨by simpa [Sys.loc] using hst, hserved, hstarted⟩
  · rw [h]
    exact ⟨by simpa [Sys.loc] using hst, hserved,
      by simpa [Sys.loc, BarrierNet.sendUp] using hstarted⟩
  · rw [h]
    exact ⟨by simp [Sys.loc], hserved, hidle, hred⟩

theorem at_barrierDown {hit : Bool} (he : s.Enabled job (.barrierDown r hit))
    (hat : (s.loc r).At job r (s.pc r)) (htidy : (s.loc r).Tidy job) :
    ((s.next job (.barrierDown r hit)).loc r).At job r
      ((s.next job (.barrierDown r hit)).pc r) := by
  obtain ⟨hpc, _⟩ := he
  rw [hpc] at hat
  obtain ⟨hst, hserved, hstarted⟩ := hat
  have hidle := htidy.abortReduce_reset (by simp [hst])
  have hred := (htidy.counted_looping (.inr hst)).2
  simp only [Sys.next, Function.update_self]
  obtain h | ⟨p, _, _, h⟩ := s.barrier.await_cases (s.tree job r) r hit
  · rw [h]
    exact .inr (by simpa [Sys.loc] using hst)
  · rw [h]
    exact ⟨by simp [Sys.loc], hserved, hidle, hred⟩

/-! ### After the loops -/

theorem at_worksendWait (he : s.Enabled job (.worksendWait r)) (hat : (s.loc r).At job r (s.pc r)) :
    ((s.next job (.worksendWait r)).loc r).At job r ((s.next job (.worksendWait r)).pc r) := by
  have hpc : s.pc r = .worksendWait := he
  rw [hpc] at hat
  obtain ⟨hst, hserved, ⟨hwait, hindex⟩, hred⟩ := hat
  have hwait' : ((s.next job (.worksendWait r)).loc r).abortReduce.waiting = false := by
    simpa [Sys.loc, Sys.next, AbortReduceNet.enter] using hwait
  have hred' : ((s.next job (.worksendWait r)).loc r).Reducing := by
    simpa [Loc.Reducing, Sys.loc, Sys.next, AbortReduceNet.enter] using hred
  simp only [Sys.next, Function.update_self]
  split
  next hen =>
    exact ⟨hst, hserved, ⟨hwait', by simpa [Sys.loc, AbortReduceNet.enter] using hindex⟩,
      hred', hen⟩
  next => exact ⟨hst, hserved, hwait', hred', by simp [Sys.loc, AbortReduceNet.enter]⟩

theorem at_reduceSyncDone {calls : List ReduceCall} (he : s.Enabled job (.reduceSyncDone r calls))
    (hat : (s.loc r).At job r (s.pc r)) :
    ((s.next job (.reduceSyncDone r calls)).loc r).At job r
      ((s.next job (.reduceSyncDone r calls)).pc r) := by
  obtain ⟨hpc, _⟩ := he
  rw [hpc] at hat
  obtain ⟨hst, hserved, ⟨hwait, _⟩, hred, _⟩ := hat
  simp only [Sys.next, Function.update_self]
  exact ⟨hst, hserved, by simpa [Sys.loc, AbortReduceNet.enter] using hwait,
    by simpa [Loc.Reducing, Sys.loc, AbortReduceNet.enter] using hred,
    by simp [Sys.loc, AbortReduceNet.enter]⟩

theorem at_abortReduceReply (he : s.Enabled job (.abortReduceReply r))
    (hat : (s.loc r).At job r (s.pc r)) :
    ((s.next job (.abortReduceReply r)).loc r).At job r
      ((s.next job (.abortReduceReply r)).pc r) := by
  obtain ⟨hpc, _⟩ := he
  rw [hpc] at hat
  obtain ⟨hst, hserved, hwait, hred, hflag⟩ := hat
  simp only [Sys.next, hpc]
  refine ⟨hst, hserved, by simpa [Sys.loc, AbortReduceNet.recvFlag] using hwait,
    by simpa [Loc.Reducing, Sys.loc, AbortReduceNet.recvFlag] using hred, fun hf => ?_⟩
  simp [Sys.loc, AbortReduceNet.recvFlag,
    show (s.abortReduce.st r).flag = true from hflag hf]

theorem at_abortReduceUp (he : s.Enabled job (.abortReduceUp r))
    (hat : (s.loc r).At job r (s.pc r)) :
    ((s.next job (.abortReduceUp r)).loc r).At job r ((s.next job (.abortReduceUp r)).pc r) := by
  obtain ⟨hpc, hindex⟩ := he
  rw [hpc] at hat
  obtain ⟨hst, hserved, hwait, hred, _⟩ := hat
  simp only [Sys.next, Function.update_self]
  obtain ⟨p, _, h⟩ | ⟨_, h⟩ := s.abortReduce.report_cases (s.tree job r) r
  · rw [h]
    exact ⟨hst, hserved, by simp [Sys.loc, AbortReduceNet.sendUp],
      by simpa [Loc.Reducing, Sys.loc, AbortReduceNet.sendUp] using hred,
      by simpa [Sys.loc, Sys.tree, AbortReduceNet.sendUp] using hindex⟩
  · rw [h]
    exact ⟨hst, hserved,
      by simp [AbortReduce.Resting, Sys.loc, AbortReduceNet.complete],
      by simpa [Loc.Reducing, Sys.loc, AbortReduceNet.complete] using hred⟩

theorem at_abortReduceDown (he : s.Enabled job (.abortReduceDown r))
    (hat : (s.loc r).At job r (s.pc r)) :
    ((s.next job (.abortReduceDown r)).loc r).At job r
      ((s.next job (.abortReduceDown r)).pc r) := by
  obtain ⟨hpc, hsent⟩ := he
  rw [hpc] at hat
  obtain ⟨hst, hserved, _, hred, _⟩ := hat
  obtain ⟨p, hp, _⟩ := TreeState.parentSent_iff.mp hsent
  simp only [Sys.next, Function.update_self, AbortReduceNet.await_eq _ _ _ hp]
  exact ⟨hst, hserved,
    by simp [AbortReduce.Resting, Sys.loc, AbortReduceNet.recvResult, AbortReduceNet.complete],
    by simpa [Loc.Reducing, Sys.loc, AbortReduceNet.recvResult,
      AbortReduceNet.complete] using hred⟩

theorem at_finish (he : s.Enabled job (.finish r)) (hat : (s.loc r).At job r (s.pc r)) :
    ((s.next job (.finish r)).loc r).At job r ((s.next job (.finish r)).pc r) := by
  have hpc : s.pc r = .returned := he
  rw [hpc] at hat
  simp only [Sys.next, Function.update_self]
  refine ⟨by simp [Sys.loc], ?_⟩
  have hserved := hat.2.1
  simp only [Loc.Served, Sys.loc] at hserved ⊢
  split <;> exact hserved

/-! ### All events -/

theorem at_next (he : s.Enabled job e) (hat : (s.loc e.rank).At job e.rank (s.pc e.rank))
    (htidy : (s.loc e.rank).Tidy job) :
    ((s.next job e).loc e.rank).At job e.rank ((s.next job e).pc e.rank) := by
  cases e with
  | begin r next ops => simp [Event.rank, Sys.next, Loc.At, Loc.Looping, Sys.loc]
  | workreq r src =>
      obtain ⟨hpc, _⟩ := he
      simp only [Event.rank, hpc] at hat
      simpa [Event.rank, Sys.next, hpc, Loc.At, Loc.Looping, Sys.loc] using hat
  | workreqDone r rand => exact at_workreqDone he hat
  | sendWork r count => exact at_sendWork he hat
  | sendNoWork r => exact at_sendNoWork he hat
  | workreceipt r src =>
      obtain ⟨hpc, _⟩ := he
      simp only [Event.rank, hpc] at hat
      simp only [Event.rank, Sys.next, hpc]
      exact hat
  | workreceiptDone r =>
      have hpc : s.pc r = .workreceipt := he
      simp only [Event.rank, hpc] at hat
      simp only [Event.rank, Sys.next, Function.update_self]
      exact ⟨.inl hat.1, hat.2⟩
  | worksend r i =>
      obtain ⟨hpc, _⟩ := he
      simp only [Event.rank, hpc] at hat
      simp only [Event.rank, Sys.next, hpc]
      exact hat
  | worksendDone r =>
      have hpc : s.pc r = .worksend := he
      simp only [Event.rank, hpc] at hat
      simp only [Event.rank, Sys.next, Function.update_self]
      exact at_afterWorksend hat.1 hat.2
  | abortStart r =>
      have hpc : s.pc r = .abortStart := he
      simp only [Event.rank, hpc] at hat
      simp only [Event.rank, Sys.next, Function.update_self]
      exact hat
  | abortRequest r src =>
      obtain ⟨hpc, _⟩ := he
      simp only [Event.rank, hpc] at hat
      cases src <;>
      · simp only [Event.rank, Sys.next, Function.update_self]
        exact hat
  | abortReplies r done =>
      obtain ⟨hpc, _⟩ := he
      simp only [Event.rank, hpc] at hat
      simp only [Event.rank, Sys.next, Function.update_self]
      exact at_afterAbort hat.1 hat.2
  | reduceSkip r =>
      obtain ⟨hpc, _⟩ := he
      simp only [Event.rank, hpc] at hat
      simp only [Event.rank, Sys.next, Function.update_self]
      exact hat
  | reduceResume r =>
      obtain ⟨hpc, hen, hout⟩ := he
      simp only [Event.rank, hpc] at hat
      simp only [Event.rank, Sys.next, Function.update_self]
      exact ⟨hat.1, hat.2, hen, hout, Nat.zero_le _⟩
  | reduceBegin r due hit calls =>
      obtain ⟨hpc, _⟩ := he
      simp only [Event.rank, hpc] at hat
      simp only [Event.rank, Sys.next, Function.update_self]
      exact hat
  | reduceReply r hit calls =>
      obtain ⟨hpc, hlt, _⟩ := he
      rw [Event.rank, hpc] at hat
      simp only [Event.rank, Sys.next, Function.update_self]
      obtain ⟨hloop, hserved, hen, hout, _⟩ := hat
      exact ⟨hloop, hserved, hen, (reduce_reply_outstanding _ _ _).trans hout, hlt⟩
  | reduceDone r calls =>
      obtain ⟨hpc, _⟩ := he
      simp only [Event.rank, hpc] at hat
      simp only [Event.rank, Sys.next, Function.update_self]
      exact ⟨hat.1, hat.2.1⟩
  | requestSkip r =>
      obtain ⟨hpc, hst, _⟩ := he
      simp only [Event.rank, hpc] at hat
      simp only [Event.rank, Sys.next, Function.update_self]
      exact ⟨hat.1.resolve_right hst, hat.2⟩
  | requestReply r sent =>
      obtain ⟨hpc, _⟩ := he
      simp only [Event.rank, hpc] at hat
      simp only [Event.rank, Sys.next, Function.update_self]
      refine at_afterRequest hat.1 ?_
      exact (congrFun (WorkNet.workReceive_requestors _ _ _ _) r).trans hat.2
  | requestSend r sent next | requestNone r sent =>
      obtain ⟨hpc, _⟩ := he
      simp only [Event.rank, hpc] at hat
      simp only [Event.rank, Sys.next, Function.update_self]
      exact at_afterRequest hat.1 hat.2
  | process r ops =>
      obtain ⟨hpc, _⟩ := he
      simp only [Event.rank, hpc] at hat
      simp only [Event.rank, Sys.next, Function.update_self]
      exact .inl hat.1
  | checkForTerm r =>
      obtain ⟨hpc, hbusy⟩ := he
      simp only [Event.rank, hpc] at hat
      simp only [Event.rank, Sys.next, Function.update_self]
      split
      next ht => exact ⟨hat.1, hat.2, ht, passive_of_not_busy hbusy⟩
      next ht => exact ⟨hat.1, hat.2, Bool.eq_false_iff.mpr ht, passive_of_not_busy hbusy⟩
  | termReply r src =>
      obtain ⟨hpc, _⟩ := he
      simp only [Event.rank, hpc] at hat
      simp only [Event.rank, Sys.next, hpc]
      exact hat
  | termRepliesDone r => exact at_termRepliesDone he hat
  | termUp r => exact at_termUp he hat
  | termDown r hit => exact at_termDown he hat
  | token r hit => exact at_token he hat
  | barrierStart r => exact at_barrierStart he hat
  | barrierReply r src => exact at_barrierReply he hat
  | barrierUp r => exact at_barrierUp he hat htidy
  | barrierDown r hit => exact at_barrierDown he hat htidy
  | tokenDrain r hit done =>
      obtain ⟨hpc, _⟩ := he
      simp only [Event.rank, hpc] at hat
      simp only [Event.rank, Sys.next, Function.update_self]
      exact ⟨hat.1, hat.2.1⟩
  | worksendWait r => exact at_worksendWait he hat
  | reduceSync r calls =>
      have hpc : s.pc r = .reduceSync := he
      simp only [Event.rank, hpc] at hat
      obtain ⟨hst, hserved, hrest, hred, hen⟩ := hat
      simp only [Event.rank, Sys.next, Function.update_self]
      exact ⟨hst, hserved, hrest, hred, hen, Nat.zero_le _⟩
  | reduceSyncReply r calls =>
      obtain ⟨hpc, hlt, _⟩ := he
      rw [Event.rank, hpc] at hat
      obtain ⟨hst, hserved, hrest, hred, hen, _⟩ := hat
      simp only [Event.rank, Sys.next, Function.update_self]
      exact ⟨hst, hserved, hrest, hred, hen, hlt⟩
  | reduceSyncDone r calls => exact at_reduceSyncDone he hat
  | abortReduceReply r => exact at_abortReduceReply he hat
  | abortReduceUp r => exact at_abortReduceUp he hat
  | abortReduceDown r => exact at_abortReduceDown he hat
  | finish r => exact at_finish he hat

/-! ## What holds everywhere -/

/-- In the loops, the barrier is started in the cleanup loop only. -/
theorem Loc.Tidy.cleanup_of_settled (h : l.Tidy job) (hl : l.Looping)
    (hs : l.barrier.barrierStarted = true ∨ l.stage = .after ∨ l.stage = .outside) :
    l.stage = .cleanup := by
  rcases hl with hl | hl
  · rw [hl, h.barrier_reset (by simp [hl])] at hs
    simp at hs
  · exact hl

theorem not_term_reset (hst : l.stage = .main) (ht : (job.opts l.inv).termTree = true) :
    ¬(l.stage ≠ .main ∨ (job.opts l.inv).termTree = false) := by
  simp [hst, ht]

/-- A rank that got an answer of the termination check is still in the main loop or
enters the cleanup loop. -/
theorem Loc.Tidy.of_term {l' : Loc α} (h : l.Tidy job) (hst : l.stage = .main)
    (hack : (job.opts l.inv).termTree = true → l.workOutstanding = 0)
    (hinv : l'.inv = l.inv) (hqueue : l'.queue = l.queue) (hreq : l'.request = l.request)
    (hout : l'.workOutstanding = l.workOutstanding) (hbar : l'.barrier = l.barrier)
    (habort : l'.abortReduce = l.abortReduce)
    (hterm : l'.term.termUp = false ∧ l'.term.termReplies = 0)
    (hst' : l'.stage = .main ∨ l'.stage = .cleanup) : l'.Tidy job := by
  have hbar₀ := h.barrier_reset (by simp [hst])
  exact {
    queue_nil := by
      rw [hqueue, hreq]
      exact h.queue_nil
    barrier_reset := fun _ => by rw [hbar, hbar₀]
    barrier_started := by
      rw [hbar]
      exact h.barrier_started
    settled := fun hs => by
      rw [hbar, hbar₀] at hs
      rcases hst' with hst' | hst' <;> simp [hst'] at hs
    term_reset := fun _ => hterm
    acknowledged := fun ht _ => by
      rw [hout]
      rw [hinv] at ht
      rcases ht with ht | ht
      · exact absurd (h.inv_pos (by simp [hst])) (by omega)
      · exact hack ht
    abortReduce_reset := fun _ => by
      rw [habort]
      exact h.abortReduce_reset (by simp [hst])
    counted := by
      have hc := h.counted
      rw [hst] at hc
      rw [hinv, hbar, habort]
      rcases hst' with hst' | hst' <;>
      · rw [hst']
        exact hc }

/-- A rank that leaves the cleanup loop. -/
theorem Loc.Tidy.of_barrier {l' : Loc α} (h : l.Tidy job) (hst : l.stage = .cleanup)
    (hstarted : l.barrier.barrierStarted = true) (hinv : l'.inv = l.inv)
    (hqueue : l'.queue = l.queue) (hreq : l'.request = l.request)
    (hout : l'.workOutstanding = l.workOutstanding) (hred : l'.reduce = l.reduce)
    (habort : l'.abort = l.abort) (hterm : l'.term = l.term)
    (hbar : l'.barrier.barrierStarted = false ∧ l'.barrier.barrierUp = false ∧
      l'.barrier.barrierReplies = 0)
    (hdone : l'.barrier.completed = l.barrier.completed + 1) (hst' : l'.stage = .after) :
    l'.Tidy job where
  queue_nil := by
    rw [hqueue, hreq]
    exact h.queue_nil
  barrier_reset _ := hbar.1
  barrier_started _ := hbar.2
  counted := by
    rw [hst', hdone, hinv]
    have hc := (h.counted_looping (.inr hst)).1
    exact ⟨hc, hc ▸ Nat.succ_pos _⟩
  settled _ := by
    rw [hreq, hred, habort]
    exact h.settled (.inl hstarted)
  term_reset _ := by
    rw [hterm]
    exact h.term_reset (.inl (by simp [hst]))
  acknowledged ht _ := by
    rw [hout]
    exact h.acknowledged (hinv ▸ ht) (by simp [hst])
  abortReduce_reset hne := absurd hst' hne

/-- A step of the abort reduction. -/
theorem Loc.Tidy.of_abortReduce {l' : Loc α} (h : l.Tidy job) (hst : l.stage = .after)
    (hst' : l'.stage = l.stage) (hinv : l'.inv = l.inv)
    (hqueue : l'.queue = l.queue) (hreq : l'.request = l.request)
    (hout : l'.workOutstanding = l.workOutstanding) (hred : l'.reduce = l.reduce)
    (hterm : l'.term = l.term) (hbar : l'.barrier = l.barrier)
    (habort : l'.abort.abortOutstanding = l.abort.abortOutstanding) : l'.Tidy job where
  queue_nil := by
    rw [hqueue, hreq]
    exact h.queue_nil
  barrier_reset := by
    rw [hbar, hst']
    exact h.barrier_reset
  barrier_started := by
    rw [hbar]
    exact h.barrier_started
  settled := by
    rw [hbar, hst', hreq, hred, habort]
    exact h.settled
  term_reset := by
    rw [hst', hterm, hinv]
    exact h.term_reset
  acknowledged := by
    rw [hst', hout, hinv]
    exact h.acknowledged
  abortReduce_reset hne := absurd (hst'.trans hst) hne
  counted := by
    have hc := h.counted
    rw [hst] at hc
    rw [hst', hst, hinv, hbar]
    exact hc

theorem recvSync_outstanding (y : ReduceNet) (child : Rank) :
    ((y.recvSync r child).st r).outstanding = (y.st r).outstanding := by
  unfold ReduceNet.recvSync
  split <;> simp

theorem syncFinish_outstanding (y : ReduceNet) (t : TreeState) :
    ((y.syncFinish t r).st r).outstanding = (y.st r).outstanding := by
  unfold ReduceNet.syncFinish
  split <;> simp [ReduceNet.sendResult]

theorem abortStart_cleanup (y : AbortNet) (t : TreeState) :
    ((y.abortStart t true r).st r).abortOutstanding = (y.st r).abortOutstanding := by
  simp only [AbortNet.abortStart]
  split
  · rfl
  · simp [AbortNet.set]

theorem repliesDone_outstanding (y : AbortNet) (t : TreeState) (done : Bool)
    (h : (y.st r).abortOutstanding = false) :
    ((if done then y.repliesDone t r else y).st r).abortOutstanding = false := by
  cases done with
  | false => exact h
  | true => simp [AbortNet.repliesDone]

theorem begin_cleanup (y : ReduceNet) (t : TreeState) (due hit : Bool) :
    ((y.begin t r true due hit).st r).outstanding = (y.st r).outstanding := by
  simp only [ReduceNet.begin]
  split
  · cases t.parentRank <;> simp
  · rfl

theorem finish_outstanding (y : ReduceNet) (t : TreeState) (count : Nat)
    (h : (y.st r).outstanding = false) : ((y.finish t r count).st r).outstanding = false := by
  simp only [ReduceNet.finish]
  split
  · simp [ReduceNet.set]
  · exact h

/-! ### Requests for work -/

theorem tidy_begin {next : Option Rank} {ops : List (WorkOp α)}
    (he : s.Enabled job (.begin r next ops)) (hat : (s.loc r).At job r (s.pc r))
    (h : (s.loc r).Tidy job) :
    ((s.next job (.begin r next ops)).loc r).Tidy job :=
  {
    queue_nil := by simp [Sys.loc, Sys.next, WorkNet.setQueue, WorkNet.init]
    barrier_reset := by
      simp [Sys.loc, Sys.next, BarrierNet.init, BarrierNet.set]
    barrier_started := by
      simp [Sys.loc, Sys.next, BarrierNet.init, BarrierNet.set]
    settled := by
      simp [Sys.loc, Sys.next, BarrierNet.init, BarrierNet.set]
    term_reset := by simp [Sys.loc, Sys.next, TermNet.init, TermNet.set]
    acknowledged := by simp [Sys.loc, Sys.next]
    abortReduce_reset := by
      obtain ⟨hpc, _⟩ := he
      rw [hpc] at hat
      have hidle := h.abortReduce_reset (by simp [hat.1])
      exact fun _ => hidle
    counted := by
      obtain ⟨hpc, _⟩ := he
      rw [hpc] at hat
      have hc := h.counted
      simp only [hat.1] at hc
      have hst : ((s.next job (.begin r next ops)).loc r).stage = .main := by
        simp [Sys.loc, Sys.next]
      simp only [hst]
      simpa [Stage.Counted, Sys.loc, Sys.next, BarrierNet.init, BarrierNet.set] using hc }

theorem tidy_sendWork {count : Nat} (he : s.Enabled job (.sendWork r count))
    (hat : (s.loc r).At job r (s.pc r)) (h : (s.loc r).Tidy job) :
    ((s.next job (.sendWork r count)).loc r).Tidy job := by
  obtain ⟨hpc, _⟩ := he
  rw [hpc] at hat
  have hst : s.stage r = .main := hat.1
  exact { h with
    queue_nil := fun hw => by
      have hq : s.work.queue r = [] :=
        h.queue_nil (by simpa [Sys.loc, Sys.next, WorkNet.nextRequestor] using hw)
      simp [Sys.loc, Sys.next, WorkNet.nextRequestor, hq]
    settled := fun hs => by
      have hcl : s.stage r = .cleanup := h.cleanup_of_settled (.inl hst) hs
      exact absurd (hst.symm.trans hcl) (by decide)
    acknowledged := fun _ hne => absurd hst hne }

theorem tidy_requestReply {sent : Bool} (h : (s.loc r).Tidy job) :
    ((s.next job (.requestReply r sent)).loc r).Tidy job :=
  { h with
    queue_nil := by simp [Sys.loc, Sys.next, WorkNet.requestDone]
    settled := fun hs =>
      ⟨by simp [Sys.loc, Sys.next, WorkNet.requestDone], (h.settled hs).2⟩
    acknowledged := fun ht hne => by
      have hack : s.work.workOutstanding r = 0 := h.acknowledged ht hne
      simp [Sys.loc, Sys.next, WorkNet.requestDone, WorkNet.requestTest, hack] }

theorem tidy_requestSend {sent : Bool} {next : Option Rank}
    (he : s.Enabled job (.requestSend r sent next)) (hat : (s.loc r).At job r (s.pc r))
    (h : (s.loc r).Tidy job) :
    ((s.next job (.requestSend r sent next)).loc r).Tidy job := by
  obtain ⟨hpc, hq, hreq, ⟨hst, _⟩, _⟩ := he
  rw [hpc] at hat
  exact { h with
    queue_nil := fun _ => hq
    settled := fun hs => absurd (h.cleanup_of_settled hat.1 hs) hst }

theorem tidy_requestNone {sent : Bool} (h : (s.loc r).Tidy job) :
    ((s.next job (.requestNone r sent)).loc r).Tidy job :=
  { h with
    queue_nil := fun hw => h.queue_nil (by
      simpa [Sys.loc, Sys.next, WorkNet.requestTest] using hw)
    settled := fun hs =>
      ⟨by simpa [Sys.loc, Sys.next, WorkNet.requestTest] using (h.settled hs).1,
        (h.settled hs).2⟩ }

/-! ### Aborts and reductions -/

theorem tidy_abortStart (he : s.Enabled job (.abortStart r)) (hat : (s.loc r).At job r (s.pc r))
    (h : (s.loc r).Tidy job) :
    ((s.next job (.abortStart r)).loc r).Tidy job := by
  have hpc : s.pc r = .abortStart := he
  rw [hpc] at hat
  cases hf : s.abortFlag r with
  | false =>
      simp only [Sys.next, hf, Bool.false_eq_true, if_false]
      exact { h with }
  | true =>
      simp only [Sys.next, hf, if_true]
      exact { h with
        settled := fun hs => by
          have hst : s.stage r = .cleanup := h.cleanup_of_settled hat.1 hs
          obtain ⟨hw, hred, hab⟩ := h.settled hs
          refine ⟨hw, hred, ?_⟩
          simp only [Sys.loc, hst, decide_true]
          exact (abortStart_cleanup _ _).trans hab }

theorem tidy_abortRequest {src : Option Rank} (he : s.Enabled job (.abortRequest r src))
    (hat : (s.loc r).At job r (s.pc r)) (h : (s.loc r).Tidy job) :
    ((s.next job (.abortRequest r src)).loc r).Tidy job := by
  obtain ⟨hpc, _⟩ := he
  rw [hpc] at hat
  cases src with
  | none => exact { h with }
  | some q =>
      exact { h with
        settled := fun hs => by
          have hst : s.stage r = .cleanup := h.cleanup_of_settled hat.1 hs
          obtain ⟨hw, hred, hab⟩ := h.settled hs
          refine ⟨hw, hred, ?_⟩
          simp only [Sys.loc, Sys.next, hst, decide_true]
          exact (abortStart_cleanup _ _).trans hab }

theorem tidy_reduceBegin {due hit : Bool} {calls : List ReduceCall}
    (he : s.Enabled job (.reduceBegin r due hit calls)) (hat : (s.loc r).At job r (s.pc r))
    (h : (s.loc r).Tidy job) :
    ((s.next job (.reduceBegin r due hit calls)).loc r).Tidy job := by
  obtain ⟨hpc, _⟩ := he
  rw [hpc] at hat
  exact { h with
    settled := fun hs => by
      have hst : s.stage r = .cleanup := h.cleanup_of_settled hat.1 hs
      obtain ⟨hw, hred, hab⟩ := h.settled hs
      refine ⟨hw, ?_, hab⟩
      simp only [Sys.loc, Sys.next, hst, decide_true]
      exact (begin_cleanup _ _ _ _).trans hred }

/-! ### Termination -/

theorem tidy_workreceipt {src : Rank} (h : (s.loc r).Tidy job) :
    ((s.next job (.workreceipt r src)).loc r).Tidy job :=
  { h with
    term_reset := fun hne => by
      have hreset := h.term_reset hne
      simpa [Sys.loc, Sys.next, TermNet.clearFlag, TermNet.set] using hreset
    acknowledged := fun ht hne => by
      have hack : s.work.workOutstanding r = 0 := h.acknowledged ht hne
      simp [Sys.loc, Sys.next, WorkNet.workreceiptRecv, hack] }

theorem tidy_termUp (he : s.Enabled job (.termUp r)) (hat : (s.loc r).At job r (s.pc r))
    (h : (s.loc r).Tidy job) :
    ((s.next job (.termUp r)).loc r).Tidy job := by
  have hpc : s.pc r = .termUp := he
  rw [hpc] at hat
  obtain ⟨hst, _, ht, _, hout⟩ := hat
  obtain ⟨_, hy⟩ | ⟨p, _, _, hy⟩ | ⟨_, _, hy⟩ := s.term.report_cases (s.tree job r) r
  · simp only [Sys.next, hy, stageAfterTerm, Function.update_eq_self]
    exact { h with }
  · simp only [Sys.next, hy, stageAfterTerm, Function.update_eq_self]
    exact { h with term_reset := fun hs => absurd hs (not_term_reset hst ht) }
  · simp only [Sys.next, hy]
    refine h.of_term hst (fun _ => hout) rfl rfl rfl rfl rfl rfl ?_ ?_
    · simp [Sys.loc, TermNet.completeRoot, TermNet.complete]
    · cases (s.term.st r).termFlag <;>
        simp [Sys.loc, stageAfterTerm, show s.stage r = .main from hst]

theorem tidy_termDown {hit : Bool} (he : s.Enabled job (.termDown r hit))
    (hat : (s.loc r).At job r (s.pc r)) (h : (s.loc r).Tidy job) :
    ((s.next job (.termDown r hit)).loc r).Tidy job := by
  obtain ⟨hpc, _⟩ := he
  rw [hpc] at hat
  obtain ⟨hst, _, _, _, hout⟩ := hat
  obtain hy | ⟨p, _, _, hy⟩ := s.term.await_cases (s.tree job r) r hit
  · simp only [Sys.next, hy, stageAfterTerm, Function.update_eq_self]
    exact { h with }
  · simp only [Sys.next, hy]
    refine h.of_term hst (fun _ => hout) rfl rfl rfl rfl rfl rfl ?_ ?_
    · simp [Sys.loc, TermNet.recvResult, TermNet.complete]
    · cases (s.term.net p r).headD true <;>
        simp [Sys.loc, stageAfterTerm, show s.stage r = .main from hst]

theorem tidy_token {hit : Bool} (he : s.Enabled job (.token r hit))
    (hat : (s.loc r).At job r (s.pc r)) (h : (s.loc r).Tidy job) :
    ((s.next job (.token r hit)).loc r).Tidy job := by
  obtain ⟨hpc, _⟩ := he
  rw [hpc] at hat
  obtain ⟨hst, _, ht, _⟩ := hat
  simp only [Sys.next]
  generalize s.token.checkForTerm job.size (s.abortFlag r) r _ = y
  refine h.of_term hst (fun ht' => ?_) rfl rfl rfl rfl rfl rfl ?_ ?_
  · exact absurd (ht.symm.trans ht') (by decide)
  · exact h.term_reset (.inr ht)
  · by_cases hd : (y.st r).tokenProc = .terminate
    · simp [Sys.loc, hd]
    · simp [Sys.loc, hd, show s.stage r = .main from hst]

/-! ### The barrier -/

theorem tidy_barrierStart (he : s.Enabled job (.barrierStart r))
    (hat : (s.loc r).At job r (s.pc r)) (h : (s.loc r).Tidy job) :
    ((s.next job (.barrierStart r)).loc r).Tidy job := by
  have hpc : s.pc r = .barrierStart := he
  rw [hpc] at hat
  by_cases hset : s.Settled r
  · simp only [Sys.next, if_pos hset]
    exact { h with
      barrier_reset := fun hne => absurd hat.1 hne
      barrier_started := by simp [Sys.loc, BarrierNet.barrierStart, BarrierNet.set]
      counted := by
        simpa [Sys.loc, BarrierNet.barrierStart, BarrierNet.set] using h.counted
      settled := fun _ => ⟨hset.1, hset.2.1, hset.2.2.1⟩ }
  · simp only [Sys.next, if_neg hset]
    exact { h with }

theorem tidy_barrierReply {src : Option Rank} (he : s.Enabled job (.barrierReply r src))
    (hat : (s.loc r).At job r (s.pc r)) (h : (s.loc r).Tidy job) :
    ((s.next job (.barrierReply r src)).loc r).Tidy job := by
  obtain ⟨hpc, _⟩ := he
  rw [hpc] at hat
  cases src with
  | none => exact { h with }
  | some q =>
      have hst : (s.barrier.st r).barrierStarted = true := hat.2.2
      exact { h with
        barrier_reset := fun hne => absurd hat.1 hne
        barrier_started := by
          simp [Sys.loc, Sys.next, BarrierNet.recvArrival, hst]
        settled := fun _ => h.settled (.inl hst)
        counted := by
          simpa [Sys.loc, Sys.next, BarrierNet.recvArrival] using h.counted }

theorem tidy_barrierUp (he : s.Enabled job (.barrierUp r)) (hat : (s.loc r).At job r (s.pc r))
    (h : (s.loc r).Tidy job) :
    ((s.next job (.barrierUp r)).loc r).Tidy job := by
  have hpc : s.pc r = .barrierUp := he
  rw [hpc] at hat
  obtain ⟨hst, _, hstarted⟩ := hat
  obtain ⟨_, hy⟩ | ⟨p, _, _, hy⟩ | ⟨_, _, hy⟩ := s.barrier.report_cases (s.tree job r) r
  · simp only [Sys.next, hy, Bool.false_eq_true, if_false, Function.update_eq_self]
    exact { h with }
  · simp only [Sys.next, hy, Bool.false_eq_true, if_false, Function.update_eq_self]
    exact { h with
      barrier_reset := fun hne => absurd hst hne
      barrier_started := by
        simp [Sys.loc, BarrierNet.sendUp,
          show (s.barrier.st r).barrierStarted = true from hstarted]
      settled := fun _ => h.settled (.inl hstarted)
      counted := by simpa [Sys.loc, BarrierNet.sendUp] using h.counted }
  · simp only [Sys.next, hy, if_true]
    refine h.of_barrier hst hstarted rfl rfl rfl rfl rfl rfl rfl ?_ ?_ ?_
    · simp [Sys.loc, BarrierNet.complete]
    · simp [Sys.loc, BarrierNet.complete]
    · simp [Sys.loc]

theorem tidy_barrierDown {hit : Bool} (he : s.Enabled job (.barrierDown r hit))
    (hat : (s.loc r).At job r (s.pc r)) (h : (s.loc r).Tidy job) :
    ((s.next job (.barrierDown r hit)).loc r).Tidy job := by
  obtain ⟨hpc, _⟩ := he
  rw [hpc] at hat
  obtain ⟨hst, _, hstarted⟩ := hat
  obtain hy | ⟨p, _, _, hy⟩ := s.barrier.await_cases (s.tree job r) r hit
  · simp only [Sys.next, hy, Bool.false_eq_true, if_false, Function.update_eq_self]
    exact { h with }
  · simp only [Sys.next, hy, if_true]
    refine h.of_barrier hst hstarted rfl rfl rfl rfl rfl rfl rfl ?_ ?_ ?_
    · simp [Sys.loc, BarrierNet.recvRelease, BarrierNet.complete]
    · simp [Sys.loc, BarrierNet.recvRelease, BarrierNet.complete]
    · simp [Sys.loc]

/-! ### After the loops -/

theorem tidy_worksendWait (he : s.Enabled job (.worksendWait r))
    (hat : (s.loc r).At job r (s.pc r)) (h : (s.loc r).Tidy job) :
    ((s.next job (.worksendWait r)).loc r).Tidy job := by
  have hpc : s.pc r = .worksendWait := he
  rw [hpc] at hat
  exact { h with
    queue_nil := fun hw => h.queue_nil (by
      simpa [Sys.loc, Sys.next, WorkNet.worksendWait] using hw)
    settled := fun hs =>
      ⟨by simpa [Sys.loc, Sys.next, WorkNet.worksendWait] using (h.settled hs).1,
        (h.settled hs).2⟩
    abortReduce_reset := fun hne => absurd hat.1 hne
    counted := by
      simpa [Sys.loc, Sys.next, AbortReduceNet.enter] using h.counted }

theorem tidy_reduceSyncDone {calls : List ReduceCall}
    (he : s.Enabled job (.reduceSyncDone r calls)) (hat : (s.loc r).At job r (s.pc r))
    (h : (s.loc r).Tidy job) :
    ((s.next job (.reduceSyncDone r calls)).loc r).Tidy job := by
  obtain ⟨hpc, _⟩ := he
  rw [hpc] at hat
  exact { h with
    settled := fun hs => ⟨(h.settled hs).1,
      (syncFinish_outstanding _ _).trans (h.settled hs).2.1, (h.settled hs).2.2⟩
    abortReduce_reset := fun hne => absurd hat.1 hne
    counted := by
      simpa [Sys.loc, Sys.next, AbortReduceNet.enter] using h.counted }

theorem tidy_abortReduceReply (he : s.Enabled job (.abortReduceReply r))
    (hat : (s.loc r).At job r (s.pc r)) (h : (s.loc r).Tidy job) :
    ((s.next job (.abortReduceReply r)).loc r).Tidy job := by
  obtain ⟨hpc, _⟩ := he
  rw [hpc] at hat
  exact { h with
    abortReduce_reset := fun hne => absurd hat.1 hne
    counted := by
      simpa [Sys.loc, Sys.next, AbortReduceNet.recvFlag] using h.counted }

theorem tidy_finish (he : s.Enabled job (.finish r)) (hat : (s.loc r).At job r (s.pc r))
    (h : (s.loc r).Tidy job) :
    ((s.next job (.finish r)).loc r).Tidy job := by
  have hpc : s.pc r = .returned := he
  rw [hpc] at hat
  obtain ⟨hst, _, hidle, hdone⟩ := hat
  have hset := h.settled (.inr (.inl hst))
  have hreq : (((s.next job (.finish r)).work).request r) = s.work.request r := by
    simp only [Sys.next]
    split <;> rfl
  have hout : (((s.next job (.finish r)).work).workOutstanding r)
      = s.work.workOutstanding r := by
    simp only [Sys.next]
    split <;> rfl
  exact { h with
    queue_nil := fun hw =>
      absurd (((congrArg Request.workRequested hreq).trans hset.1).symm.trans hw) (by decide)
    barrier_reset := fun _ => h.barrier_reset (by simp [hst])
    settled := fun _ => ⟨by rw [← hset.1]; exact congrArg _ hreq, hset.2⟩
    term_reset := fun _ => h.term_reset (.inl (by simp [hst]))
    acknowledged := fun ht _ => hout.trans (h.acknowledged ht (by simp [hst]))
    abortReduce_reset := fun _ => hidle
    counted := by
      have hc := h.counted
      simp only [hst] at hc
      have hst' : ((s.next job (.finish r)).loc r).stage = .outside := by
        simp [Sys.loc, Sys.next]
      simp only [hst']
      exact ⟨hc.1, hdone⟩ }

/-! ### All events -/

theorem tidy_next (he : s.Enabled job e) (hat : (s.loc e.rank).At job e.rank (s.pc e.rank))
    (h : (s.loc e.rank).Tidy job) : ((s.next job e).loc e.rank).Tidy job := by
  cases e with
  | begin r next ops => exact tidy_begin he hat h
  | workreqDone r rand =>
      by_cases hc : s.work.requestors r = [] ∨ s.Refuses job r
      · simp only [Sys.next, if_pos hc]
        exact { h with }
      · simp only [Sys.next, if_neg hc]
        exact { h with }
  | sendWork r count => exact tidy_sendWork he hat h
  | abortStart r => exact tidy_abortStart he hat h
  | abortRequest r src => exact tidy_abortRequest he hat h
  | abortReplies r done =>
      exact { h with
        settled := fun hs =>
          ⟨(h.settled hs).1, (h.settled hs).2.1, repliesDone_outstanding _ _ _ (h.settled hs).2.2⟩ }
  | reduceBegin r due hit calls => exact tidy_reduceBegin he hat h
  | reduceReply r hit calls =>
      exact { h with
        settled := fun hs =>
          ⟨(h.settled hs).1, (reduce_reply_outstanding _ _ _).trans (h.settled hs).2.1,
            (h.settled hs).2.2⟩ }
  | reduceDone r calls =>
      exact { h with
        settled := fun hs =>
          ⟨(h.settled hs).1, finish_outstanding _ _ _ (h.settled hs).2.1, (h.settled hs).2.2⟩ }
  | requestReply r sent => exact tidy_requestReply h
  | requestSend r sent next => exact tidy_requestSend he hat h
  | requestNone r sent => exact tidy_requestNone h
  | process r ops =>
      obtain ⟨hpc, hbusy⟩ := he
      exact { h with
        queue_nil := fun hw => absurd (h.queue_nil hw) hbusy.1 }
  | workreceipt r src => exact tidy_workreceipt h
  | termReply r src =>
      obtain ⟨hpc, _⟩ := he
      simp only [Event.rank, hpc] at hat
      exact { h with term_reset := fun hs => absurd hs (not_term_reset hat.1 hat.2.2.1) }
  | termUp r => exact tidy_termUp he hat h
  | termDown r hit => exact tidy_termDown he hat h
  | token r hit => exact tidy_token he hat h
  | barrierStart r => exact tidy_barrierStart he hat h
  | barrierReply r src => exact tidy_barrierReply he hat h
  | barrierUp r => exact tidy_barrierUp he hat h
  | barrierDown r hit => exact tidy_barrierDown he hat h
  | worksendWait r => exact tidy_worksendWait he hat h
  | reduceSync r calls =>
      exact { h with
        settled := fun hs => ⟨(h.settled hs).1, by
          simpa [Event.rank, Sys.loc, Sys.next, ReduceNet.callback, ReduceNet.syncBegin,
            ReduceNet.set] using (h.settled hs).2.1, (h.settled hs).2.2⟩ }
  | reduceSyncReply r calls =>
      exact { h with
        settled := fun hs => ⟨(h.settled hs).1,
          (recvSync_outstanding _ _).trans (h.settled hs).2.1, (h.settled hs).2.2⟩ }
  | reduceSyncDone r calls => exact tidy_reduceSyncDone he hat h
  | abortReduceReply r => exact tidy_abortReduceReply he hat h
  | abortReduceUp r | abortReduceDown r =>
      obtain ⟨hpc, _⟩ := he
      simp only [Event.rank, hpc] at hat
      exact h.of_abortReduce hat.1 rfl rfl rfl rfl rfl rfl rfl rfl
        (by simp [Event.rank, Sys.loc, Sys.next, AbortNet.set])
  | finish r => exact tidy_finish he hat h
  | tokenDrain r hit done => exact { h with }
  | workreq r src | sendNoWork r | workreceiptDone r | worksend r i | worksendDone r
  | reduceSkip r | reduceResume r | requestSkip r | checkForTerm r | termRepliesDone r =>
      exact { h with }

/-! ## Runs -/

theorem Sys.Ok.rank_lt (h : s.Ok job e.rank) (he : s.Enabled job e) : e.rank < job.size := by
  cases e with
  | begin r next ops => exact he.2.1
  | workreqDone r rand | sendNoWork r | workreceiptDone r | worksendDone r | abortStart r
  | termRepliesDone r | termUp r | barrierStart r | barrierUp r | worksendWait r
  | reduceSync r calls | finish r =>
      refine h.lt_size fun hidle => ?_
      cases (show s.pc r = _ from he).symm.trans hidle
  | reduceReply r hit calls | reduceSyncReply r calls =>
      refine h.lt_size fun hidle => ?_
      have hpc : s.pc r = _ := he.1
      rw [show s.pc r = .idle from hidle] at hpc
      cases hpc
  | _ =>
      refine h.lt_size fun hidle => ?_
      cases he.1.symm.trans hidle

theorem ok_start (queue : Rank → List α) (abortFlag : Rank → Bool) (input : Rank → ReduceInput)
    (enqueued : List α) (r : Rank) : (Sys.start queue abortFlag input enqueued).Ok job r where
  position := ⟨rfl, rfl⟩
  tidy := by constructor <;> simp [Sys.start, Sys.loc, AbortReduce.Resting, Stage.Counted]
  lt_size h := absurd rfl h

theorem ok_next (he : s.Enabled job e) (h : ∀ r, s.Ok job r) (r : Rank) :
    (s.next job e).Ok job r := by
  by_cases hr : r = e.rank
  · subst hr
    exact ⟨at_next he (h _).position (h _).tidy, tidy_next he (h _).position (h _).tidy,
      fun _ => (h _).rank_lt he⟩
  · have hloc : (s.next job e).loc r = s.loc r := loc_next_of_ne hr
    have hpc : (s.next job e).pc r = s.pc r := congrArg Loc.pc hloc
    obtain ⟨hposition, htidy, hlt⟩ := h r
    constructor
    · rwa [hloc, hpc]
    · rwa [hloc]
    · rwa [hpc]

end Libcircle
