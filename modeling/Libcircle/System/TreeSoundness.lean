import Libcircle.System.TreeTermination

/-!
# Tree termination is sound

A settled system stays settled: no step wakes a rank (`settled_calm`).  So a rank
that gets a positive answer of the allreduce knows that no item is left that a
rank without an abort would process, and that none will arrive.
-/

namespace Libcircle

variable {α : Type*} {job : Job} {s t u : Sys α} {e : Event α} {r x : Rank} {k : Nat}

/-! ## Steps that wake no rank -/

namespace TermView

variable {v v' v'' : TermView α}

/-- No rank is woken between `v` and `v'`. -/
structure Calm (v v' : TermView α) : Prop where
  inv_le : ∀ x, v.inv x ≤ v'.inv x
  outstanding_eq : v'.outstanding = v.outstanding
  queue_cases : ∀ x, v'.queue x = v.queue x ∨ v'.queue x = []
  looping : ∀ x, v'.stage x = .main ∨ v'.stage x = .cleanup →
    (v.stage x = .main ∨ v.stage x = .cleanup) ∧ (v.abortFlag x = true → v'.abortFlag x = true)

theorem Calm.refl (v : TermView α) : Calm v v :=
  ⟨fun _ => Nat.le_refl _, rfl, fun _ => .inl rfl, fun _ hst => ⟨hst, fun ha => ha⟩⟩

theorem Calm.trans (h : Calm v v') (h' : Calm v' v'') : Calm v v'' where
  inv_le x := (h.inv_le x).trans (h'.inv_le x)
  outstanding_eq := h'.outstanding_eq.trans h.outstanding_eq
  queue_cases x := by
    rcases h'.queue_cases x with hq | hq
    · rw [hq]
      exact h.queue_cases x
    · exact .inr hq
  looping x hst := by
    obtain ⟨hst', ha'⟩ := h'.looping x hst
    obtain ⟨hst, ha⟩ := h.looping x hst'
    exact ⟨hst, fun hx => ha' (ha hx)⟩

/-- A step that changes the stage or the abort flag only. -/
theorem Calm.of_stage (hqueue : v'.queue = v.queue) (hout : v'.outstanding = v.outstanding)
    (hinv : v'.inv = v.inv)
    (hstage : ∀ x, v'.stage x = .main ∨ v'.stage x = .cleanup →
      (v.stage x = .main ∨ v.stage x = .cleanup) ∧
        (v.abortFlag x = true → v'.abortFlag x = true)) : Calm v v' where
  inv_le x := by rw [hinv]
  outstanding_eq := hout
  queue_cases x := .inl (by rw [hqueue])
  looping := hstage

theorem Calm.of_abort (hqueue : v'.queue = v.queue) (hout : v'.outstanding = v.outstanding)
    (hinv : v'.inv = v.inv) (hstage : v'.stage = v.stage)
    (habort : ∀ x, v.abortFlag x = true → v'.abortFlag x = true) : Calm v v' :=
  .of_stage hqueue hout hinv fun x hst => ⟨by rwa [hstage] at hst, habort x⟩

/-- The stage of a looping rank changes. -/
theorem Calm.of_update (hqueue : v'.queue = v.queue) (hout : v'.outstanding = v.outstanding)
    (hinv : v'.inv = v.inv) (habort : v'.abortFlag = v.abortFlag)
    (hr : v.stage r = .main ∨ v.stage r = .cleanup) (st : Stage)
    (hstage : v'.stage = Function.update v.stage r st) : Calm v v' := by
  refine .of_stage hqueue hout hinv fun x hst => ⟨?_, by rw [habort]; exact fun ha => ha⟩
  by_cases hx : x = r
  · exact hx ▸ hr
  · rwa [hstage, Function.update_of_ne hx] at hst

theorem Settled.of_calm (h : v.Settled job k) (hc : Calm v v') : v'.Settled job k := by
  intro x hx
  obtain ⟨hinv, hout, hrest⟩ := h x hx
  refine ⟨hinv.trans (hc.inv_le x), by rw [hc.outstanding_eq, hout], fun hst => ?_⟩
  obtain ⟨hst, ha⟩ := hc.looping x hst
  rcases hrest hst with hq | hf
  · refine .inl ?_
    rcases hc.queue_cases x with hq' | hq'
    · rw [hq', hq]
    · exact hq'
  · exact .inr (ha hf)

end TermView

/-- No items are in flight in a settled system. -/
theorem WorkNet.Accounted.none_in_flight (hA : s.work.Accounted job.size s.inv)
    (hm : s.work.Matched job.size) (h : s.termView.Settled job k) (r d : Rank) :
    (∀ n l, .items n l ∉ s.work.replies r d) ∧ s.work.receipts d r = [] := by
  constructor
  · intro n l hnl
    obtain ⟨hd, hr, _⟩ := hm.awaits_lt _ _ (hm.awaits_of_reply (List.ne_nil_of_mem hnl))
    exact WorkNet.not_mem_of_transfersFrom (hA.none_of_outstanding (h r hr).2.1).1 hd hnl
  · by_contra hne
    obtain ⟨k, hk⟩ := List.exists_mem_of_ne_nil _ hne
    obtain ⟨hd, hr⟩ := hA.receipt_lt r d hne
    exact WorkNet.not_mem_of_receiptsTo (hA.none_of_outstanding (h r hr).2.1).2 hd hk

/-- In a settled system no step wakes a rank. -/
theorem settled_calm (he : s.Enabled job e) (hb : BeginsAt k s e) (hcoh : s.Coherent job)
    (hA : s.work.Accounted job.size s.inv) (h : s.termView.Settled job k) :
    s.termView.Calm (s.next job e).termView := by
  have hlt := (hcoh.ok _).rank_lt he
  have hsettled := h _ hlt
  have hat := (hcoh.ok e.rank).position
  cases e with
  | begin r next ops =>
      exact absurd hsettled.1 (Nat.not_le_of_lt (Nat.lt_of_succ_le (Nat.le_of_eq hb)))
  | workreqDone r rand =>
      refine .of_abort ?_ ?_ rfl rfl fun _ ha => ha
      · simp only [Sys.termView, Sys.next]
        split <;> rfl
      · simp only [Sys.termView, Sys.next]
        split <;> rfl
  | sendWork r count =>
      rw [show s.pc (Event.sendWork r count).rank = .sendWork from he.1] at hat
      exact absurd ⟨hsettled.2.2 (.inl hat.1), hsettled.2.1⟩
        (not_atRest_of_sendWork (hcoh.ok r) he.1)
  | workreceipt r src => exact absurd hsettled.2.1 (Nat.ne_of_gt he.2.1)
  | requestReply r sent =>
      obtain ⟨_, _, _, hm⟩ := he
      obtain ⟨m, ms, hms⟩ := List.exists_cons_of_ne_nil hm
      have hreply : s.reply r = m := by simp [Sys.reply, hms]
      refine .of_abort ?_ ?_ rfl rfl (le_abortFlag _ _ _)
      · cases m with
        | items n l =>
            have hmem : .items n l ∈ s.work.replies (s.work.request r).workRequestedRank r := by
              rw [hms]
              exact List.mem_cons_self ..
            exact absurd hmem ((hA.none_in_flight hcoh.matched h _ r).1 n l)
        | noWork | abort =>
            simp only [Sys.termView, Sys.next, hreply]
            rfl
      · simp [Sys.termView, Sys.next, WorkNet.requestDone, WorkNet.requestTest]
  | process r ops =>
      obtain ⟨hpc, hq, hab⟩ := he
      rw [show s.pc (Event.process r ops).rank = .work from hpc] at hat
      rcases hsettled.2.2 (.inl hat.1) with hnil | hflag
      · exact absurd hnil hq
      · exact absurd (hab.symm.trans hflag) (by decide)
  | termUp r =>
      rw [show s.pc (Event.termUp (α := α) r).rank = .termUp from he] at hat
      exact .of_update rfl rfl rfl rfl (.inl hat.1) _ rfl
  | termDown r hit =>
      rw [show s.pc (Event.termDown (α := α) r hit).rank = .termDown from he.1] at hat
      exact .of_update rfl rfl rfl rfl (.inl hat.1) _ rfl
  | token r hit =>
      rw [show s.pc (Event.token (α := α) r hit).rank = .token from he.1] at hat
      exact .of_update rfl rfl rfl rfl (.inl hat.1) _ rfl
  | barrierUp r =>
      rw [show s.pc (Event.barrierUp (α := α) r).rank = .barrierUp from he] at hat
      exact .of_update rfl rfl rfl rfl (.inr hat.1) _ rfl
  | barrierDown r hit =>
      rw [show s.pc (Event.barrierDown (α := α) r hit).rank = .barrierDown from he.1] at hat
      exact .of_update rfl rfl rfl rfl (.inr hat.1) _ rfl
  | abortRequest r src | reduceBegin r due hit calls | reduceReply r hit calls
  | reduceDone r calls | reduceSync r calls | reduceSyncReply r calls | reduceSyncDone r calls =>
      exact .of_abort rfl rfl rfl rfl (le_abortFlag _ _ _)
  | abortReduceUp r =>
      rw [show s.pc (Event.abortReduceUp (α := α) r).rank = .abortReduce from he.1] at hat
      refine .of_stage rfl rfl rfl fun x hst => ⟨hst, ?_⟩
      have hx : x ≠ r := by
        rintro rfl
        have hafter : s.stage x = .after := hat.1
        rcases hst with hst | hst <;> cases hafter.symm.trans hst
      simp [Sys.termView, Sys.next, Function.update_of_ne hx]
  | abortReduceDown r =>
      rw [show s.pc (Event.abortReduceDown (α := α) r).rank = .abortReduceDown from he.1] at hat
      refine .of_stage rfl rfl rfl fun x hst => ⟨hst, ?_⟩
      have hx : x ≠ r := by
        rintro rfl
        have hafter : s.stage x = .after := hat.1
        rcases hst with hst | hst <;> cases hafter.symm.trans hst
      simp [Sys.termView, Sys.next, Function.update_of_ne hx]
  | finish r =>
      refine ⟨fun _ => Nat.le_refl _, ?_, fun x => ?_, fun x hst => ⟨?_, fun ha => ha⟩⟩
      · simp only [Sys.termView, Sys.next]
        split <;> rfl
      · simp only [Sys.termView, Sys.next]
        split
        · by_cases hx : x = r
          · subst hx
            simp [WorkNet.setQueue]
          · simp [WorkNet.setQueue, Function.update_of_ne hx]
        · exact .inl rfl
      · by_cases hx : x = r
        · subst hx
          simp [Sys.termView, Sys.next] at hst
        · simpa [Sys.termView, Sys.next, Function.update_of_ne hx] using hst
  | _ => exact .of_abort rfl rfl rfl rfl fun _ ha => ha

/-! ## Runs -/

/-- One invocation with tree termination, either searching or settled. -/
structure Sys.TreeTerm (job : Job) (s : Sys α) : Prop where
  waves : s.Waves job
  accounted : s.work.Accounted job.size s.inv
  phase : s.termView.Searching job 1 ∨ s.termView.Settled job 1

theorem Sys.TreeTerm.turn (h : s.TreeTerm job) : s.TermTurn job 1 :=
  ⟨h.waves.once.coherent, h.waves.term, h.accounted, h.waves.once.main_eq⟩

theorem settledBegin_of_firstOnly (hf : FirstOnly s e) : SettledBegin job s e := by
  cases e with
  | begin r next ops => exact fun hpos => absurd hf (Nat.ne_of_gt hpos)
  | _ => trivial

theorem treeTerm_start (queue : Rank → List α) (abortFlag : Rank → Bool)
    (input : Rank → ReduceInput) (enqueued : List α) :
    (Sys.start queue abortFlag input enqueued).TreeTerm job :=
  ⟨waves_start .., accounted_start .., .inl (searching_start ..)⟩

theorem treeTerm_next (ht : (job.opts 1).termTree = true) (he : s.Enabled job e)
    (hf : FirstOnly s e) (h : s.TreeTerm job) : (s.next job e).TreeTerm job := by
  have hT := h.turn
  have hb := beginsAt_of_firstOnly hf
  obtain ⟨hW, hA, hphase⟩ := h
  have hcoh := hW.once.coherent
  refine ⟨waves_next he hf hW, accounted_next he (settledBegin_of_firstOnly hf) hcoh hA, ?_⟩
  rcases hphase with hs | hs
  · exact searching_next ht he hb hT hs
  · exact .inr (hs.of_calm (settled_calm he hb hcoh hA hs))

theorem treeTerm_of_run (ht : (job.opts 1).termTree = true) {es : List (Event α)}
    (hrun : job.once.Run s es t) (h : s.TreeTerm job) : t.TreeTerm job :=
  hrun.restrict_invariant (fun _ _ hI hE hC => treeTerm_next ht hE hC hI) h

/-- A settled system is calm for the rest of the invocation. -/
theorem settled_of_run (ht : (job.opts 1).termTree = true) {es : List (Event α)}
    (hrun : job.once.Run s es t) (h : s.TreeTerm job) (hs : s.termView.Settled job 1) :
    t.TreeTerm job ∧ t.termView.Settled job 1 ∧ s.termView.Calm t.termView :=
  hrun.restrict_invariant
    (I := fun t => t.TreeTerm job ∧ t.termView.Settled job 1 ∧ s.termView.Calm t.termView)
    (fun _ _ ⟨hT, hS, hC⟩ hE hF =>
      have hcalm :=
        settled_calm hE (beginsAt_of_firstOnly hF) hT.waves.once.coherent hT.accounted hS
      ⟨treeTerm_next ht hE hF hT, hS.of_calm hcalm, hC.trans hcalm⟩)
    ⟨h, hs, .refl _⟩

/-! ## The answer -/

/-- What `CIRCLE_check_for_term_allreduce` returns in an event; `none` is no answer yet. -/
def Sys.termAnswer (job : Job) (s : Sys α) : Event α → Option Bool
  | .termUp r => (s.term.report (s.tree job r) r).2
  | .termDown r hit => (s.term.await (s.tree job r) r hit).2
  | _ => none

/-- The answer takes its rank from the main loop to the cleanup loop. -/
theorem stage_of_termAnswer (he : s.Enabled job e) (hok : s.Ok job e.rank)
    (hans : s.termAnswer job e = some true) :
    s.stage e.rank = .main ∧ (s.next job e).stage e.rank = .cleanup := by
  have hat := hok.position
  cases e with
  | termUp r =>
      rw [show s.pc (Event.termUp (α := α) r).rank = .termUp from he] at hat
      refine ⟨hat.1, ?_⟩
      have hans : (s.term.report (s.tree job r) r).2 = some true := hans
      simp [Sys.next, Event.rank, hans, stageAfterTerm]
  | termDown r hit =>
      rw [show s.pc (Event.termDown (α := α) r hit).rank = .termDown from he.1] at hat
      refine ⟨hat.1, ?_⟩
      have hans : (s.term.await (s.tree job r) r hit).2 = some true := hans
      simp [Sys.next, Event.rank, hans, stageAfterTerm]
  | _ => cases hans

/-- While a rank is in the main loop or the cleanup loop, no rank is past the barrier. -/
theorem looping_of_looping (hW : s.Waves job) (hr : s.stage r = .main) (hlt : r < job.size)
    (hx : x < job.size) (hinv : 0 < s.inv x) : s.stage x = .main ∨ s.stage x = .cleanup := by
  have htidy := fun y => (hW.once.coherent.ok y).tidy
  have hne : (s.loc r).stage ≠ .cleanup := by simp [Sys.loc, hr]
  have hstarted := (htidy r).barrier_reset hne
  have hdone := hW.barrier.done_eq_of_not_up hlt ((htidy r).barrier_started hstarted).1
  have hcount := ((htidy r).counted_looping (.inl hr)).1
  have hinv_r : s.inv r = 1 := hW.once.inv_eq (by simp [hr])
  have hinv_x : s.inv x = 1 := Nat.le_antisymm (hW.once.inv_le x) hinv
  have hzero : (s.barrier.st x).completed = 0 := by
    have hr0 : (s.barrier.st r).completed + 1 = s.inv r := hcount
    have hroot : (s.barrier.st r).completed
        = (s.barrier.st job.rootedTree.root).completed := hdone
    rcases hW.barrier.done_cases x hx with hd | ⟨hd, _⟩
    · have hd : (s.barrier.st x).completed
        = (s.barrier.st job.rootedTree.root).completed := hd
      omega
    · have hd : (s.barrier.st x).completed + 1
        = (s.barrier.st job.rootedTree.root).completed := hd
      omega
  have hcx := (htidy x).counted
  cases hst : s.stage x with
  | main => exact .inl rfl
  | cleanup => exact .inr rfl
  | after | outside =>
      rw [show (s.loc x).stage = _ from hst] at hcx
      have hcx : (s.barrier.st x).completed = s.inv x := hcx.1
      omega

/-- A positive answer settles the system. -/
theorem settled_of_termAnswer (ht : (job.opts 1).termTree = true) (he : s.Enabled job e)
    (hT : s.TreeTerm job) (hans : s.termAnswer job e = some true) :
    (s.next job e).termView.Settled job 1 := by
  have hf : FirstOnly s e := by
    cases e with
    | begin r next ops => cases hans
    | _ => trivial
  have hT' := treeTerm_next ht he hf hT
  have hst := stage_of_termAnswer he (hT.waves.once.coherent.ok _) hans
  exact hT'.phase.resolve_left fun h => h.stage_ne_cleanup _ hst.2

/-- After a positive answer every rank is in one of the two loops, and has nothing to do. -/
theorem rests_of_termAnswer (hS : (s.next job e).termView.Settled job 1) (hW : s.Waves job)
    (he : s.Enabled job e) (hans : s.termAnswer job e = some true) (r : Rank)
    (hr : r < job.size) :
    (s.next job e).work.queue r = [] ∨ (s.next job e).abortFlag r = true := by
  have hok := hW.once.coherent.ok
  obtain ⟨hmain, hcleanup⟩ := stage_of_termAnswer he (hok _) hans
  refine (hS r hr).2.2 ?_
  by_cases hre : r = e.rank
  · exact hre ▸ .inr hcleanup
  · have hloc : (s.next job e).loc r = s.loc r := loc_next_of_ne hre
    have hstage : (s.next job e).stage r = s.stage r := congrArg Loc.stage hloc
    have hinv : (s.next job e).inv r = s.inv r := congrArg Loc.inv hloc
    have hpos : 0 < (s.next job e).inv r := (hS r hr).1
    change (s.next job e).stage r = .main ∨ (s.next job e).stage r = .cleanup
    rw [hstage]
    exact looping_of_looping hW hmain ((hok _).rank_lt he) hr (hinv ▸ hpos)

/-- Tree termination is sound, also under abort: in one invocation that starts with no
message in flight, when `CIRCLE_check_for_term_allreduce` returns `TERMINATE` on any rank,
every rank that does not see an abort has an empty queue, no transfer is outstanding, no
items and no receipts are in flight, and no queue receives items again. -/
theorem tree_termination_sound (ht : (job.opts 1).termTree = true)
    {queue : Rank → List α} {abortFlag : Rank → Bool} {input : Rank → ReduceInput}
    {enqueued : List α} {es fs : List (Event α)}
    (hrun : job.once.Run (Sys.start queue abortFlag input enqueued) es s)
    (he : s.Enabled job e) (hans : s.termAnswer job e = some true)
    (hlater : job.once.Run (s.next job e) fs u) :
    (∀ r, r < job.size →
      ((s.next job e).abortFlag r = false → (s.next job e).work.queue r = []) ∧
        (s.next job e).work.workOutstanding r = 0) ∧
      (∀ r d, (s.next job e).work.receipts r d = []) ∧
      (∀ r d k l, .items k l ∉ (s.next job e).work.replies r d) ∧
      (∀ r d k l, .items k l ∉ u.work.replies r d) ∧
      ∀ r, u.work.queue r = (s.next job e).work.queue r ∨ u.work.queue r = [] := by
  have hT := treeTerm_of_run ht hrun (treeTerm_start ..)
  have hS := settled_of_termAnswer ht he hT hans
  have hf : FirstOnly s e := by
    cases e with
    | begin r next ops => cases hans
    | _ => trivial
  have hT' := treeTerm_next ht he hf hT
  obtain ⟨hTu, hSu, hcalm⟩ := settled_of_run ht hlater hT' hS
  have hnone := hT'.accounted.none_in_flight hT'.waves.once.coherent.matched hS
  have hnone_u := hTu.accounted.none_in_flight hTu.waves.once.coherent.matched hSu
  refine ⟨fun r hr => ⟨fun hab => (rests_of_termAnswer hS hT.waves he hans r hr).resolve_right
    fun hf => absurd (hab.symm.trans hf) (by decide), (hS r hr).2.1⟩, fun r d => (hnone d r).2,
    fun r d => (hnone r d).1, fun r d => (hnone_u r d).1, hcalm.queue_cases⟩

/-- After a handover the two ranks process their items.  The first round of the allreduce
fails, since rank `0` got a receipt, and the second is about to succeed. -/
def lastRound : List (Event Nat) :=
  List.flatten
    [handover, [.checkForTerm 1, .termRepliesDone 1, .termUp 1, .termDown 1 false], passMain 1,
      [.requestReply 1 false, .process 1 [.dequeue], .workreceipt 0 1, .workreceiptDone 0,
        .worksendDone 0, .abortStart 0, .abortRequest 0 none, .abortReplies 0 false,
        .reduceSkip 0, .requestSkip 0, .process 0 [.dequeue]],
      passMain 0,
      [.requestSend 0 true (some 1), .checkForTerm 0, .termReply 0 1, .termRepliesDone 0,
        .termUp 0],
      passMain 1,
      [.requestSend 1 true (some 0), .checkForTerm 1, .termRepliesDone 1, .termUp 1,
        .termDown 1 true],
      passMain 1,
      [.requestNone 1 false, .checkForTerm 1, .termRepliesDone 1, .termUp 1, .termDown 1 false],
      passMain 0, [.requestNone 0 false, .checkForTerm 0, .termReply 0 1, .termRepliesDone 0]]

/-- Without an abort both queues are empty at the end.  With an abort each rank still has an item,
which it keeps. -/
theorem tree_termination_sound_rounds :
    (let t := Sys.next treePair (treePair.once.follow .fresh lastRound) (.termUp 0)
     ∀ r, r < 2 → (t.abortFlag r = false → t.work.queue r = []) ∧ t.work.workOutstanding r = 0) ∧
    (let s := treePair.once.follow .fresh (abortEarly ++ abortRound)
     let t := s.next treePair (.termUp 0)
     let u := treePair.once.follow t [.barrierStart 0, .barrierReply 0 none]
     (t.abortFlag 0 = true ∧ t.abortFlag 1 = true) ∧ (t.work.queue 0 = [1] ∧ t.work.queue 1 = [2]) ∧
      (∀ r d, t.work.receipts r d = []) ∧ (∀ r d k l, .items k l ∉ u.work.replies r d) ∧
      ∀ r, u.work.queue r = t.work.queue r ∨ u.work.queue r = []) := by
  have hrun : treePair.once.Run .fresh lastRound (treePair.once.follow .fresh lastRound) :=
    .of_admits (by decide +kernel)
  have hrun' : treePair.once.Run .fresh (abortEarly ++ abortRound)
      (treePair.once.follow .fresh (abortEarly ++ abortRound)) := .of_admits (by decide +kernel)
  refine ⟨(tree_termination_sound (e := .termUp 0) (by decide) hrun (by decide +kernel)
    (by decide +kernel) (.nil _)).1, ?_⟩
  intro s t u
  have hlater : treePair.once.Run t [.barrierStart 0, .barrierReply 0 none] u :=
    .of_admits (by decide +kernel)
  have hends := tree_termination_sound (e := .termUp 0) (by decide) hrun' (by decide +kernel)
    (by decide +kernel) hlater
  exact ⟨⟨by decide +kernel, by decide +kernel⟩, ⟨by decide +kernel, by decide +kernel⟩,
    hends.2.1, hends.2.2.2.1, hends.2.2.2.2⟩

end Libcircle
