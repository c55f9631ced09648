import Libcircle.System.Settling

/-!
# The rounds come to an end

In a settled system every step of the termination allreduce lowers the effort of
the vote, and no other step changes it (`Voted.next`).  While some rank is in the
main loop, one of them can make a step of the allreduce.  Its pass through the loop
takes it to the function, since it has nothing to process.  So all ranks leave
(`leads_left`).
-/

namespace Libcircle

variable {α : Type*} {job : Job} {s t u : Sys α} {e : Event α} {r x : Rank}

/-- The effort of the vote. -/
noncomputable def Sys.effort (job : Job) (s : Sys α) : ℕ ×ₗ ℕ :=
  s.vote.effort job.rootedTree (Finset.range job.size)

/-- The system is settled, and no step of the allreduce has been made since `s`, or the effort is
lower. -/
structure Sys.Voted (job : Job) (s t : Sys α) : Prop where
  live : t.Live job
  settled : t.termView.Settled job 1
  vote : t.vote = s.vote ∨ t.effort job < s.effort job

theorem Sys.Voted.refl (hL : s.Live job) (hS : s.termView.Settled job 1) : s.Voted job s :=
  ⟨hL, hS, .inl rfl⟩

theorem effort_lt_of_move (hW : s.Waves job)
    (hmove : Vote.Move job.rootedTree s.vote t.vote) : t.effort job < s.effort job :=
  Vote.effort_lt (fun _ => Finset.mem_range) hW.term hmove

/-- A move lowers the effort. -/
theorem Sys.Voted.move (h : s.Voted job t)
    (hmove : Vote.Move job.rootedTree t.vote (t.next job e).vote) :
    (t.next job e).effort job < s.effort job := by
  have hlt := effort_lt_of_move h.live.waves hmove
  rcases h.vote with hvote | heffort
  · rwa [Sys.effort.eq_1 job s, ← hvote]
  · exact hlt.trans heffort

/-- Every step keeps this. -/
theorem Sys.Voted.next (ht : (job.opts 1).termTree = true) (h : s.Voted job t)
    (he : t.Enabled job e) (hf : FirstOnly t e) : s.Voted job (t.next job e) where
  live := live_next ht he hf h.live
  settled := h.settled.of_calm
    (settled_calm he (beginsAt_of_firstOnly hf) h.live.coherent h.live.accounted h.settled)
  vote := by
    rcases vote_next ht he hf h.live.waves h.settled with hsame | hmove
    · rw [Sys.effort, hsame]
      exact h.vote
    · exact .inr (h.move hmove)

/-! ## The next move -/

/-- The round is not the same any more. -/
def Sys.Advanced (job : Job) (s t : Sys α) : Prop :=
  (t.Live job ∧ t.termView.Settled job 1) ∧ t.effort job < s.effort job

/-- A step that is a move. -/
theorem advance (ht : (job.opts 1).termTree = true) (h : s.Voted job t) (he : t.Enabled job e)
    (hf : FirstOnly t e) (hb : e.Benign)
    (hmove : Vote.Move job.rootedTree t.vote (t.next job e).vote) :
    job.benign.Leads t (s.Advanced job) := by
  have hnext := h.next ht he hf
  exact Job.benign_next he hf hb (.here ⟨⟨hnext.live, hnext.settled⟩, h.move hmove⟩)

/-- At the head of the allreduce, a rank makes the move it can make. -/
theorem advance_termReplies (ht : (job.opts 1).termTree = true) (h : s.Voted job t)
    (hpc : t.pc r = .termReplies) (hcan : Wave.CanMove job.rootedTree t.vote.wave r) :
    job.benign.Leads t (s.Advanced job) := by
  have hW := h.live.waves
  have hlt : r < job.size := (hW.once.coherent.ok r).lt_size (by simp [hpc])
  have htree := hW.once.tree_eq ((hW.once.coherent.ok r).stage_ne (by simp [hpc]))
  have hout : t.work.workOutstanding r = 0 := (h.settled r hlt).2.1
  cases hcan with
  | recv c hc hup hm =>
      have he : t.Enabled job (.termReply r c) :=
        ⟨hpc, by rw [htree]; exact hW.term.replies_lt hc hm, hm⟩
      exact advance ht h he trivial trivial (vote_termReply he hW ht)
  | report hup hall =>
      have he : t.Enabled job (.termRepliesDone r) := hpc
      have h' := h.next ht he trivial
      refine Job.benign_next he trivial trivial ?_
      have he' : (t.next job (.termRepliesDone r)).Enabled job (.termUp r) := by
        simp [Sys.Enabled, Sys.next, hout]
      have hready : (t.next job (.termRepliesDone r)).term.Ready (job.tree 1 r) r :=
        ⟨hup, hW.term.replies_of_counted hall⟩
      refine advance ht h' he' trivial trivial ?_
      exact (vote_termUp he' h'.live.waves ht).resolve_left fun hearly => hearly.1 hready
  | answer p hp hm =>
      obtain ⟨m, _, _, hup, _⟩ := hW.term.answered_of_answer hp hm
      have he : t.Enabled job (.termRepliesDone r) := hpc
      have h' := h.next ht he trivial
      refine Job.benign_next he trivial trivial ?_
      have he' : (t.next job (.termRepliesDone r)).Enabled job (.termUp r) := by
        simp [Sys.Enabled, Sys.next, hout]
      have h'' := h'.next ht he' trivial
      refine Job.benign_next he' trivial trivial ?_
      -- it has reported already
      have hup : (t.term.st r).termUp = true := hup
      have hwait : t.term.report (t.tree job r) r = (t.term, none) := by
        simp [TermNet.report, TermNet.Ready, hup]
      have hterm : ((t.next job (.termRepliesDone r)).next job (.termUp r)).term = t.term :=
        congrArg Prod.fst hwait
      have hsent : (t.tree job r).parentSent t.term.net r = true :=
        TreeState.parentSent_iff.mpr ⟨p, by rw [htree]; exact job.rootedTree.parent_of_mem hp, hm⟩
      have he'' : ((t.next job (.termRepliesDone r)).next job (.termUp r)).Enabled job
          (.termDown r true) := by
        refine ⟨?_, fun _ => ?_⟩
        · have hnone : (t.term.report (t.tree job r) r).2 = none := congrArg Prod.snd hwait
          exact (Function.update_self ..).trans (congrArg (afterTerm .termDown) hnone)
        · rw [hterm]
          exact ⟨hup, hsent⟩
      refine advance ht h'' he'' trivial trivial ?_
      exact (vote_termDown he'' h''.live.waves ht).resolve_left
        fun hmiss => Bool.noConfusion hmiss.1

/-! ## All ranks leave -/

/-- No rank is in the main loop, and none will be. -/
def Sys.AllLeft (job : Job) (s : Sys α) : Prop := ∀ x, x < job.size → s.Left x

/-- While some rank is in the main loop, one of them can move. -/
theorem leads_advanced (ht : (job.opts 1).termTree = true) (hL : s.Live job)
    (hS : s.termView.Settled job 1) (hx : ¬s.AllLeft job) :
    job.benign.Leads s (s.Advanced job) := by
  have hinv : ∀ x, x < job.size → 0 < s.inv x := fun x hx => (hS x hx).1
  obtain ⟨x, hxn, hxl⟩ : ∃ x, x < job.size ∧ ¬s.Left x := by
    simpa only [Sys.AllLeft, not_forall, exists_prop] using hx
  obtain ⟨y, hy, hleft, hcan⟩ := hL.dismissal.exists_move hL.waves.term job.rootedTree_wf
    ⟨x, hxn, decide_eq_false hxl⟩
  have hst : s.stage y = .main := of_not_not fun hst => of_decide_eq_false hleft ⟨hst, hinv y hy⟩
  have hsolo := solo_termReplies (opts_of_stage ht hL.once (by simp [hst])) hL.coherent hst
  have halone := alone ht hL (J := s.Voted job)
    (fun u e _ hv _ hq he => hv.next ht he (firstOnly_of_quiet hq)) (.refl hL hS) hsolo
  refine halone.trans ?_
  rintro t ⟨_, _, hV, hend⟩
  rcases hV.vote with hvote | heffort
  · have hst' : t.stage y = .main := by
      refine of_not_not fun hst' => ?_
      have hleft' : t.vote.left y = false := hvote ▸ hleft
      exact of_decide_eq_false hleft' ⟨hst', (hV.settled y hy).1⟩
    rcases hend with hgone | ⟨_, hbusy⟩ | hpc
    · exact absurd hst' hgone
    · rcases (hV.settled y hy).2.2 (.inl hst') with hq | hab
      · exact absurd hq hbusy.1
      · exact absurd (hbusy.2.symm.trans hab) (by decide)
    · exact advance_termReplies ht hV hpc (hvote ▸ hcan)
  · exact .here ⟨⟨hV.live, hV.settled⟩, heffort⟩

/-- Some run takes every rank out of the main loop. -/
theorem leads_left (ht : (job.opts 1).termTree = true) (hL : s.Live job)
    (hS : s.termView.Settled job 1) :
    job.benign.Leads s fun t => (t.Live job ∧ t.termView.Settled job 1) ∧ t.AllLeft job := by
  refine EventSystem.Leads.descend (fun s => s.effort job) (fun u ⟨hu, hus⟩ hx => ?_) ⟨hL, hS⟩
  exact (leads_advanced ht hu hus hx).mono fun t ⟨hkeep, hlt⟩ => ⟨hkeep, .inr hlt⟩

end Libcircle
